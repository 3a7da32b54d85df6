import Myfuse.Proofs.LogUse
import Myfuse.Proofs.RecycledEntries
import Myfuse.Proofs.WellFormed

/-! Reads, writes, truncation, directories and path walks from two states of the same
use, and what follows for the calls that look at the type of an inode too early. -/

namespace Myfuse
open Library Library.Exec

namespace FS
variable {α β : Type} {fs fs' : FS} {held : Multiset Nat} {loaded : Set Nat} {ip : Nat}

/-- The call's references with one for a pointer that may be null. -/
def withRef : Option Nat → Multiset Nat → Multiset Nat
  | none, held => held
  | some ip, held => ip ::ₘ held

theorem withRef_swap (first second : Option Nat) (held : Multiset Nat) :
    withRef first (withRef second held) = withRef second (withRef first held) := by
  cases first with
  | none => rfl
  | some ip =>
    cases second with
    | none => rfl
    | some other => exact Multiset.cons_swap ip other held

theorem mem_withRef {pointer : Option Nat} (own : ip ∈ held) : ip ∈ withRef pointer held := by
  cases pointer with
  | none => exact own
  | some other => exact Multiset.mem_cons_of_mem own

theorem iunlockput_twin (paired : Paired (ip ::ₘ held) (insert ip loaded) fs fs') (supported : ∀ other ∈ loaded, other ∈ held) :
    Twin (iunlockput ip) (iunlockput ip) fs fs' fun _ => Paired held loaded :=
  .bind ((loaded_outside (Set.mem_insert ip loaded)).iunlock _ _ paired) fun _ _ _ paired =>
    iput_twin (paired.forget (Set.subset_insert ip loaded)) supported

section
variable {dp : Nat} (inside : dp ∈ loaded)
include inside

theorem dirlookup_twin (paired : Paired held loaded fs fs') (name : Name) :
    Twin (dirlookup dp name) (dirlookup dp name) fs fs' fun found => Paired (withRef (found.map Prod.fst) held) loaded := by
  unfold dirlookup
  apply Alike.read
  dsimp only
  rw [paired.entry inside]
  refine .bind ((loaded_outside inside).inodeReadNbytesLocked _ _ _ _ paired) fun data _ _ paired => ?_
  refine .ite Iff.rfl (fun _ => .stop paired.same) fun _ => ?_
  cases findDirent data name (direntCount (fs.inode dp).copy.size) 0 with
  | none => exact .stop paired.same
  | some found =>
    cases found with
    | none => exact .pure paired
    | some place => exact .bind (iget_twin paired place.1) fun ip _ _ paired => .pure paired

theorem dirlink_careful (name : Name) (inum : Nat) : Careful held loaded (dirlink dp name inum) := by
  intro fs fs' paired
  refine .bind (dirlookup_twin inside paired name) fun found _ _ paired' => ?_
  cases found with
  | some place => exact .bind (iput_twin paired' paired.supported) fun _ _ _ paired => .pure paired
  | none =>
    refine .bind ((loaded_outside inside).dirlinkOffset _ _ paired') fun off _ _ paired => ?_
    refine .bind ((loaded_outside inside).inodeWriteNbytesLocked _ _ _ _ paired) fun count _ _ paired => ?_
    exact .ite Iff.rfl (fun _ => .stop paired.same) fun _ => .pure paired

theorem dropDirent_careful (name : Name) : Careful held loaded (dropDirent dp name) := by
  intro fs fs' paired
  refine .bind (dirlookup_twin inside paired name) fun found _ _ paired' => ?_
  cases found with
  | none =>
    have undefined : Twin (iputPtr none) (iputPtr none) _ _ fun _ => Paired held loaded := .stop paired'.same
    exact .bind undefined fun _ _ _ paired => .bind ((loaded_outside inside).inodeWriteNbytesLocked _ _ _ _ paired) fun _ _ _ paired => .pure paired
  | some place =>
    refine .bind (iput_twin paired' paired.supported) fun _ _ _ paired => ?_
    exact .bind ((loaded_outside inside).inodeWriteNbytesLocked _ _ _ _ paired) fun _ _ _ paired => .pure paired

end

/-- The walk uses up the reference it starts with, and gives out one to what it finds. -/
theorem namexFrom_twin (nameiparent : Bool) (supported : ∀ other ∈ loaded, other ∈ held) : ∀ (names : List Name) {ip : Nat} {fs fs' : FS},
    Paired (ip ::ₘ held) loaded fs fs' →
    Twin (namexFrom nameiparent names ip) (namexFrom nameiparent names ip) fs fs' fun found => Paired (withRef (found.map Prod.fst) held) loaded
  | [], ip, fs, fs', paired => by
    unfold namexFrom
    exact .ite Iff.rfl (fun _ => .bind (iput_twin paired supported) fun _ _ _ paired => .pure paired) fun _ => .pure paired
  | name :: rest, ip, fs, fs', paired => by
    unfold namexFrom
    have inside := Set.mem_insert ip loaded
    refine .bind (ilock_twin paired (Multiset.mem_cons_self ip held)) fun _ _ _ paired => .read ?_
    rw [paired.entry inside]
    refine .ite Iff.rfl (fun _ => .bind (iunlockput_twin paired supported) fun _ _ _ paired => .pure paired) fun _ => ?_
    refine .ite Iff.rfl (fun _ => .bind ((loaded_outside inside).iunlock _ _ paired) fun _ _ _ paired => .pure (paired.forget (Set.subset_insert ip loaded)))
      fun _ => ?_
    refine .bind (dirlookup_twin inside paired name) fun found current current' paired => ?_
    cases found with
    | none => exact .bind (iunlockput_twin paired supported) fun _ _ _ paired => .pure paired
    | some place =>
      have swapped : Paired (ip ::ₘ place.1 ::ₘ held) (insert ip loaded) current current' := by
        rw [Multiset.cons_swap]
        exact paired
      refine .bind (iunlockput_twin swapped fun other inside => Multiset.mem_cons_of_mem (supported other inside)) fun _ _ _ paired => ?_
      exact namexFrom_twin nameiparent supported rest paired

theorem namex_twin (paired : Paired held loaded fs fs') (path : List Byte) (nameiparent : Bool) :
    Twin (namex path nameiparent) (namex path nameiparent) fs fs' fun found => Paired (withRef (found.map Prod.fst) held) loaded := by
  refine .ite Iff.rfl (fun _ => ?_) fun _ => .stop paired.same
  exact .bind (iget_twin paired ROOTINO) fun ip _ _ walking => namexFrom_twin nameiparent paired.supported _ walking

theorem path2inode_twin (paired : Paired held loaded fs fs') (path : List Byte) :
    Twin (path2inode path) (path2inode path) fs fs' fun found => Paired (withRef found held) loaded :=
  .bind (namex_twin paired path false) fun _ _ _ paired => .pure paired

theorem path2parentinode_twin (paired : Paired held loaded fs fs') (path : List Byte) :
    Twin (path2parentinode path) (path2parentinode path) fs fs' fun found => Paired (withRef (found.map Prod.fst) held) loaded :=
  namex_twin paired path true

theorem iputSome_twin {pointer : Option Nat} (paired : Paired (withRef pointer held) loaded fs fs') (supported : ∀ other ∈ loaded, other ∈ held) :
    Twin (iputSome pointer) (iputSome pointer) fs fs' fun _ => Paired held loaded := by
  cases pointer with
  | none => exact .pure paired
  | some ip => exact iput_twin paired supported

/-! The two calls up to their tests of a type, which may belong to an entry that was never read. -/

/-- Before `begin_op` returns nothing is known about the log. -/
theorem beginOp_twin (same : SameUse fs fs') (initialized : 0 < fs.ninode) :
    Twin beginOp beginOp fs fs' fun _ => Paired 0 ∅ := by
  have log : fs'.log = fs.log := by rw [same.rest]
  apply Alike.read
  rw [log]
  refine .ite Iff.rfl (fun admits => ?_) fun _ => .stop same
  have calm : fs.log.committing = false := by
    rw [Fslog.admits, Bool.and_eq_true, Bool.not_eq_true'] at admits
    exact admits.1
  have opened : Twin (modify fun fs => { fs with log := { fs.log with outstanding := fs.log.outstanding + 1 }, n_log_wrote := 0 })
      (modify fun fs => { fs with log := { fs.log with outstanding := fs.log.outstanding + 1 }, n_log_wrote := 0 }) fs fs'
      fun _ => Paired 0 ∅ := by
    refine .modify ⟨⟨?_, same.entry⟩, calm, initialized, fun _ own => ?_, fun _ own => ?_, fun _ inside => ?_, fun _ inside => ?_⟩
    · rw [same.rest]
    · exact absurd own (Multiset.notMem_zero _)
    · exact absurd own (Multiset.notMem_zero _)
    · exact absurd inside (Set.notMem_empty _)
    · exact absurd inside (Set.notMem_empty _)
  exact .bind opened fun _ _ _ paired => paired.blind (note_tables _)

/-- The start of the calls that walk one path: `begin_op` and the walk. -/
def walkPath (path : List Byte) : M (Option Nat) := do
  beginOp
  path2inode path

/-- `myfuse_rename` up to the test of the target's type: the inodes of the source with
its last name, and those of the target. -/
def renameUnlink (source target : List Byte) : M (Option (Nat × Nat × Name × Option Nat × Option (Nat × Name))) := do
  beginOp
  let target_ip ← path2inode target
  let target_dp ← path2parentinode target
  let from_ip ← path2inode source
  let from_dp ← path2parentinode source
  match from_ip, from_dp with
  | some from_ip, some (from_dp, from_name) =>
    if target_ip = none ∧ target_dp = none then pure none
    else do
      ilock from_ip
      ilock from_dp
      dropDirent from_dp from_name
      iunlock from_dp
      iunlock from_ip
      pure (some (from_ip, from_dp, from_name, target_ip, target_dp))
  | _, _ => pure none

theorem walkPath_twin (same : SameUse fs fs') (initialized : 0 < fs.ninode) (path : List Byte) :
    Twin (walkPath path) (walkPath path) fs fs' fun found => Paired (withRef found 0) ∅ :=
  .bind (beginOp_twin same initialized) fun _ _ _ paired => path2inode_twin paired path

/-- What `myfuse_rename` holds when it tests the target's type. -/
def renameRefs : Option (Nat × Nat × Name × Option Nat × Option (Nat × Name)) → Multiset Nat
  | none => 0
  | some (from_ip, from_dp, _, target_ip, target) => withRef target_ip (withRef (target.map Prod.fst) (from_ip ::ₘ from_dp ::ₘ 0))

/-- The inodes of the source have been read by then. -/
def renameLoaded : Option (Nat × Nat × Name × Option Nat × Option (Nat × Name)) → Set Nat
  | none => ∅
  | some (from_ip, from_dp, _) => insert from_dp (insert from_ip ∅)

/-- `held` in another order. -/
theorem Paired.reorder {other : Multiset Nat} (paired : Paired held loaded fs fs') (same : held = other) : Paired other loaded fs fs' := same ▸ paired

theorem renameUnlink_twin (same : SameUse fs fs') (initialized : 0 < fs.ninode) (source target : List Byte) :
    Twin (renameUnlink source target) (renameUnlink source target) fs fs' fun found => Paired (renameRefs found) (renameLoaded found) := by
  refine .bind (beginOp_twin same initialized) fun _ _ _ paired => ?_
  refine .bind (path2inode_twin paired target) fun target_ip _ _ paired => ?_
  refine .bind (path2parentinode_twin paired target) fun target_dp _ _ paired => ?_
  refine .bind (path2inode_twin paired source) fun from_ip _ _ paired => ?_
  refine .bind (path2parentinode_twin paired source) fun from_dp _ _ paired => ?_
  have nothing : ∀ {now now' : FS} {held : Multiset Nat}, Paired held ∅ now now' → Paired 0 ∅ now now' := fun paired =>
    ⟨paired.same, paired.calm, paired.initialized, fun _ own => absurd own (Multiset.notMem_zero _), fun _ own => absurd own (Multiset.notMem_zero _),
      paired.valid, fun _ inside => absurd inside (Set.notMem_empty _)⟩
  cases from_ip with
  | none => exact .pure (nothing paired)
  | some from_ip =>
    cases from_dp with
    | none => exact .pure (nothing paired)
    | some parent =>
      obtain ⟨from_dp, from_name⟩ := parent
      refine .ite Iff.rfl (fun _ => .pure (nothing paired)) fun _ => ?_
      have own_dp : from_dp ∈ withRef (some from_dp) (withRef (some from_ip) (withRef (target_dp.map Prod.fst) (withRef target_ip 0))) :=
        Multiset.mem_cons_self _ _
      have own_ip : from_ip ∈ withRef (some from_dp) (withRef (some from_ip) (withRef (target_dp.map Prod.fst) (withRef target_ip 0))) :=
        Multiset.mem_cons_of_mem (Multiset.mem_cons_self _ _)
      refine .bind (ilock_twin paired own_ip) fun _ _ _ paired => .bind (ilock_twin paired own_dp) fun _ _ _ paired => ?_
      have inside_dp := Set.mem_insert from_dp (insert from_ip ∅)
      have inside_ip := Set.mem_insert_of_mem from_dp (Set.mem_insert from_ip ∅)
      refine .bind (dropDirent_careful inside_dp from_name _ _ paired) fun _ _ _ paired => ?_
      refine .bind ((loaded_outside inside_dp).iunlock _ _ paired) fun _ _ _ paired => .bind ((loaded_outside inside_ip).iunlock _ _ paired) fun _ _ _ paired => ?_
      refine .pure (paired.reorder ?_)
      show withRef (some from_dp) (withRef (some from_ip) (withRef (target_dp.map Prod.fst) (withRef target_ip 0))) =
        withRef target_ip (withRef (target_dp.map Prod.fst) (withRef (some from_ip) (withRef (some from_dp) 0)))
      rw [withRef_swap (some from_dp), withRef_swap (some from_dp), withRef_swap (some from_dp), withRef_swap (some from_ip),
        withRef_swap (some from_ip), withRef_swap (target_dp.map Prod.fst)]

/-- Whether an entry's type field says directory, read or not. -/
def saysDirectory (fs : FS) (ip : Nat) : Prop := (fs.inode ip).copy.type = T_DIR_INODE_MYFUSE

theorem renameTarget_twin {from_ip from_dp : Nat} {from_name : Name} {target_ip : Option Nat} {target : Option (Nat × Name)}
    (paired : Paired (renameRefs (some (from_ip, from_dp, from_name, target_ip, target))) (insert from_dp (insert from_ip ∅)) fs fs')
    (alike : ∀ ip, target_ip = some ip → (fs'.saysDirectory ip ↔ fs.saysDirectory ip)) (flags : Nat) :
    Twin (renameTarget from_ip from_dp from_name target_ip target flags) (renameTarget from_ip from_dp from_name target_ip target flags) fs fs'
      fun _ => Paired (renameRefs (some (from_ip, from_dp, from_name, target_ip, target))) (insert from_dp (insert from_ip ∅)) := by
  have inside_dp := Set.mem_insert from_dp (insert from_ip ∅)
  have inside_ip : from_ip ∈ insert from_dp (insert from_ip ∅) := Set.mem_insert_of_mem from_dp (Set.mem_insert from_ip ∅)
  have own_parent : ∀ dp name, target = some (dp, name) → dp ∈ renameRefs (some (from_ip, from_dp, from_name, target_ip, target)) := by
    rintro dp name rfl
    have own : dp ∈ (dp ::ₘ from_ip ::ₘ from_dp ::ₘ 0 : Multiset Nat) := Multiset.mem_cons_self _ _
    exact mem_withRef own
  unfold renameTarget
  apply Alike.read
  rw [paired.entry inside_ip]
  cases target_ip with
  | none =>
    cases target with
    | none => exact .stop paired.same
    | some parent =>
      obtain ⟨dp, name⟩ := parent
      refine .bind (ilock_twin paired (own_parent dp name rfl)) fun _ _ _ paired => ?_
      refine .bind (dirlink_careful (Set.mem_insert dp _) _ _ _ _ paired) fun _ _ _ paired => ?_
      refine .bind ((loaded_outside (Set.mem_insert dp _)).iunlock _ _ paired) fun _ _ _ paired => ?_
      exact .pure (paired.forget (Set.subset_insert dp _))
  | some ip =>
    have own : ip ∈ renameRefs (some (from_ip, from_dp, from_name, some ip, target)) := Multiset.mem_cons_self _ _
    have inum := paired.inum own
    dsimp only
    rw [inum]
    refine .ite (alike ip rfl) (fun _ => ?_) fun _ => .ite Iff.rfl (fun _ => ?_) fun _ =>
      .ite Iff.rfl (fun _ => .pure paired) fun _ => .pure paired
    · refine .bind (ilock_twin paired own) fun _ _ _ paired => ?_
      refine .bind (dirlink_careful (Set.mem_insert ip _) _ _ _ _ paired) fun _ _ _ paired => ?_
      refine .bind ((loaded_outside (Set.mem_insert ip _)).iunlock _ _ paired) fun _ _ _ paired => ?_
      exact .pure (paired.forget (Set.subset_insert ip _))
    · cases target with
      | none => exact .stop paired.same
      | some parent =>
        obtain ⟨dp, name⟩ := parent
        refine .bind (ilock_twin paired (own_parent dp name rfl)) fun _ _ _ paired => .bind (ilock_twin paired own) fun _ _ _ paired => ?_
        have inside := Set.mem_insert ip (insert dp (insert from_dp (insert from_ip ∅)))
        have inside_target := Set.mem_insert_of_mem ip (Set.mem_insert dp (insert from_dp (insert from_ip ∅)))
        have inside_from := Set.mem_insert_of_mem ip (Set.mem_insert_of_mem dp inside_dp)
        refine .bind (dropDirent_careful inside_target _ _ _ paired) fun _ _ _ paired => ?_
        refine .bind (dirlink_careful inside_target _ _ _ _ paired) fun _ _ _ paired => ?_
        refine .bind (dirlink_careful inside_from _ _ _ _ paired) fun _ _ _ paired => ?_
        refine .bind ((loaded_outside inside).iunlock _ _ paired) fun _ _ _ paired => .bind ((loaded_outside inside_target).iunlock _ _ paired) fun _ _ _ paired => ?_
        exact .pure (paired.forget (subset_trans (Set.subset_insert dp _) (Set.subset_insert ip _)))

/-- `myfuse_truncate` after the walk. -/
def truncateFound (size : Nat) : Option Nat → M Int
  | none => do
    endOp
    pure (-ENOENT)
  | some ip => do
    let fs ← get
    if (fs.inode ip).copy.type = T_DIR_INODE_MYFUSE then do
      endOp
      pure (-EISDIR)
    else do
      ilock ip
      itrunc2size ip size
      iunlockput ip
      endOp
      pure 0

theorem myfuseTruncate_eq (path : List Byte) (size : Nat) : myfuseTruncate path size = walkPath path >>= truncateFound size := by
  rw [walkPath, bind_assoc]
  refine congrArg (fun rest => beginOp >>= rest) (funext fun _ => congrArg (fun rest => path2inode path >>= rest) (funext fun found => ?_))
  cases found with
  | none => rfl
  | some ip => rfl

/-- `myfuse_rename` from its test of the target's type on. -/
def renameFinish (flags : Nat) : Option (Nat × Nat × Name × Option Nat × Option (Nat × Name)) → M Int
  | none => pure (-ENOENT)
  | some (from_ip, from_dp, from_name, target_ip, target) => do
    let res ← renameTarget from_ip from_dp from_name target_ip target flags
    iputSome target_ip
    iputSome (target.map Prod.fst)
    iput from_ip
    iput from_dp
    endOp
    pure res

theorem myfuseRename_eq (source target : List Byte) (flags : Nat) :
    myfuseRename source target flags = renameUnlink source target >>= renameFinish flags := by
  rw [renameUnlink]
  simp only [bind_assoc]
  refine congrArg _ (funext fun _ => congrArg _ (funext fun target_ip => congrArg _ (funext fun target_dp =>
    congrArg _ (funext fun from_ip => congrArg _ (funext fun from_dp => ?_)))))
  cases from_ip with
  | none => rfl
  | some from_ip =>
    cases from_dp with
    | none => rfl
    | some parent =>
      dsimp only
      split
      · rfl
      · simp only [bind_assoc]
        rfl

theorem truncateFound_twin {found : Option Nat} (paired : Paired (withRef found 0) ∅ fs fs')
    (alike : ∀ ip, found = some ip → (fs'.saysDirectory ip ↔ fs.saysDirectory ip)) (size : Nat) :
    Twin (truncateFound size found) (truncateFound size found) fs fs' fun _ => SameUse := by
  cases found with
  | none => exact .bind (paired.blind endOp_tables) fun _ _ _ paired => .pure paired.same
  | some ip =>
    apply Alike.read
    refine .ite (alike ip rfl) (fun _ => .bind (paired.blind endOp_tables) fun _ _ _ paired => .pure paired.same) fun _ => ?_
    refine .bind (ilock_twin paired (Multiset.mem_cons_self ip 0)) fun _ _ _ paired => ?_
    refine .bind ((loaded_outside (Set.mem_insert ip ∅)).itrunc2size size _ _ paired) fun _ now now' paired => ?_
    have single : Paired (ip ::ₘ 0) (insert ip ∅) now now' := paired
    refine .bind (iunlockput_twin single fun _ inside => absurd inside (Set.notMem_empty _)) fun _ _ _ paired => ?_
    exact .bind (paired.blind endOp_tables) fun _ _ _ paired => .pure paired.same

theorem renameFinish_twin {found : Option (Nat × Nat × Name × Option Nat × Option (Nat × Name))}
    (paired : Paired (renameRefs found) (renameLoaded found) fs fs')
    (alike : ∀ from_ip from_dp from_name ip target, found = some (from_ip, from_dp, from_name, some ip, target) →
      (fs'.saysDirectory ip ↔ fs.saysDirectory ip)) (flags : Nat) :
    Twin (renameFinish flags found) (renameFinish flags found) fs fs' fun _ => SameUse := by
  cases found with
  | none => exact .pure paired.same
  | some place =>
    obtain ⟨from_ip, from_dp, from_name, target_ip, target⟩ := place
    have none_loaded : ∀ {held : Multiset Nat}, ∀ other ∈ (∅ : Set Nat), other ∈ held := fun _ inside => absurd inside (Set.notMem_empty _)
    refine .bind (renameTarget_twin paired (fun ip same => ?_) flags) fun res _ _ paired => ?_
    · subst same
      exact alike from_ip from_dp from_name ip target rfl
    refine .bind (iputSome_twin (paired.forget (Set.empty_subset _)) none_loaded) fun _ _ _ paired => ?_
    refine .bind (iputSome_twin paired none_loaded) fun _ _ _ paired => ?_
    refine .bind (iput_twin paired none_loaded) fun _ _ _ paired => .bind (iput_twin paired none_loaded) fun _ _ _ paired => ?_
    exact .bind (paired.blind endOp_tables) fun _ _ _ paired => .pure paired.same

/-- The states differ only in what entries out of use were left with. -/
structure DifferInStale (fs fs' : FS) : Prop where
  rest : fs' = { fs with inode := fs'.inode }
  ref : ∀ ip, (fs'.inode ip).ref = (fs.inode ip).ref
  locked : ∀ ip, (fs'.inode ip).locked = (fs.inode ip).locked
  used : ∀ ip, (fs.inode ip).ref ≠ 0 → fs'.inode ip = fs.inode ip

/-- The same result, and the same contents, of the blocks as they are served and of the disk. -/
def SameOutcome (program : M α) (fs fs' : FS) : Prop :=
  (program fs').1 = (program fs).1 ∧ (program fs').2.store = (program fs).2.store ∧ (program fs').2.device = (program fs).2.device

/-- The path resolves to an inode that is a directory on disk. -/
def ResolvesToDirectory (fs : FS) (path : List Byte) : Prop :=
  ∃ ip after, walkPath path fs = (.ok (some ip), after) ∧ (after.dinode (after.inode ip).inum).type = T_DIR_INODE_MYFUSE

/-- The path resolves to an inode whose table entry, read or not, says directory. -/
def SeesDirectory (fs : FS) (path : List Byte) : Prop :=
  ∃ ip after, walkPath path fs = (.ok (some ip), after) ∧ after.saysDirectory ip

/-- The same of an existing target, when `myfuse_rename` tests it. -/
def SeesTargetDirectory (fs : FS) (source target : List Byte) : Prop :=
  ∃ from_ip from_dp from_name ip parent after,
    renameUnlink source target fs = (.ok (some (from_ip, from_dp, from_name, some ip, parent)), after) ∧ after.saysDirectory ip

/-- `-EISDIR` is returned exactly for directories. -/
def EisdirExact (fs : FS) (path : List Byte) (size : Nat) : Prop :=
  (∃ after, myfuseTruncate path size fs = (.ok (-EISDIR), after)) ↔ ResolvesToDirectory fs path

theorem DifferInStale.same (differ : DifferInStale fs fs') : SameUse fs fs' := by
  refine ⟨differ.rest, fun ip => ⟨differ.ref ip, differ.locked ip, fun used => ?_, fun used => ?_, fun used _ => ?_⟩⟩
  · rw [differ.used ip used]
  · rw [differ.used ip used]
  · rw [differ.used ip used]

theorem Alike.sameOutcome {program : M α} (alike : Twin program program fs fs' fun _ => SameUse) : SameOutcome program fs fs' := by
  have after := alike.after.rest
  refine ⟨alike.result, ?_, ?_⟩
  · rw [after]
  · rw [after]

theorem SameUse.refl (fs : FS) : SameUse fs fs := ⟨rfl, fun _ => ⟨rfl, rfl, fun _ => rfl, fun _ => rfl, fun _ _ => rfl⟩⟩

/-- What `myfuse_truncate` goes by. -/
theorem truncate_eisdir (initialized : 0 < fs.ninode) (path : List Byte) (size : Nat) :
    (∃ after, myfuseTruncate path size fs = (.ok (-EISDIR), after)) ↔ SeesDirectory fs path := by
  constructor
  · rintro ⟨after, returned⟩
    rw [myfuseTruncate_eq] at returned
    obtain ⟨found, middle, walked, rest⟩ := bind_returns returned
    cases found with
    | none =>
      obtain ⟨_, closed, -, last⟩ := bind_returns rest
      cases last
    | some ip =>
      refine ⟨ip, middle, walked, ?_⟩
      by_contra other
      have other : ¬ (middle.inode ip).copy.type = T_DIR_INODE_MYFUSE := other
      rw [truncateFound, bind_ok get_apply, if_neg other] at rest
      obtain ⟨_, _, -, rest⟩ := bind_returns rest
      obtain ⟨_, _, -, rest⟩ := bind_returns rest
      obtain ⟨_, _, -, rest⟩ := bind_returns rest
      obtain ⟨_, _, -, rest⟩ := bind_returns rest
      cases rest
  · rintro ⟨ip, middle, walked, directory⟩
    obtain ⟨_, -, paired⟩ := (walkPath_twin (SameUse.refl fs) initialized path).returned walked
    have calm := paired.calm
    cases ended : endOp middle with
    | mk result after =>
      cases result with
      | error reason => exact ((endOp_spec calm).stopped ended).elim
      | ok _ =>
        refine ⟨after, ?_⟩
        rw [myfuseTruncate_eq, bind_ok walked, truncateFound, bind_ok get_apply, if_pos (show (middle.inode ip).copy.type = T_DIR_INODE_MYFUSE from directory), bind_ok ended]
        rfl

theorem SameUse.symm (same : SameUse fs fs') : SameUse fs' fs := by
  refine ⟨?_, fun ip => ?_⟩
  · rw [same.rest]
  · obtain ⟨ref, locked, inum, valid, copy⟩ := same.entry ip
    have back : (fs'.inode ip).ref ≠ 0 → (fs.inode ip).ref ≠ 0 := fun used => ref ▸ used
    refine ⟨ref.symm, locked.symm, fun used => (inum (back used)).symm, fun used => (valid (back used)).symm, fun used read => ?_⟩
    exact (copy (back used) ((valid (back used)).symm.trans read)).symm

theorem SameUse.resolves (same : SameUse fs fs') (initialized : 0 < fs.ninode) {path : List Byte} (directory : ResolvesToDirectory fs path) :
    ResolvesToDirectory fs' path := by
  obtain ⟨ip, after, walked, type⟩ := directory
  obtain ⟨after', walked', paired⟩ := (walkPath_twin same initialized path).returned walked
  have own : ip ∈ withRef (some ip) 0 := Multiset.mem_cons_self ip 0
  refine ⟨ip, after', walked', ?_⟩
  rw [paired.inum own, paired.dinode]
  exact type

theorem DifferInStale.resolves (differ : DifferInStale fs fs') (initialized : 0 < fs.ninode) (path : List Byte) :
    ResolvesToDirectory fs' path ↔ ResolvesToDirectory fs path := by
  have size : fs'.ninode = fs.ninode := by rw [differ.rest]
  exact ⟨differ.same.symm.resolves (size ▸ initialized), differ.same.resolves initialized⟩

theorem sees_iff {path : List Byte} {after : FS} (walked : walkPath path fs = (.ok (some ip), after)) :
    SeesDirectory fs path ↔ after.saysDirectory ip := by
  refine ⟨fun ⟨other, _, again, directory⟩ => ?_, fun directory => ⟨ip, after, walked, directory⟩⟩
  rw [walked] at again
  cases again
  exact directory

/-- The two tests of `myfuse_truncate` decide. -/
theorem truncate_same (same : SameUse fs fs') (initialized : 0 < fs.ninode) {path : List Byte} (alike : SeesDirectory fs' path ↔ SeesDirectory fs path)
    (size : Nat) : SameOutcome (myfuseTruncate path size) fs fs' := by
  apply Alike.sameOutcome
  rw [myfuseTruncate_eq]
  refine .bind (walkPath_twin same initialized path).ran fun found after after' reached => ?_
  obtain ⟨paired, walked, walked'⟩ := reached
  refine truncateFound_twin paired (fun ip here => ?_) size
  subst here
  rw [← sees_iff walked, ← sees_iff walked']
  exact alike

theorem seesTarget_iff {source target : List Byte} {from_ip from_dp ip : Nat} {from_name : Name} {parent : Option (Nat × Name)} {after : FS}
    (walked : renameUnlink source target fs = (.ok (some (from_ip, from_dp, from_name, some ip, parent)), after)) :
    SeesTargetDirectory fs source target ↔ after.saysDirectory ip := by
  refine ⟨fun ⟨_, _, _, other, _, _, again, directory⟩ => ?_, fun directory => ⟨_, _, _, ip, _, after, walked, directory⟩⟩
  rw [walked] at again
  cases again
  exact directory

theorem rename_same (same : SameUse fs fs') (initialized : 0 < fs.ninode) {source target : List Byte}
    (alike : SeesTargetDirectory fs' source target ↔ SeesTargetDirectory fs source target) (flags : Nat) :
    SameOutcome (myfuseRename source target flags) fs fs' := by
  apply Alike.sameOutcome
  rw [myfuseRename_eq]
  refine .bind (renameUnlink_twin same initialized source target).ran fun found after after' reached => ?_
  obtain ⟨paired, walked, walked'⟩ := reached
  refine renameFinish_twin paired (fun from_ip from_dp from_name ip parent here => ?_) flags
  subst here
  rw [← seesTarget_iff walked, ← seesTarget_iff walked']
  exact alike

/-- With `RENAME_NOREPLACE` the value tells what the test saw. -/
theorem renameFinish_value {from_ip from_dp ip : Nat} {from_name : Name} {parent : Option (Nat × Name)} {value : Int} {after : FS}
    (returned : renameFinish RENAME_NOREPLACE (some (from_ip, from_dp, from_name, some ip, parent)) fs = (.ok value, after)) :
    value = 0 ↔ fs.saysDirectory ip := by
  obtain ⟨res, middle, targeted, rest⟩ := bind_returns returned
  obtain ⟨_, _, -, rest⟩ := bind_returns rest
  obtain ⟨_, _, -, rest⟩ := bind_returns rest
  obtain ⟨_, _, -, rest⟩ := bind_returns rest
  obtain ⟨_, _, -, rest⟩ := bind_returns rest
  obtain ⟨_, _, -, rest⟩ := bind_returns rest
  cases rest
  rw [renameTarget, bind_ok get_apply] at targeted
  dsimp only at targeted
  by_cases directory : (fs.inode ip).copy.type = T_DIR_INODE_MYFUSE
  · rw [if_pos directory] at targeted
    obtain ⟨_, _, -, rest⟩ := bind_returns targeted
    obtain ⟨_, _, -, rest⟩ := bind_returns rest
    obtain ⟨_, _, -, rest⟩ := bind_returns rest
    cases rest
    exact ⟨fun _ => directory, fun _ => rfl⟩
  · rw [if_neg directory, if_neg (by decide), if_pos (by decide)] at targeted
    cases targeted
    exact ⟨fun zero => absurd zero (by decide), fun other => absurd other directory⟩

/-- `myfuse_truncate` is right just when its unlocked test sees what the disk holds. `myfuse_rename`
ends the same when its test sees the same; otherwise no value is returned from both states. -/
theorem recycled_entries_iff (differ : DifferInStale fs fs') (initialized : 0 < fs.ninode) :
    (∀ path size, SameOutcome (myfuseTruncate path size) fs fs' ∧ EisdirExact fs path size ∧ EisdirExact fs' path size ↔
      (SeesDirectory fs path ↔ ResolvesToDirectory fs path) ∧ (SeesDirectory fs' path ↔ ResolvesToDirectory fs' path)) ∧
    ∀ source target,
      ((SeesTargetDirectory fs' source target ↔ SeesTargetDirectory fs source target) →
        ∀ flags, SameOutcome (myfuseRename source target flags) fs fs') ∧
      (¬ (SeesTargetDirectory fs' source target ↔ SeesTargetDirectory fs source target) → ∀ value after after',
        ¬ (myfuseRename source target RENAME_NOREPLACE fs = (.ok value, after) ∧
          myfuseRename source target RENAME_NOREPLACE fs' = (.ok value, after'))) := by
  have size : fs'.ninode = fs.ninode := by rw [differ.rest]
  have initialized' : 0 < fs'.ninode := size ▸ initialized
  refine ⟨fun path size => ?_, fun source target => ⟨fun alike flags => rename_same differ.same initialized alike flags, ?_⟩⟩
  · rw [EisdirExact, EisdirExact, truncate_eisdir initialized, truncate_eisdir initialized']
    constructor
    · exact fun holds => holds.2
    · intro exact_
      refine ⟨truncate_same differ.same initialized ?_ size, exact_⟩
      rw [exact_.1, exact_.2]
      exact differ.resolves initialized path
  · intro apart value after after' returned
    obtain ⟨returned, returned'⟩ := returned
    rw [myfuseRename_eq] at returned returned'
    obtain ⟨found, middle, walked, rest⟩ := bind_returns returned
    obtain ⟨found', middle', walked', rest'⟩ := bind_returns returned'
    obtain ⟨_, again, -⟩ := (renameUnlink_twin differ.same initialized source target).returned walked
    rw [walked'] at again
    cases again
    by_cases existing : ∃ from_ip from_dp from_name ip parent, found = some (from_ip, from_dp, from_name, some ip, parent)
    · obtain ⟨from_ip, from_dp, from_name, ip, parent, rfl⟩ := existing
      apply apart
      rw [seesTarget_iff walked, seesTarget_iff walked', ← renameFinish_value rest, ← renameFinish_value rest']
    · have unseen : ∀ {start final : FS}, renameUnlink source target start = (.ok found, final) → ¬ SeesTargetDirectory start source target := by
        rintro start final walked ⟨from_ip, from_dp, from_name, ip, parent, after, again, -⟩
        rw [walked] at again
        cases again
        exact existing ⟨_, _, _, _, _, rfl⟩
      exact apart (iff_of_false (unseen walked') (unseen walked))

/-- The copy in an entry that is not in use. -/
theorem differInStale_of_free (free : (fs.inode ip).ref = 0) (copy : Dinode) :
    DifferInStale fs { fs with inode := assign fs.inode ip { fs.inode ip with copy } } := by
  refine ⟨rfl, fun other => ?_, fun other => ?_, fun other used => assign_of_ne (fun here : other = ip => used (here ▸ free)) _ _⟩
  · show (assign fs.inode ip _ other).ref = _
    rw [assign_apply]
    split
    next here => rw [here]
    next => rfl
  · show (assign fs.inode ip _ other).locked = _
    rw [assign_apply]
    split
    next here => rw [here]
    next => rfl

/-- `/a` is created and closed again. -/
def createdAndClosed : M Int := do
  let (res, fi) ← myfuseCreate [47, 97] S_IFREG ⟨0, none⟩
  let _ ← myfuseRelease (some fi)
  pure res

/-- The file system with the file `/a` alone; the table entry that the file had is out of use. -/
def oneFile : FS :=
  (createdAndClosed (fresh (initSuperBlock 2000) (smallImage (initSuperBlock 2000) ROOTINO) fun _ => Inode.zero)).2

/-- The same, had that entry last been used for a directory. -/
def oneFileStale : FS :=
  { oneFile with inode := assign oneFile.inode 1 { oneFile.inode 1 with copy := { (oneFile.inode 1).copy with type := T_DIR_INODE_MYFUSE } } }

theorem oneFile_stale : DifferInStale oneFile oneFileStale :=
  differInStale_of_free (by decide +kernel : (oneFile.inode 1).ref = 0) _

theorem oneFile_truncate : ¬ SameOutcome (myfuseTruncate [47, 97] 0) oneFile oneFileStale := by
  intro same
  have done : valueOf (myfuseTruncate [47, 97] 0) oneFile = some 0 := by decide +kernel
  have refused : valueOf (myfuseTruncate [47, 97] 0) oneFileStale = some (-EISDIR) := by decide +kernel
  have result := same.1
  rw [returns_of_valueOf done, returns_of_valueOf refused] at result
  cases result

/-- In these two states one of the tests is wrong. -/
theorem recycled_entries_oneFile :
    ¬ ((SeesDirectory oneFile [47, 97] ↔ ResolvesToDirectory oneFile [47, 97]) ∧
      (SeesDirectory oneFileStale [47, 97] ↔ ResolvesToDirectory oneFileStale [47, 97])) := by
  have initialized : 0 < oneFile.ninode := by decide +kernel
  intro right
  exact oneFile_truncate (((recycled_entries_iff oneFile_stale initialized).1 [47, 97] 0).mpr right).1

theorem truncate_depends_on_stale_type : ¬ ∀ fs fs' : FS, DifferInStale fs fs' → 0 < fs.ninode →
    (∀ path size, SameOutcome (myfuseTruncate path size) fs fs' ∧ EisdirExact fs path size ∧ EisdirExact fs' path size) ∧
      ∀ source target flags, SameOutcome (myfuseRename source target flags) fs fs' := by
  intro claimed
  have initialized : 0 < oneFile.ninode := by decide +kernel
  exact oneFile_truncate ((claimed oneFile oneFileStale oneFile_stale initialized).1 [47, 97] 0).1

end FS
end Myfuse
