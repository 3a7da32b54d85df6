import Myfuse.Proofs.Balance

/-! What the directory functions and the calls of `file.c` leave on the books. -/

namespace Myfuse
open Library Library.Exec

/-- A reference for a pointer that may be null. -/
def Account.holdPtr (account : Account) : Option Nat → Account
  | none => account
  | some ip => account.hold ip

namespace Account
variable {account : Account}

@[simp] theorem holdPtr_ops (found : Option Nat) : (account.holdPtr found).ops = account.ops := by cases found <;> rfl

@[simp] theorem holdPtr_locks (found : Option Nat) : (account.holdPtr found).locks = account.locks := by cases found <;> rfl

@[simp] theorem holdPtr_files (found : Option Nat) : (account.holdPtr found).files = account.files := by cases found <;> rfl

theorem holdPtr_refs (found : Option Nat) (other : Nat) :
    (account.holdPtr found).refs other = account.refs other + if found = some other then 1 else 0 := by
  cases found with
  | none => exact (Int.add_zero _).symm
  | some ip =>
    show account.refs other + (if other = ip then 1 else 0) = _
    simp only [Option.some.injEq, eq_comm]

theorem holdPtr_known {larger : Account} (known : account.known ⊆ larger.known) (found : Option Nat) :
    (account.holdPtr found).known ⊆ (larger.holdPtr found).known := by
  cases found with
  | none => exact known
  | some ip => exact Set.insert_subset_insert known

theorem lock_locks (account : Account) (ip : Nat) : (account.lock ip).locks ip = true := assign_self _ _ _

end Account

namespace FS
variable {α β : Type} {fs : FS} {account : Account} {ip dp : Nat}

theorem Books.hold_drop (books : Books ((account.hold ip).drop ip) fs) : Books account fs := by
  refine books.same rfl (fun other => ?_) (fun _ => rfl) rfl (Set.subset_insert ip _)
  rw [Account.drop_refs, Account.hold_refs, Int.add_sub_cancel]

/-- Locked or not, the directory may be left locked. -/
theorem dirlookup_either (books : Books account fs) (name : Name) : Ensures (dirlookup dp name) fs
    (fun found after => Books (account.holdPtr (found.map Prod.fst)) after ∨ Books ((account.lock dp).holdPtr (found.map Prod.fst)) after)
    fun _ _ => True := by
  refine ensures_bind.mpr (ensures_get.mpr (Ensures.bind (inodeReadNbytesLocked_loose _ _ account fs books) fun data _ either => ?_))
  refine ensures_ite.mpr ⟨fun _ => (ensures_stop _).mpr trivial, fun _ => ?_⟩
  split
  · exact (ensures_stop _).mpr trivial
  · exact (ensures_pure _).mpr either
  · cases either with
    | inl same => exact Ensures.bind (iget_leaves same _) fun _ _ books => (ensures_pure _).mpr (.inl books)
    | inr locked => exact Ensures.bind (iget_leaves locked _) fun _ _ books => (ensures_pure _).mpr (.inr books)

theorem dirlookup_leaves (books : Books account fs) (locked : account.locks dp = true) (name : Name) :
    Leaves (dirlookup dp name) fs fun found => account.holdPtr (found.map Prod.fst) := by
  refine (dirlookup_either books name).weaken fun _ _ either => ?_
  rw [Account.lock_locked locked] at either
  exact either.elim id id

theorem dirlinkOffset_loose : Loose dp (dirlinkOffset dp) := by
  refine .get fun _ => ?_
  dsimp only
  refine .ite (.bind (inodeReadNbytesLocked_loose _ _) fun data => .ite (Neutral.stop _).loose ?_) (Neutral.pure _).loose
  split
  · exact (Neutral.stop _).loose
  · exact .ite (Neutral.stop _).loose (Neutral.pure _).loose

theorem dirlink_loose (name : Name) (inum : Nat) : Loose dp (dirlink dp name inum) := by
  have dropped : ∀ {other : Account} {current : FS} {found : Nat}, Books (other.hold found) current →
      Ensures (do iput found; pure (-1 : Int)) current (fun _ after => Books other after) fun _ _ => True := by
    intro other current found books
    exact Ensures.bind (iput_leaves books (Set.mem_insert found _)) fun _ _ books => (ensures_pure _).mpr books.hold_drop
  have linked : Loose dp (do
      let off ← dirlinkOffset dp
      let count ← inodeWriteNbytesLocked dp (direntBytes inum name) off
      if count ≠ direntSize then stop (.errExit .dirlinkWrite) else pure (0 : Int)) :=
    .bind dirlinkOffset_loose fun _ => .bind (inodeWriteNbytesLocked_loose _ _) fun _ => .ite (Neutral.stop _).loose (Neutral.pure _).loose
  intro account fs books
  refine Ensures.bind (dirlookup_either books name) fun found _ either => ?_
  cases found with
  | some place =>
    cases either with
    | inl same => exact (dropped same).weaken fun _ _ => .inl
    | inr locked => exact (dropped locked).weaken fun _ _ => .inr
  | none =>
    cases either with
    | inl same => exact linked account _ same
    | inr locked =>
      have linked := linked (account.lock dp) _ locked
      rw [Account.lock_lock] at linked
      exact linked.weaken fun _ _ either => .inr (either.elim id id)

/-- One reference is used up, and one given out to what is found. -/
theorem namexFrom_leaves (nameiparent : Bool) : ∀ (names : List Name) {account : Account} {ip : Nat} {fs : FS}, Books account fs → ip ∈ account.known →
    Leaves (namexFrom nameiparent names ip) fs fun found => (account.drop ip).holdPtr (found.map Prod.fst)
  | [], account, ip, fs, books, existing => by
    unfold namexFrom
    refine ensures_ite.mpr ⟨fun _ => Ensures.bind (iput_leaves books existing) fun _ _ books => (ensures_pure _).mpr books, fun _ => ?_⟩
    refine (ensures_pure _).mpr (books.same rfl (fun other => ?_) (fun _ => rfl) rfl ?_)
    · show (account.drop ip).refs other + (if other = ip then 1 else 0) = _
      rw [Account.drop_refs, Int.sub_add_cancel]
    · exact Set.insert_subset existing (subset_refl _)
  | name :: rest, account, ip, fs, books, existing => by
    unfold namexFrom
    refine Ensures.bind (ilock_leaves books ip) fun _ _ locked => ensures_bind.mpr (ensures_get.mpr ?_)
    obtain ⟨books, free⟩ := locked
    have unlocked : (account.lock ip).unlock ip = account := Account.lock_unlock free
    refine ensures_ite.mpr ⟨fun _ => ?_, fun _ => ensures_ite.mpr ⟨fun _ => ?_, fun _ => ?_⟩⟩
    · refine Ensures.bind (iunlockput_leaves books existing) fun _ _ books => (ensures_pure _).mpr ?_
      rw [unlocked] at books
      exact books
    · refine Ensures.bind (iunlock_leaves books ip) fun _ _ books => (ensures_pure _).mpr ?_
      rw [unlocked] at books
      refine books.same rfl (fun other => ?_) (fun _ => rfl) rfl (Set.insert_subset existing (subset_refl _))
      show (account.drop ip).refs other + (if other = ip then 1 else 0) = _
      rw [Account.drop_refs, Int.sub_add_cancel]
    · refine Ensures.bind (dirlookup_leaves books (Account.lock_locks _ _) name) fun found _ books => ?_
      cases found with
      | none =>
        refine Ensures.bind (iunlockput_leaves books existing) fun _ _ books => (ensures_pure _).mpr ?_
        have books : Books (((account.lock ip).unlock ip).drop ip) _ := books
        rw [unlocked] at books
        exact books
      | some place =>
        refine Ensures.bind (iunlockput_leaves books (Set.mem_insert_of_mem _ existing)) fun _ _ books => ?_
        have books : Books ((((account.lock ip).unlock ip).hold place.1).drop ip) _ := books
        rw [unlocked] at books
        refine (namexFrom_leaves nameiparent rest books (Set.mem_insert place.1 _)).weaken fun found _ books => ?_
        refine books.same ?_ (fun other => ?_) (fun _ => ?_) ?_ (Account.holdPtr_known ?_ _)
        · rw [Account.holdPtr_ops, Account.holdPtr_ops]
          rfl
        · rw [Account.holdPtr_refs, Account.holdPtr_refs, Account.drop_refs, Account.drop_refs, Account.drop_refs, Account.hold_refs]
          omega
        · rw [Account.holdPtr_locks, Account.holdPtr_locks]
          rfl
        · rw [Account.holdPtr_files, Account.holdPtr_files]
          rfl
        · exact Set.subset_insert _ _

theorem namex_leaves (books : Books account fs) (path : List Byte) (nameiparent : Bool) :
    Leaves (namex path nameiparent) fs fun found => account.holdPtr (found.map Prod.fst) := by
  refine ensures_ite.mpr ⟨fun _ => ?_, fun _ => (ensures_stop _).mpr trivial⟩
  refine Ensures.bind (iget_leaves books _) fun root _ books => ?_
  refine (namexFrom_leaves nameiparent _ books (Set.mem_insert root _)).weaken fun found _ books => ?_
  refine books.same ?_ (fun other => ?_) (fun _ => ?_) ?_ (Account.holdPtr_known (Set.subset_insert _ _) _)
  · rw [Account.holdPtr_ops, Account.holdPtr_ops]
    rfl
  · rw [Account.holdPtr_refs, Account.holdPtr_refs, Account.drop_refs, Account.hold_refs, Int.add_sub_cancel]
  · rw [Account.holdPtr_locks, Account.holdPtr_locks]
    rfl
  · rw [Account.holdPtr_files, Account.holdPtr_files]
    rfl

theorem path2inode_leaves (books : Books account fs) (path : List Byte) : Leaves (path2inode path) fs fun found => account.holdPtr found :=
  Ensures.bind (namex_leaves books path false) fun _ _ books => (ensures_pure _).mpr books

theorem path2parentinode_leaves (books : Books account fs) (path : List Byte) :
    Leaves (path2parentinode path) fs fun found => account.holdPtr (found.map Prod.fst) := namex_leaves books path true

theorem iallocFrom_leaves (type : BitVec 16) : ∀ count inum {fs : FS}, Books account fs →
    Leaves (iallocFrom type count inum) fs fun ip => account.hold ip
  | 0, _, _, _ => (ensures_stop _).mpr trivial
  | count + 1, inum, _, books => by
    refine ensures_bind.mpr (ensures_get.mpr (Ensures.bind ((loggedRead_neutral _).leaves books) fun _ _ books => ?_))
    refine ensures_ite.mpr ⟨fun _ => ?_, fun _ => iallocFrom_leaves type count (inum + 1) books⟩
    exact Ensures.bind ((loggedUpdate_neutral _ _).leaves books) fun _ _ books => iget_leaves books inum

theorem ialloc_leaves (books : Books account fs) (type : BitVec 16) : Leaves (ialloc type) fs fun ip => account.hold ip :=
  ensures_bind.mpr (ensures_get.mpr (iallocFrom_leaves type _ _ books))

/-! What a call does between its `begin_op` and its `end_op`. -/

theorem endOp_closes (books : Books account.opened fs) : Ensures endOp fs (fun _ after => Books account after ∧ AllCommitted after) fun _ _ => True := by
  refine (endOp_leaves books).weaken fun _ _ closed => ?_
  rw [Account.opened_ended] at closed
  exact closed

theorem iput_back (books : Books (account.hold ip) fs) : Leaves (iput ip) fs fun _ => account :=
  (iput_leaves books (Set.mem_insert ip _)).weaken fun _ _ books => books.hold_drop

theorem iunlock_back (books : Books (account.lock ip) fs) (free : account.locks ip = false) : Leaves (iunlock ip) fs fun _ => account := by
  refine (iunlock_leaves books ip).weaken fun _ _ books => ?_
  rw [Account.lock_unlock free] at books
  exact books

theorem iunlockput_back (books : Books ((account.hold ip).lock ip) fs) (free : account.locks ip = false) :
    Leaves (iunlockput ip) fs fun _ => account :=
  Ensures.bind (iunlock_back books free) fun _ _ books => iput_back books

/-! Handles. -/

theorem modifyFile_leaves (books : Books account fs) {f : Nat} {change : File → File} {files : Nat → Option Nat}
    (pointer : (change (fs.files f)).ip = files f) (others : ∀ other, other ≠ f → files other = account.files other)
    (inside : ∀ ip, files f = some ip → ip < fs.ninode) : Leaves (modifyFile f change) fs fun _ => { account with files } := by
  refine (ensures_modify _).mpr ⟨books.ops, books.ref, books.locked, fun other => ?_, books.initialized, books.past, books.known, fun other ip file => ?_⟩
  · show (assign fs.files f (change (fs.files f)) other).ip = files other
    rw [assign_apply]
    split
    next here => rw [here, pointer]
    next apart => rw [others other apart, books.files]
  · by_cases here : other = f
    · exact inside ip (here ▸ file)
    · exact books.pointers other ip ((others other here).symm.trans file)

/-- The pointer stays. -/
theorem modifyFile_neutral {f : Nat} {change : File → File} (pointer : ∀ file, (change file).ip = file.ip) : Neutral (modifyFile f change) :=
  fun _ _ books => modifyFile_leaves books ((pointer _).trans (books.files f)) (fun _ _ => rfl) (books.pointers f)

theorem ftableGrow_leaves (books : Books account fs) :
    Leaves ftableGrow fs fun _ => { account with files := fun f => if fs.nfile ≤ f ∧ f < fs.nfile * 2 then none else account.files f } := by
  refine (ensures_modify _).mpr ⟨books.ops, books.ref, books.locked, fun f => ?_, books.initialized, books.past, books.known, fun f ip file => ?_⟩
  · dsimp only
    split
    · rfl
    · exact books.files f
  · dsimp only at file
    split at file
    · cases file
    · exact books.pointers f ip file

theorem filealloc_leaves (books : Books account fs) :
    Ensures filealloc fs (fun _ after => ∃ files, Books { account with files } after) fun _ _ => True := by
  have taken (f : Nat) : Neutral (do modifyFile f fun file => { file with ref := 1 }; pure f) :=
    .bind (modifyFile_neutral fun _ => rfl) fun _ => .pure f
  refine ensures_bind.mpr (ensures_get.mpr ?_)
  split
  next f _ => exact ((taken f).leaves books).weaken fun _ _ books => ⟨account.files, books⟩
  next => exact Ensures.bind (ftableGrow_leaves books) fun _ _ books => ((taken fs.nfile).leaves books).weaken fun _ _ books => ⟨_, books⟩

/-- The file table may have grown; the handle points to the inode. -/
def Handed (account : Account) (ip file : Nat) (after : FS) : Prop :=
  ∃ files, files file = some ip ∧ Books { account.hold ip with files } after

theorem point_leaves (books : Books account fs) (existing : ip ∈ account.known) (file : Nat) :
    Ensures (modifyFile file fun f => { f with isInode := true, ip := some ip }) fs
      (fun _ after => ∃ files, files file = some ip ∧ Books { account with files } after) fun _ _ => True := by
  have pointed : Leaves (modifyFile file fun f => { f with isInode := true, ip := some ip }) fs fun _ =>
      { account with files := assign account.files file (some ip) } := by
    refine modifyFile_leaves books (assign_self _ _ _).symm (fun _ apart => assign_of_ne apart _ _) fun other same => ?_
    rw [assign_self] at same
    cases same
    exact books.known ip existing
  exact pointed.weaken fun _ _ books => ⟨_, assign_self _ _ _, books⟩

theorem setAccess_neutral (file flags : Nat) : Neutral (setAccess file flags) :=
  .ite (modifyFile_neutral fun _ => rfl) (.ite (modifyFile_neutral fun _ => rfl) (.ite (modifyFile_neutral fun _ => rfl) (modifyFile_neutral fun _ => rfl)))

theorem openHandle_leaves (books : Books ((account.opened.hold ip).lock ip) fs) (free : account.locks ip = false) (flags : Nat) :
    Ensures (openHandle ip flags) fs (fun file after => Handed account ip file after ∧ AllCommitted after) fun _ _ => True := by
  refine Ensures.bind (filealloc_leaves books) fun file _ found => ?_
  obtain ⟨files, books⟩ := found
  refine Ensures.bind (point_leaves books (Set.mem_insert ip _) file) fun _ _ pointed => ?_
  obtain ⟨files, pointer, books⟩ := pointed
  have books : Books (({ account.hold ip with files } : Account).opened.lock ip) _ := books
  refine Ensures.bind ((setAccess_neutral _ _).leaves books) fun _ _ books => ?_
  refine Ensures.bind (iunlock_back books free) fun _ _ books => Ensures.bind (endOp_closes books) fun _ _ books => ?_
  exact (ensures_pure _).mpr ⟨⟨files, pointer, books.1⟩, books.2⟩

end FS
end Myfuse
