import Mathlib.Data.Multiset.Count
import Myfuse.File
import Myfuse.Proofs.EntryBlind

/-! Two runs from states that differ in what unused entries of the inode table were
left with. They go the same way as long as no entry is looked at before it is read. -/

namespace Myfuse
open Library Library.Exec

namespace FS
variable {α β : Type} {fs fs' : FS} {held : Multiset Nat} {loaded : Set Nat} {ip : Nat}

/-- Equal in what a referenced entry has and in what a valid one holds. -/
structure SameEntry (inode inode' : Inode) : Prop where
  ref : inode'.ref = inode.ref
  locked : inode'.locked = inode.locked
  inum : inode.ref ≠ 0 → inode'.inum = inode.inum
  valid : inode.ref ≠ 0 → inode'.valid = inode.valid
  copy : inode.ref ≠ 0 → inode.valid = true → inode'.copy = inode.copy

structure SameUse (fs fs' : FS) : Prop where
  rest : fs' = { fs with inode := fs'.inode }
  entry : ∀ ip, SameEntry (fs.inode ip) (fs'.inode ip)

/-- During a call: the references in `held` are the call's own, and the entries in
`loaded`, all among them, have been read. -/
structure Paired (held : Multiset Nat) (loaded : Set Nat) (fs fs' : FS) : Prop where
  same : SameUse fs fs'
  calm : fs.log.committing = false
  initialized : 0 < fs.ninode
  placed : ∀ ip ∈ held, ip < fs.ninode
  counted : ∀ ip ∈ held, (held.count ip : Int) ≤ (fs.inode ip).ref
  valid : ∀ ip ∈ loaded, (fs.inode ip).valid = true
  supported : ∀ ip ∈ loaded, ip ∈ held

/-- Both programs end in the same way, in states of the same use. -/
abbrev Twin (program program' : M α) (fs fs' : FS) (ok : α → FS → FS → Prop) : Prop :=
  Alike program program' fs fs' ok SameUse

/-- The program looks at no entry but the loaded ones. -/
abbrev Careful (held : Multiset Nat) (loaded : Set Nat) (program : M α) : Prop := Blind (Paired held loaded) SameUse program

namespace Paired

theorem sb (paired : Paired held loaded fs fs') : fs'.sb = fs.sb := by
  rw [paired.same.rest]

theorem store (paired : Paired held loaded fs fs') : fs'.store = fs.store := by
  rw [paired.same.rest]

theorem ref_pos (paired : Paired held loaded fs fs') (own : ip ∈ held) : 0 < (fs.inode ip).ref := by
  have counted := paired.counted ip own
  have positive := Multiset.count_pos.mpr own
  omega

/-- A loaded entry is the same in both tables. -/
theorem entry (paired : Paired held loaded fs fs') (inside : ip ∈ loaded) : fs'.inode ip = fs.inode ip := by
  have used : (fs.inode ip).ref ≠ 0 := (paired.ref_pos (paired.supported ip inside)).ne'
  obtain ⟨ref, locked, inum, valid, copy⟩ := paired.same.entry ip
  calc fs'.inode ip
      = ⟨(fs'.inode ip).inum, (fs'.inode ip).ref, (fs'.inode ip).locked, (fs'.inode ip).valid, (fs'.inode ip).copy⟩ := rfl
    _ = fs.inode ip := by rw [ref, locked, inum used, valid used, copy used (paired.valid ip inside)]

theorem inum (paired : Paired held loaded fs fs') (own : ip ∈ held) : (fs'.inode ip).inum = (fs.inode ip).inum :=
  (paired.same.entry ip).inum (paired.ref_pos own).ne'

/-- What does not look at the tables runs the same, and leaves them. -/
theorem blind {program : M α} (paired : Paired held loaded fs fs') (blind : TableBlind program) :
    Twin program program fs fs' fun _ => Paired held loaded := by
  refine (blind fs fs' fs fs' ⟨rfl, rfl, paired.calm, paired.same.rest⟩).mono (fun _ after after' tables => ?_) fun after after' tables => ?_
  · obtain ⟨table, size, calm, rest⟩ := tables
    have table' : after'.inode = fs'.inode := by rw [rest]
    refine ⟨⟨by rw [table']; exact rest, fun ip => ?_⟩, calm, size ▸ paired.initialized, size ▸ paired.placed, ?_, ?_, paired.supported⟩
    · rw [table, table']
      exact paired.same.entry ip
    · rw [table]
      exact paired.counted
    · rw [table]
      exact paired.valid
  · obtain ⟨table, -, -, rest⟩ := tables
    have table' : after'.inode = fs'.inode := by rw [rest]
    refine ⟨by rw [table']; exact rest, fun ip => ?_⟩
    rw [table, table']
    exact paired.same.entry ip

/-- A change of one entry that keeps the sameness, and of the references and the validity what is needed. -/
theorem modifyInode {held' : Multiset Nat} {loaded' : Set Nat} {change : Inode → Inode} (paired : Paired held loaded fs fs')
    (same : SameEntry (change (fs.inode ip)) (change (fs'.inode ip)))
    (counted : ip ∈ held' → (held'.count ip : Int) ≤ (change (fs.inode ip)).ref)
    (others : ∀ other ∈ held', other ≠ ip → other ∈ held ∧ held'.count other ≤ held.count other)
    (placed : ∀ other ∈ held', other < fs.ninode)
    (valid : ip ∈ loaded' → (change (fs.inode ip)).valid = true) (fewer : ∀ other ∈ loaded', other ≠ ip → other ∈ loaded)
    (supported : ∀ other ∈ loaded', other ∈ held') :
    Twin (modifyInode ip change) (FS.modifyInode ip change) fs fs' fun _ => Paired held' loaded' := by
  have tables : ∀ other, SameEntry (assign fs.inode ip (change (fs.inode ip)) other) (assign fs'.inode ip (change (fs'.inode ip)) other) := by
    intro other
    by_cases here : other = ip
    · rw [here, assign_self, assign_self]
      exact same
    · rw [assign_of_ne here, assign_of_ne here]
      exact paired.same.entry other
  refine .modify ⟨⟨?_, tables⟩, paired.calm, paired.initialized, placed, fun other own => ?_, fun other inside => ?_, supported⟩
  · exact congrArg (fun current : FS => { current with inode := assign fs'.inode ip (change (fs'.inode ip)) }) paired.same.rest
  · show _ ≤ (assign fs.inode ip (change (fs.inode ip)) other).ref
    by_cases here : other = ip
    · rw [here, assign_self]
      exact counted (here ▸ own)
    · rw [assign_of_ne here]
      obtain ⟨before, fewer⟩ := others other own here
      have counted := paired.counted other before
      omega
  · show (assign fs.inode ip (change (fs.inode ip)) other).valid = true
    by_cases here : other = ip
    · rw [here, assign_self]
      exact valid (here ▸ inside)
    · rw [assign_of_ne here]
      exact paired.valid other (fewer other inside here)

/-- A change of a loaded entry that leaves its references and keeps it valid. -/
theorem modifyLoaded {change : Inode → Inode} (paired : Paired held loaded fs fs') (inside : ip ∈ loaded)
    (ref : (change (fs.inode ip)).ref = (fs.inode ip).ref) (valid : (change (fs.inode ip)).valid = (fs.inode ip).valid) :
    Twin (FS.modifyInode ip change) (FS.modifyInode ip change) fs fs' fun _ => Paired held loaded := by
  refine paired.modifyInode ?_ (fun own => ref ▸ paired.counted ip own) (fun other own _ => ⟨own, Nat.le_refl _⟩)
    paired.placed (fun _ => valid.trans (paired.valid ip inside)) (fun _ inside _ => inside) paired.supported
  rw [paired.entry inside]
  exact ⟨rfl, rfl, fun _ => rfl, fun _ => rfl, fun _ _ => rfl⟩

theorem modifyCopy {change : Dinode → Dinode} (paired : Paired held loaded fs fs') (inside : ip ∈ loaded) :
    Twin (FS.modifyCopy ip change) (FS.modifyCopy ip change) fs fs' fun _ => Paired held loaded :=
  paired.modifyLoaded inside rfl rfl

/-- Fewer entries count as loaded. -/
theorem forget {fewer : Set Nat} (paired : Paired held loaded fs fs') (subset : fewer ⊆ loaded) : Paired held fewer fs fs' :=
  ⟨paired.same, paired.calm, paired.initialized, paired.placed, paired.counted, fun ip inside => paired.valid ip (subset inside),
    fun ip inside => paired.supported ip (subset inside)⟩

end Paired

theorem TableBlind.careful {program : M α} (blind : TableBlind program) : Careful held loaded program := fun _ _ paired => paired.blind blind

/-- A loaded entry is the same in both states. -/
theorem loaded_outside (inside : ip ∈ loaded) : OutsideEntry ip (Paired held loaded) SameUse where
  fails paired := paired.same
  rest paired := paired.same.rest
  entry paired := ⟨_, paired.entry inside, Iff.rfl⟩
  valid paired := paired.valid ip inside
  blind := TableBlind.careful
  change {change} commutes valid fs fs' paired := by
    have same := commutes (fs.inode ip) (fs.inode ip).ref
    exact paired.modifyLoaded inside (congrArg Inode.ref same :) (valid _)

theorem Paired.dinode (paired : Paired held loaded fs fs') : fs'.dinode = fs.dinode := by
  funext inum
  rw [FS.dinode, FS.dinode, paired.store, paired.sb]

/-- A change of an entry that keeps its references, and its validity or makes it valid. -/
theorem Paired.modifyHeld {change : Inode → Inode} {loaded' : Set Nat} (paired : Paired held loaded fs fs')
    (same : SameEntry (change (fs.inode ip)) (change (fs'.inode ip))) (ref : (change (fs.inode ip)).ref = (fs.inode ip).ref)
    (valid : ip ∈ loaded' → (change (fs.inode ip)).valid = true) (fewer : ∀ other ∈ loaded', other ≠ ip → other ∈ loaded)
    (supported : ∀ other ∈ loaded', other ∈ held) :
    Twin (FS.modifyInode ip change) (FS.modifyInode ip change) fs fs' fun _ => Paired held loaded' :=
  paired.modifyInode same (fun own => ref ▸ paired.counted ip own) (fun _ own _ => ⟨own, Nat.le_refl _⟩) paired.placed valid fewer supported

/-- The entry is read on the way, if it was not: from then on it counts as loaded. -/
theorem ilock_twin (paired : Paired held loaded fs fs') (own : ip ∈ held) :
    Twin (ilock ip) (ilock ip) fs fs' fun _ => Paired held (insert ip loaded) := by
  have used := (paired.ref_pos own).ne'
  obtain ⟨ref, locked, inum, valid, copy⟩ := paired.same.entry ip
  have others : ∀ other ∈ insert ip loaded, other ≠ ip → other ∈ loaded := fun other inside apart =>
    (Set.mem_insert_iff.mp inside).resolve_left apart
  have supported : ∀ other ∈ insert ip loaded, other ∈ held := fun other inside =>
    (Set.mem_insert_iff.mp inside).elim (fun same => same ▸ own) (paired.supported other)
  apply Alike.read
  rw [ref, locked, valid used, inum used, paired.sb, paired.dinode]
  refine .ite Iff.rfl (fun _ => .stop paired.same) fun _ => .ite Iff.rfl (fun _ => .stop paired.same) fun _ => ?_
  have lockedEntry : SameEntry { fs.inode ip with locked := true } { fs'.inode ip with locked := true } := ⟨ref, rfl, inum, valid, copy⟩
  by_cases read : (fs.inode ip).valid = true
  · rw [if_pos read]
    exact .bind (paired.modifyHeld lockedEntry rfl (fun _ => read) others supported) fun _ _ _ paired => .pure paired
  · rw [if_neg read]
    have step : Twin (modifyInode ip fun inode => { inode with locked := true }) (modifyInode ip fun inode => { inode with locked := true })
        fs fs' fun _ => Paired held loaded :=
      paired.modifyHeld lockedEntry rfl (fun inside => paired.valid ip inside) (fun _ inside _ => inside) paired.supported
    refine .bind step fun _ current current' paired => .bind (paired.blind (loggedRead_tables _)) fun _ now now' paired => ?_
    have used := (paired.ref_pos own).ne'
    obtain ⟨ref, locked, inum, -, -⟩ := paired.same.entry ip
    have readEntry : SameEntry { now.inode ip with copy := fs.dinode (now.inode ip).inum, valid := true }
        { now'.inode ip with copy := fs.dinode (now'.inode ip).inum, valid := true } :=
      ⟨ref, locked, inum, fun _ => rfl, fun _ _ => congrArg fs.dinode (inum used)⟩
    refine .bind (paired.modifyHeld readEntry rfl (fun _ => rfl) others supported) fun _ _ _ paired => ?_
    exact .ite Iff.rfl (fun _ => .stop paired.same) fun _ => .ite Iff.rfl (fun _ => .stop paired.same) fun _ => .pure paired

theorem Paired.count_le (paired : Paired held loaded fs fs') (used : 0 ≤ (fs.inode ip).ref) : (held.count ip : Int) ≤ (fs.inode ip).ref := by
  by_cases own : ip ∈ held
  · exact paired.counted ip own
  · rw [Multiset.count_eq_zero_of_notMem own]
    exact used

/-- One more reference of the call. -/
theorem Paired.gain {change : Inode → Inode} (paired : Paired held loaded fs fs') (inside : ip < fs.ninode)
    (same : SameEntry (change (fs.inode ip)) (change (fs'.inode ip)))
    (counted : (held.count ip : Int) + 1 ≤ (change (fs.inode ip)).ref) (valid : ip ∈ loaded → (change (fs.inode ip)).valid = true) :
    Twin (FS.modifyInode ip change) (FS.modifyInode ip change) fs fs' fun _ => Paired (ip ::ₘ held) loaded := by
  refine paired.modifyInode same (fun _ => ?_) (fun other own apart => ?_) (fun other own => ?_) valid (fun _ inside _ => inside) fun other inside =>
    Multiset.mem_cons_of_mem (paired.supported other inside)
  · rw [Multiset.count_cons_self]
    exact counted
  · rw [Multiset.count_cons_of_ne apart]
    exact ⟨(Multiset.mem_cons.mp own).resolve_left apart, Nat.le_refl _⟩
  · cases Multiset.mem_cons.mp own with
    | inl here => exact here ▸ inside
    | inr before => exact paired.placed other before

/-- A free entry is given out, not read yet. -/
theorem igetClaim_twin (paired : Paired held loaded fs fs') (free : (fs.inode ip).ref = 0) (inside : ip < fs.ninode) (inum : Nat) :
    Twin (igetClaim ip inum) (igetClaim ip inum) fs fs' fun ip => Paired (ip ::ₘ held) loaded := by
  have unheld : ip ∉ held := fun own => (paired.ref_pos own).ne' free
  have locked := (paired.same.entry ip).locked
  refine .bind (paired.gain inside ⟨rfl, locked, fun _ => rfl, fun _ => rfl, fun _ invalid => ?_⟩ ?_ fun loaded => ?_) fun _ _ _ paired => .pure paired
  · cases invalid
  · rw [Multiset.count_eq_zero_of_notMem unheld]
    exact Int.le_refl _
  · exact absurd (paired.supported ip loaded) unheld

theorem itableGrow_twin (paired : Paired held loaded fs fs') :
    Twin itableGrow itableGrow fs fs' fun _ after after' => Paired held loaded after after' ∧
      (after.inode fs.ninode).ref = 0 ∧ fs.ninode < after.ninode := by
  have size : fs'.ninode = fs.ninode := by rw [paired.same.rest]
  have old (ip : Nat) (inside : ip < fs.ninode) :
      (if fs.ninode ≤ ip ∧ ip < fs.ninode * 2 then Inode.zero else fs.inode ip) = fs.inode ip :=
    if_neg fun new => absurd new.1 (Nat.not_le.mpr inside)
  have initialized := paired.initialized
  refine .modify ⟨⟨⟨?_, fun ip => ?_⟩, paired.calm, Nat.mul_pos initialized (by decide), fun ip own => ?_, fun ip own => ?_, fun ip inside => ?_,
    paired.supported⟩, ?_, ?_⟩
  · rw [paired.same.rest]
  · dsimp only
    rw [size]
    split
    · exact ⟨rfl, rfl, fun _ => rfl, fun _ => rfl, fun _ _ => rfl⟩
    · exact paired.same.entry ip
  · have inside := paired.placed ip own
    show ip < fs.ninode * 2
    omega
  · dsimp only
    rw [old ip (paired.placed ip own)]
    exact paired.counted ip own
  · dsimp only
    rw [old ip (paired.placed ip (paired.supported ip inside))]
    exact paired.valid ip inside
  · dsimp only
    rw [if_pos ⟨Nat.le_refl _, by omega⟩]
    rfl
  · show fs.ninode < fs.ninode * 2
    omega

/-- The entry that `iget` gives out is one more reference of the call. -/
theorem iget_twin (paired : Paired held loaded fs fs') (inum : Nat) :
    Twin (iget inum) (iget inum) fs fs' fun ip => Paired (ip ::ₘ held) loaded := by
  have size : fs'.ninode = fs.ninode := by rw [paired.same.rest]
  have copies : ∀ ip, (fs'.inode ip).inum = inum ∧ 0 < (fs'.inode ip).ref ↔ (fs.inode ip).inum = inum ∧ 0 < (fs.inode ip).ref := by
    intro ip
    rw [(paired.same.entry ip).ref]
    exact and_congr_left fun used => by rw [(paired.same.entry ip).inum used.ne']
  have empties : ∀ ip, (fs'.inode ip).ref = 0 ↔ (fs.inode ip).ref = 0 := fun ip => by rw [(paired.same.entry ip).ref]
  apply Alike.read
  simp only [size, copies, empties]
  cases found : (List.range fs.ninode).find? fun ip => decide ((fs.inode ip).inum = inum ∧ 0 < (fs.inode ip).ref) with
  | some ip =>
    have holds := List.find?_some found
    have used : 0 < (fs.inode ip).ref := (of_decide_eq_true holds).2
    have inside : ip < fs.ninode := List.mem_range.mp (List.mem_of_find?_eq_some found)
    have counted := paired.count_le used.le
    obtain ⟨ref, locked, inum, valid, copy⟩ := paired.same.entry ip
    refine .bind (paired.gain inside ⟨by rw [ref], locked, fun _ => inum used.ne', fun _ => valid used.ne', fun _ => copy used.ne'⟩ ?_
      fun loaded => paired.valid ip loaded) fun _ _ _ paired => .pure paired
    show _ ≤ (fs.inode ip).ref + 1
    omega
  | none =>
    cases empty : (List.range fs.ninode).find? fun ip => decide ((fs.inode ip).ref = 0) with
    | some ip =>
      have holds := List.find?_some empty
      have free : (fs.inode ip).ref = 0 := of_decide_eq_true holds
      exact igetClaim_twin paired free (List.mem_range.mp (List.mem_of_find?_eq_some empty)) inum
    | none => exact .bind (itableGrow_twin paired) fun _ _ _ grown => igetClaim_twin grown.1 grown.2.1 grown.2.2 inum

/-- A valid entry counts as loaded. -/
theorem Paired.load (paired : Paired held loaded fs fs') (read : (fs.inode ip).valid = true) (own : ip ∈ held) :
    Paired held (insert ip loaded) fs fs' := by
  refine ⟨paired.same, paired.calm, paired.initialized, paired.placed, paired.counted, fun other inside => ?_, fun other inside => ?_⟩
  · exact (Set.mem_insert_iff.mp inside).elim (fun same => same ▸ read) (paired.valid other)
  · exact (Set.mem_insert_iff.mp inside).elim (fun same => same ▸ own) (paired.supported other)

/-- A reference of the call is given back. -/
theorem Paired.drop (paired : Paired (ip ::ₘ held) loaded fs fs') (supported : ∀ other ∈ loaded, other ∈ held) :
    Twin (FS.modifyInode ip fun inode => { inode with ref := inode.ref - 1 }) (FS.modifyInode ip fun inode => { inode with ref := inode.ref - 1 })
      fs fs' fun _ => Paired held loaded := by
  have own := Multiset.mem_cons_self ip held
  have used := (paired.ref_pos own).ne'
  obtain ⟨ref, locked, inum, valid, copy⟩ := paired.same.entry ip
  refine paired.modifyInode ⟨by rw [ref], locked, fun _ => inum used, fun _ => valid used, fun _ => copy used⟩ (fun _ => ?_)
    (fun other own apart => ⟨Multiset.mem_cons_of_mem own, by rw [Multiset.count_cons_of_ne apart]⟩)
    (fun other own => paired.placed other (Multiset.mem_cons_of_mem own)) (fun inside => paired.valid ip inside) (fun _ inside _ => inside) supported
  have counted := paired.counted ip own
  rw [Multiset.count_cons_self] at counted
  show _ ≤ (fs.inode ip).ref - 1
  omega

/-- The inode is freed only when this is the last reference and the entry has been read. -/
theorem iput_twin (paired : Paired (ip ::ₘ held) loaded fs fs') (supported : ∀ other ∈ loaded, other ∈ held) :
    Twin (iput ip) (iput ip) fs fs' fun _ => Paired held loaded := by
  have own := Multiset.mem_cons_self ip held
  have used := (paired.ref_pos own).ne'
  obtain ⟨ref, locked, -, valid, copy⟩ := paired.same.entry ip
  unfold iput
  apply Alike.read
  dsimp only
  rw [ref, locked, valid used]
  refine .ite ?_ (fun last => ?_) fun _ => paired.drop supported
  · exact and_congr_right fun _ => and_congr_right fun read => by rw [copy used read]
  · obtain ⟨single, read, -⟩ := last
    have counted := paired.counted ip own
    rw [Multiset.count_cons_self] at counted
    have unheld : ip ∉ held := fun other => by
      have positive := Multiset.count_pos.mpr other
      omega
    have unloaded : ip ∉ loaded := fun inside => unheld (supported ip inside)
    refine .ite Iff.rfl (fun _ => .stop paired.same) fun _ => ?_
    have paired := paired.load read own
    have inside := Set.mem_insert ip loaded
    refine .bind ((loaded_outside inside).itrunc _ _ paired) fun _ _ _ paired => ?_
    refine .bind (paired.modifyCopy inside) fun _ _ _ paired => .bind ((loaded_outside inside).iupdate _ _ paired) fun _ now now' paired => ?_
    have invalidated : Twin (modifyInode ip fun inode => { inode with valid := false }) (modifyInode ip fun inode => { inode with valid := false })
        now now' fun _ => Paired (ip ::ₘ held) loaded := by
      obtain ⟨ref, locked, inum, -, copy⟩ := paired.same.entry ip
      exact paired.modifyHeld ⟨ref, locked, inum, fun _ => rfl, fun _ invalid => by cases invalid⟩ rfl (fun here => absurd here unloaded)
        (fun _ inside _ => Set.mem_insert_of_mem _ inside) fun other inside => Multiset.mem_cons_of_mem (supported other inside)
    exact .bind invalidated fun _ _ _ paired => paired.drop supported

end FS
end Myfuse
