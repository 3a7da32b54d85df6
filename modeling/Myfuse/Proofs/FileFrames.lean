import Myfuse.Proofs.AllocatorSteps

/-! Frames: what a change of one entry of the inode table, of one slot or of one
block leaves as it was. -/

namespace Myfuse
open Library Library.Exec

namespace FS
variable {origin : Origin} {fs after : FS} {ip inum : Nat}

/-! The inode table. -/

theorem entryOf_some (found : fs.entryOf inum = some ip) : fs.Loaded ip ∧ (fs.inode ip).inum = inum := by
  obtain ⟨fits, inside, _⟩ := List.find?_range_eq_some.mp found
  simp only [decide_eq_true_eq] at fits
  exact ⟨⟨⟨List.mem_range.mp inside, fits.2.1⟩, fits.2.2⟩, fits.1⟩

theorem entryOf_loaded (table : fs.TableOk) (loaded : fs.Loaded ip) : fs.entryOf (fs.inode ip).inum = some ip := by
  cases found : fs.entryOf (fs.inode ip).inum with
  | some other =>
    obtain ⟨isLoaded, same⟩ := entryOf_some found
    rw [table.unique other ip isLoaded.1 loaded.1 same]
  | none =>
    have none := List.find?_range_eq_none.mp found ip loaded.1.1
    simp [loaded.1.2, loaded.2] at none

theorem current_loaded (table : fs.TableOk) (loaded : fs.Loaded ip) : fs.current (fs.inode ip).inum = (fs.inode ip).copy := by
  rw [current, entryOf_loaded table loaded]

theorem roots_loaded (table : fs.TableOk) (loaded : fs.Loaded ip) (slot : Nat) :
    fs.roots (fs.inode ip).inum slot = if slot < NBLOCKADDR then (fs.inode ip).copy.addrs slot else 0 := by
  simp only [roots, entryOf_loaded table loaded, current_loaded table loaded, table.inside ip loaded.1, Option.isSome_some,
    true_or, and_true, true_and]

namespace Keeps

theorem refl (ip : Nat) (fs : FS) : Keeps ip fs fs := ⟨rfl, rfl, fun _ _ => rfl, rfl, rfl, rfl, fun _ _ _ => rfl, rfl, rfl, id⟩

theorem trans {middle : FS} (head : Keeps ip fs middle) (tail : Keeps ip middle after) : Keeps ip fs after where
  sb := tail.sb.trans head.sb
  ninode := tail.ninode.trans head.ninode
  others ip' apart := (tail.others ip' apart).trans (head.others ip' apart)
  inum := tail.inum.trans head.inum
  ref := tail.ref.trans head.ref
  valid := tail.valid.trans head.valid
  dinodes inum inside apart := by
    rw [tail.dinodes inum (head.sb ▸ inside) (head.inum ▸ apart), head.dinodes inum inside apart]
  outstanding := tail.outstanding.trans head.outstanding
  type := tail.type.trans head.type
  kind same := by
    have step := head.kind same
    rw [← head.inum, ← head.type] at step ⊢
    exact tail.kind step

variable (keeps : Keeps ip fs after)
include keeps

/-- What identifies an entry stays for every entry. -/
theorem identity (ip' : Nat) : (after.inode ip').inum = (fs.inode ip').inum ∧ (after.inode ip').ref = (fs.inode ip').ref ∧
    (after.inode ip').valid = (fs.inode ip').valid := by
  by_cases here : ip' = ip
  · rw [here]
    exact ⟨keeps.inum, keeps.ref, keeps.valid⟩
  · rw [keeps.others ip' here]
    exact ⟨rfl, rfl, rfl⟩

theorem live {ip' : Nat} : after.Live ip' ↔ fs.Live ip' := by
  rw [Live, Live, keeps.ninode, (keeps.identity ip').2.1]

theorem loaded {ip' : Nat} : after.Loaded ip' ↔ fs.Loaded ip' := by
  rw [Loaded, Loaded, keeps.live, (keeps.identity ip').2.2]

theorem table (table : fs.TableOk) : after.TableOk where
  inside ip' isLive := by
    rw [keeps.sb, (keeps.identity ip').1]
    exact table.inside ip' (keeps.live.mp isLive)
  unique first second isLive isLive' same := by
    rw [(keeps.identity first).1, (keeps.identity second).1] at same
    exact table.unique first second (keeps.live.mp isLive) (keeps.live.mp isLive') same

theorem entryOf (inum : Nat) : after.entryOf inum = fs.entryOf inum := by
  unfold FS.entryOf
  rw [keeps.ninode]
  refine List.find?_congr fun ip' _ => ?_
  have same := keeps.identity ip'
  simp only [same.1, same.2.1, same.2.2]

theorem current (inside : inum < fs.sb.ninodes) (apart : inum ≠ (fs.inode ip).inum) : after.current inum = fs.current inum := by
  rw [FS.current, FS.current, keeps.entryOf]
  cases found : fs.entryOf inum with
  | none => exact keeps.dinodes inum inside apart
  | some other =>
    have isOther : other ≠ ip := by
      rintro rfl
      exact apart (entryOf_some found).2.symm
    simp only [keeps.others other isOther]

theorem roots (apart : inum ≠ (fs.inode ip).inum) : after.roots inum = fs.roots inum := by
  funext slot
  unfold FS.roots
  rw [keeps.sb, keeps.entryOf]
  by_cases inside : inum < fs.sb.ninodes
  · rw [keeps.current inside apart, keeps.dinodes inum inside apart]
  · rw [if_neg fun all => inside all.1, if_neg fun all => inside all.1]

/-- The slots of `ip` are the only ones that may differ. -/
theorem roots_eq (table : fs.TableOk) (loaded : fs.Loaded ip) (inum slot : Nat) :
    after.roots inum slot = if inum = (fs.inode ip).inum then
      (if slot < NBLOCKADDR then (after.inode ip).copy.addrs slot else 0) else fs.roots inum slot := by
  by_cases here : inum = (fs.inode ip).inum
  · rw [if_pos here, here, ← keeps.inum, roots_loaded (keeps.table table) (keeps.loaded.mpr loaded)]
  · rw [if_neg here, keeps.roots here]

/-- Other slots than one are as before. -/
theorem roots_set (table : fs.TableOk) (loaded : fs.Loaded ip) {slot block : Nat} (small : slot < NBLOCKADDR)
    (addrs : (after.inode ip).copy.addrs = assign (fs.inode ip).copy.addrs slot block) (owner other : Nat) :
    after.roots owner other = if owner = (fs.inode ip).inum ∧ other = slot then block else fs.roots owner other := by
  rw [keeps.roots_eq table loaded]
  by_cases mine : owner = (fs.inode ip).inum
  · rw [if_pos mine, addrs, mine, roots_loaded table loaded]
    by_cases here : other = slot
    · simp only [here, small, assign_self, if_true, and_self]
    · simp only [here, assign_of_ne here, and_false, if_false]
  · rw [if_neg mine, if_neg fun both => mine both.1]

/-- The same slots everywhere. -/
theorem roots_same (table : fs.TableOk) (loaded : fs.Loaded ip)
    (addrs : (after.inode ip).copy.addrs = (fs.inode ip).copy.addrs) : after.roots = fs.roots := by
  funext owner other
  rw [keeps.roots_eq table loaded, addrs]
  split
  next mine => rw [mine, roots_loaded table loaded]
  next => rfl

end Keeps

/-- An inode block that is not rewritten keeps its dinodes. -/
theorem dinode_congr (sb : after.sb = fs.sb) (same : after.store (fs.sb.iblock inum) = fs.store (fs.sb.iblock inum)) :
    after.dinode inum = fs.dinode inum := by
  rw [dinode, dinode, sb, same]

/-- A state with the same table and the same inode blocks. -/
theorem Keeps.of_same (sb : after.sb = fs.sb) (ninode : after.ninode = fs.ninode) (inode : after.inode = fs.inode)
    (outstanding : after.log.outstanding = fs.log.outstanding)
    (store : ∀ inum < fs.sb.ninodes, after.store (fs.sb.iblock inum) = fs.store (fs.sb.iblock inum))
    (inside : (fs.inode ip).inum < fs.sb.ninodes) : Keeps ip fs after where
  sb := sb
  ninode := ninode
  others ip' _ := by rw [inode]
  inum := by rw [inode]
  ref := by rw [inode]
  valid := by rw [inode]
  dinodes inum inside _ := dinode_congr sb (store inum inside)
  outstanding := outstanding
  type := by rw [inode]
  kind same := by rw [dinode_congr sb (store _ inside), same]

/-- A change of the copied fields of `ip`. -/
theorem Keeps.copy (change : Dinode → Dinode) (type : (change (fs.inode ip).copy).type = (fs.inode ip).copy.type) :
    Keeps ip fs { fs with inode := assign fs.inode ip { fs.inode ip with copy := change (fs.inode ip).copy } } where
  sb := rfl
  ninode := rfl
  others ip' apart := assign_of_ne apart _ _
  inum := by simp
  ref := by simp
  valid := by simp
  dinodes _ _ _ := rfl
  outstanding := rfl
  type := by simp [type]
  kind := id

/-! The block map. -/

variable {path : List Nat} {block : Nat}

theorem held_append (owner : Nat) (nonempty : path ≠ []) (index : Nat) : fs.held owner (path ++ [index]) =
    if BlockTree.Internal levels path ∧ fs.held owner path ≠ 0 then entry (fs.store (fs.held owner path)) index else 0 :=
  BlockTree.place_append owner nonempty index

theorem held_root (owner slot : Nat) : fs.held owner [slot] = fs.roots owner slot := BlockTree.place_root owner slot

theorem held_below (owner : Nat) (nonempty : path ≠ []) (empty : fs.held owner path = 0) (index : Nat) :
    fs.held owner (path ++ [index]) = 0 := by
  rw [held_append owner nonempty, if_neg fun both => both.2 empty]

/-- Nothing is held under a path that ends early. -/
theorem held_beyond {owner : Nat} {above : List Nat} (empty : fs.held owner above = 0) (nonempty : above ≠ []) (below : List Nat) :
    fs.held owner (above ++ below) = 0 := by
  induction below using List.reverseRecOn with
  | nil => rwa [List.append_nil]
  | append_singleton below index ih =>
    rw [← List.append_assoc]
    exact held_below owner (by simp [nonempty]) ih index

/-- Where the start of a path is missing, all of it is. -/
theorem held_missing_above {owner : Nat} {path path' : List Nat} (nonempty : path ≠ []) (before : path <+: path')
    (empty : fs.held owner path = 0) : fs.held owner path' = 0 := by
  obtain ⟨rest, rfl⟩ := before
  exact held_beyond empty nonempty rest

/-- The same slots, and the same entries in the index blocks. -/
theorem held_congr (roots : after.roots = fs.roots)
    (store : ∀ owner path, BlockTree.Internal levels path → fs.held owner path ≠ 0 →
      ∀ index, entry (after.store (fs.held owner path)) index = entry (fs.store (fs.held owner path)) index) :
    after.held = fs.held :=
  BlockTree.place_congr (fun owner slot => by rw [roots]) fun _ ⟨nonzero, owner, path, deep, same⟩ => by
    subst same
    exact store owner path deep nonzero

/-- A slot whose tree is empty is set. -/
theorem held_set_root {owner slot : Nat}
    (roots : ∀ owner' slot', after.roots owner' slot' = if owner' = owner ∧ slot' = slot then block else fs.roots owner' slot')
    (store : ∀ owner path, BlockTree.Internal levels path → fs.held owner path ≠ 0 →
      ∀ index, entry (after.store (fs.held owner path)) index = entry (fs.store (fs.held owner path)) index)
    (before : ∀ index, fs.held owner [slot, index] = 0)
    (empty : 0 < levels slot → block ≠ 0 → ∀ index, entry (after.store block) index = 0) :
    after.held = BlockTree.update fs.held owner [slot] block :=
  BlockTree.place_set_root owner slot block roots
    (fun _ ⟨nonzero, owner, path, deep, same⟩ => by
      subst same
      exact store owner path deep nonzero)
    before empty

/-- An entry of a held index block, whose own tree is empty, is set. -/
theorem held_set_entry (distinct : fs.held.Distinct) {owner index : Nat} (deep : BlockTree.Internal levels path)
    (holds : fs.held owner path ≠ 0) (roots : after.roots = fs.roots)
    (store : ∀ owner' path', BlockTree.Internal levels path' → fs.held owner' path' ≠ 0 → ∀ index',
      entry (after.store (fs.held owner' path')) index' =
        if fs.held owner' path' = fs.held owner path ∧ index' = index then block
        else entry (fs.store (fs.held owner' path')) index')
    (before : ∀ index', fs.held owner (path ++ [index] ++ [index']) = 0)
    (empty : BlockTree.Internal levels (path ++ [index]) → block ≠ 0 → ∀ index', entry (after.store block) index' = 0) :
    after.held = BlockTree.update fs.held owner (path ++ [index]) block :=
  BlockTree.place_set_entry distinct owner index block deep holds (fun owner slot => by rw [roots])
    (fun _ ⟨nonzero, owner, path, deep, same⟩ => by
      subst same
      exact store owner path deep nonzero)
    before empty

/-! The bytes of the files. -/

theorem content_of_empty {p : Nat} (empty : fs.held inum (pathOf (p / BSIZE)) = 0) : fs.content inum p = 0 := if_pos empty

theorem content_of_held {p : Nat} (holds : fs.held inum (pathOf (p / BSIZE)) ≠ 0) :
    fs.content inum p = (fs.store (fs.held inum (pathOf (p / BSIZE)))).byte (p % BSIZE) := if_neg holds

theorem content_congr {p : Nat} (same : after.held inum (pathOf (p / BSIZE)) = fs.held inum (pathOf (p / BSIZE)))
    (store : fs.held inum (pathOf (p / BSIZE)) ≠ 0 → after.store (fs.held inum (pathOf (p / BSIZE))) =
      fs.store (fs.held inum (pathOf (p / BSIZE)))) : after.content inum p = fs.content inum p := by
  unfold content
  rw [same]
  by_cases empty : fs.held inum (pathOf (p / BSIZE)) = 0
  · rw [if_pos empty, if_pos empty]
  · rw [if_neg empty, if_neg empty, store empty]

/-- A zeroed block at an empty place changes no byte. -/
theorem content_linked {owner : Nat} (heldIs : after.held = BlockTree.update fs.held owner path block)
    (empty : fs.held owner path = 0) (zero : after.store block = Bytes.zero)
    (store : ∀ inum bn, fs.held inum (pathOf bn) ≠ 0 → after.store (fs.held inum (pathOf bn)) = fs.store (fs.held inum (pathOf bn))) :
    after.content = fs.content := by
  funext inum p
  by_cases here : inum = owner ∧ pathOf (p / BSIZE) = path
  · obtain ⟨rfl, rfl⟩ := here
    rw [content_of_empty empty]
    unfold content
    split
    · rfl
    · rw [heldIs, BlockTree.update_same, zero, Bytes.byte_zero]
  · exact content_congr (by rw [heldIs, BlockTree.update_other _ _ here]) (store inum _)

/-- Taking a file block away leaves zeros there. -/
theorem content_unlinked {owner bn : Nat} (heldIs : after.held = BlockTree.update fs.held owner (pathOf bn) 0)
    (store : ∀ inum bn, fs.held inum (pathOf bn) ≠ 0 → after.store (fs.held inum (pathOf bn)) = fs.store (fs.held inum (pathOf bn)))
    (inum p : Nat) : after.content inum p = if inum = owner ∧ p / BSIZE = bn then 0 else fs.content inum p := by
  by_cases here : inum = owner ∧ p / BSIZE = bn
  · rw [if_pos here]
    refine content_of_empty ?_
    rw [heldIs, here.1, here.2, BlockTree.update_same]
  · rw [if_neg here]
    refine content_congr ?_ (store inum _)
    rw [heldIs, BlockTree.update_other _ _ fun both => here ⟨both.1, pathOf_injective both.2⟩]

end FS
end Myfuse
