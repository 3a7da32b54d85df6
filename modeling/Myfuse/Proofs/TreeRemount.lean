import Myfuse.Proofs.Durability
import Myfuse.Proofs.Remount
import Myfuse.Proofs.TreeRuns

/-! Mounting what the device has between two calls gives the same tree: the inodes
are read back as their entries were, and every file holds the same blocks. -/

namespace Myfuse
open Library Library.Exec

namespace FS
variable {image : Nat → Block} {fs after : FS} {tree : FileTree} {blockno : Nat}

/-- From the inodes on nothing is in the log region. -/
theorem outside_log {sb : Superblock} (layout : sb.Valid) (behind : sb.inodestart ≤ blockno) : OutsideLog sb.logstart sb.nlog blockno :=
  .inr (Nat.le_trans layout.log_before behind)

theorem inodes_before_bitmap {sb : Superblock} (layout : sb.Valid) : sb.inodestart ≤ sb.bmapstart :=
  Nat.le_trans (Nat.le_add_right _ _) layout.inodes_before

theorem inodes_before_data {sb : Superblock} (layout : sb.Valid) (data : sb.InData blockno) : sb.inodestart ≤ blockno := by
  have before := inodes_before_bitmap layout
  have behind := layout.bitmap_before
  have meta_before := data.1
  omega

theorem Recovered.current {sb : Superblock} (mounted : Recovered sb image after) (inum : Nat) : after.current inum = after.dinode inum := by
  unfold FS.current
  rw [mounted.absent inum]

theorem Recovered.unreferenced {sb : Superblock} (mounted : Recovered sb image after) (ip : Nat) : refsOf after ip = 0 := by
  rw [refsOf, mounted.inode]
  rfl

theorem Recovered.tables {sb : Superblock} (mounted : Recovered sb image after) : Mounted after := by
  refine ⟨?_, fun ip _ => ?_, fun f ip pointer => ?_⟩
  · rw [mounted.ninode]
    decide
  · rw [mounted.inode]
    exact ⟨rfl, rfl⟩
  · rw [mounted.files] at pointer
    cases pointer

/-- A mounted file system with this tree, once the volume is known to be well formed. -/
theorem Recovered.bears {sb : Superblock} (mounted : Recovered sb image after) (wellFormed : after.WellFormed) (few : after.sb.ninodes ≤ 2 ^ 32)
    (carries : after.Carries tree) : after.Bears tree := by
  refine ⟨⟨wellFormed.ready, mounted.tables, mounted.idle.outstanding, fun ip => Int.le_of_eq (mounted.unreferenced ip).symm⟩, few,
    fun ip loaded => ?_, fun ip referenced => ?_, carries⟩
  · exact absurd loaded.1 (mounted.unused ip)
  · exact absurd (mounted.unreferenced ip) (Int.ne_of_gt referenced)

/-- Mounted from what this file system left on the device. -/
structure Reopened (fs after : FS) : Prop where
  ready : fs.Ready
  saved : ∀ ip, fs.Loaded ip → fs.Saved ip
  device : fs.device = fs.store
  mounted : Recovered fs.sb fs.device after

namespace Reopened
variable (reopened : Reopened fs after)
include reopened

theorem layout : fs.sb.Valid := reopened.ready.volume.layout

theorem sb : after.sb = fs.sb := reopened.mounted.layout

theorem store (behind : fs.sb.inodestart ≤ blockno) : after.store blockno = fs.store blockno := by
  rw [reopened.mounted.stored blockno (outside_log reopened.layout behind), reopened.device]

theorem dinode (inum : Nat) : after.dinode inum = fs.dinode inum := by
  apply dinode_congr reopened.sb
  exact reopened.store (Nat.le_add_left _ _)

theorem bit (blockno : Nat) : bitOf after.sb after.store blockno = bitOf fs.sb fs.store blockno := by
  rw [reopened.sb]
  apply bitOf_congr
  have high : fs.sb.bmapstart ≤ fs.sb.bblock blockno := Nat.le_add_left _ _
  exact reopened.store (Nat.le_trans (inodes_before_bitmap reopened.layout) high)

/-- A dinode is read back as its entry was. -/
theorem attrs (inum : Nat) : SameAttrs (fs.current inum) (after.current inum) := by
  rw [reopened.mounted.current, reopened.dinode]
  unfold FS.current
  cases found : fs.entryOf inum with
  | none => exact .refl _
  | some ip =>
    obtain ⟨loaded, rfl⟩ := entryOf_some found
    have saved := reopened.saved ip loaded
    exact ⟨saved.type, saved.nlink, saved.size.trans (Nat.mod_eq_of_lt saved.whole)⟩

theorem roots : after.roots = fs.roots := by
  funext inum slot
  unfold FS.roots
  rw [reopened.mounted.absent, reopened.mounted.current, reopened.dinode, reopened.sb]
  unfold FS.current
  cases found : fs.entryOf inum with
  | none => rfl
  | some ip =>
    obtain ⟨loaded, rfl⟩ := entryOf_some found
    have saved := reopened.saved ip loaded
    have type := saved.type
    by_cases inside : (fs.inode ip).inum < fs.sb.ninodes ∧ slot < NBLOCKADDR
    · by_cases used : (fs.inode ip).copy.type = T_UNUSE_INODE_MYFUSE
      · have none := saved.rooted.resolve_left (not_not.mpr used) slot inside.2
        simp [type, used, none]
      · have used' : (fs.dinode (fs.inode ip).inum).type ≠ T_UNUSE_INODE_MYFUSE := fun unused => used (type.symm.trans unused)
        rw [if_pos ⟨inside.1, inside.2, .inr used'⟩, if_pos ⟨inside.1, inside.2, .inl rfl⟩]
        exact saved.addrs slot inside.2
    · rw [if_neg fun all => inside ⟨all.1, all.2.1⟩, if_neg fun all => inside ⟨all.1, all.2.1⟩]

theorem held : after.held = fs.held := by
  unfold FS.held
  apply BlockTree.place_congr
  · intro owner slot
    rw [reopened.roots]
  · intro block live index
    obtain ⟨nonzero, owner, path, -, held⟩ := live
    have data := reopened.ready.volume.owned.inside owner path (by rw [FS.held, held]; exact nonzero)
    rw [FS.held, held] at data
    change entry (after.store block) index = entry (fs.store block) index
    rw [reopened.store (inodes_before_data reopened.layout data)]

theorem content (inum : Nat) : after.content inum = fs.content inum := by
  funext p
  unfold FS.content
  rw [reopened.held]
  by_cases empty : fs.held inum (pathOf (p / BSIZE)) = 0
  · rw [if_pos empty, if_pos empty]
  · have data := reopened.ready.volume.owned.inside inum _ empty
    rw [if_neg empty, if_neg empty, reopened.store (inodes_before_data reopened.layout data)]

theorem unchanged : Unchanged fs after := ⟨reopened.sb, fun inum _ => reopened.attrs inum, reopened.content⟩

/-- The volume is well formed when the search for a free block, which starts at the first bitmap block, finds one there. -/
theorem wellFormed (serves : ∃ j < BPB, (fs.store fs.sb.bmapstart).bit j = false) (nonempty : 0 < fs.sb.nbitmap) : after.WellFormed := by
  have volume := reopened.ready.volume
  have mounted := reopened.mounted
  have first : after.store after.sb.bmapstart = fs.store fs.sb.bmapstart := by
    rw [reopened.sb]
    exact reopened.store (inodes_before_bitmap reopened.layout)
  constructor
  · rw [reopened.sb]
    exact reopened.layout
  · exact mounted.idle
  · intro blockno inside apart
    rw [reopened.bit]
    rw [reopened.sb] at inside apart
    exact volume.reserved blockno inside apart
  · exact mounted.summaries
  · apply (firstFree_zero_iff (by rw [reopened.sb]; exact nonempty) mounted.first).mpr
    rw [first]
    exact serves
  · exact mounted.table
  · rw [reopened.held]
    exact volume.owned.distinct
  · intro owner path holds
    rw [reopened.held] at holds ⊢
    rw [reopened.sb]
    exact volume.owned.inside owner path holds
  · intro owner path holds
    rw [reopened.bit]
    rw [reopened.held] at holds ⊢
    exact volume.owned.used_of_held holds

theorem onDevice : after.OnDevice := ⟨reopened.mounted.flushed, reopened.mounted.idle.block⟩

end Reopened

/-- What a file system has between two calls outlives it. -/
theorem Bears.reopens (bears : fs.Bears tree) (device : fs.device = fs.store) (mounted : Recovered fs.sb fs.device after) : Reopened fs after :=
  ⟨bears.between.ready, bears.saved, device, mounted⟩

theorem Bears.remounts (bears : fs.Bears tree) (reopened : Reopened fs after) (serves : ∃ j < BPB, (fs.store fs.sb.bmapstart).bit j = false)
    (nonempty : 0 < fs.sb.nbitmap) : after.Bears tree := by
  have few := bears.small
  rw [← reopened.sb] at few
  exact reopened.mounted.bears (reopened.wellFormed serves nonempty) few (bears.carries.unchanged reopened.unchanged)

end FS
end Myfuse
