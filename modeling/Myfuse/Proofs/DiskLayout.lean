import Mathlib.Order.CompletePartialOrder
import Mathlib.Order.Interval.Set.Disjoint
import Myfuse.Layout

/-! Which disks mkfs lays out. It turns away disks of up to 100 blocks, but the log
alone takes more than a thousand. -/

namespace Myfuse

namespace Superblock

/-- Log, inode blocks, bitmap and data, each as its first block and the one behind its last. -/
def regions (sb : Superblock) : List (Nat × Nat) :=
  [(sb.logstart, sb.logstart + sb.nlog), (sb.inodestart, sb.inodestart + sb.ninodes / IPB),
    (sb.bmapstart, sb.bmapstart + sb.nbitmap), (sb.bmapstart + sb.nbitmap, sb.bmapstart + sb.nbitmap + sb.nblocks)]

/-- The regions follow each other up to the end of the disk, there is a data block, and the
arithmetic of the other modules stays inside the regions. -/
structure LaidOut (sb : Superblock) : Prop where
  consecutive : sb.regions.IsChain fun first second => first.2 = second.1
  disjoint : sb.regions.Pairwise fun first second => Disjoint (Set.Ico first.1 first.2) (Set.Ico second.1 second.2)
  ends : sb.bmapstart + sb.nbitmap + sb.nblocks = sb.size
  data : 0 < sb.nblocks
  inodes : ∀ inum < sb.ninodes, sb.inodestart ≤ sb.iblock inum ∧ sb.iblock inum < sb.inodestart + sb.ninodes / IPB
  bitmap : ∀ block < sb.size, sb.bmapstart ≤ sb.bblock block ∧ sb.bblock block < sb.bmapstart + sb.nbitmap
  uints : sb.size < 2 ^ 32 ∧ sb.nblocks < 2 ^ 32 ∧ sb.ninodes < 2 ^ 32 ∧ sb.bmapstart + sb.nbitmap < 2 ^ 32

/-- Regions in order do not meet. -/
theorem disjoint_of_consecutive {sb : Superblock} (consecutive : sb.regions.IsChain fun first second => first.2 = second.1) :
    sb.regions.Pairwise fun first second => Disjoint (Set.Ico first.1 first.2) (Set.Ico second.1 second.2) := by
  have apart : ∀ {a b c d : Nat}, b ≤ c → Disjoint (Set.Ico a b) (Set.Ico c d) := fun {a b c d} order =>
    Set.Ico_disjoint_Ico.mpr ((min_le_left b d).trans (order.trans (le_max_right a c)))
  unfold regions at *
  generalize sb.ninodes / IPB = inode_blocks at *
  simp only [List.isChain_cons_cons, List.isChain_singleton] at consecutive
  simp only [List.pairwise_cons, List.mem_cons, List.not_mem_nil, or_false, forall_eq_or_imp, forall_eq,
    List.Pairwise.nil, and_true, false_implies, implies_true]
  refine ⟨⟨apart ?_, apart ?_, apart ?_⟩, ⟨apart ?_, apart ?_⟩, apart ?_⟩
  all_goals omega

/-- The bitmap has a bit for every block of the disk. -/
theorem bblock_inside {sb : Superblock} {block : Nat} (inside : block < sb.size) :
    sb.bmapstart ≤ sb.bblock block ∧ sb.bblock block < sb.bmapstart + sb.nbitmap := by
  rw [bblock, nbitmap_eq]
  simp only [BPB, BSIZE]
  omega

theorem iblock_inside {sb : Superblock} {blocks inum : Nat} (whole : sb.ninodes = blocks * IPB) (inside : inum < sb.ninodes) :
    sb.inodestart ≤ sb.iblock inum ∧ sb.iblock inum < sb.inodestart + sb.ninodes / IPB := by
  rw [iblock, whole] at *
  simp only [IPB, dinodeSize, BSIZE] at *
  omega

end Superblock

open Superblock

/-- Of the sums and products that mkfs computes none exceeds a `uint`; only the number of data blocks can wrap. -/
theorem initSuperBlock_uints {disk_size : Nat} (uint : disk_size ≤ 2 ^ 31) :
    (initSuperBlock disk_size).ninodes < 2 ^ 32 ∧
      (initSuperBlock disk_size).bmapstart + (initSuperBlock disk_size).nbitmap < 2 ^ 32 := by
  rw [nbitmap_eq]
  simp only [initSuperBlock, NLOG, MAXOPBLOCKS, IPB, dinodeSize, BSIZE]
  omega

/-- The data blocks mkfs counts, before and after the subtraction wraps. -/
theorem initSuperBlock_data (disk_size : Nat) :
    (initSuperBlock disk_size).nblocks =
      (disk_size + 2 ^ 32 - ((initSuperBlock disk_size).bmapstart + (initSuperBlock disk_size).nbitmap)) % 2 ^ 32 := rfl

/-- From 1041 blocks on the meta blocks leave a block for data. -/
theorem meta_fits_iff (disk_size : Nat) :
    (initSuperBlock disk_size).bmapstart + (initSuperBlock disk_size).nbitmap < disk_size ↔ 1041 ≤ disk_size := by
  rw [nbitmap_eq]
  simp only [initSuperBlock, NLOG, MAXOPBLOCKS]
  omega

/-- Of the disks mkfs accepts, those of 1041 blocks or more get the layout that `fs.h` describes. -/
theorem mkfs_lays_out_iff {disk_size : Nat} (accepted : 100 < disk_size) (small : disk_size ≤ 2 ^ 31) :
    (initSuperBlock disk_size).LaidOut ↔ 1041 ≤ disk_size := by
  rw [← meta_fits_iff]
  constructor
  · rintro ⟨-, -, ends, data, -, -, -⟩
    have size : (initSuperBlock disk_size).size = disk_size := rfl
    omega
  · intro fits
    obtain ⟨ninodes, behind⟩ := initSuperBlock_uints small
    have nblocks : (initSuperBlock disk_size).nblocks =
        disk_size - ((initSuperBlock disk_size).bmapstart + (initSuperBlock disk_size).nbitmap) := by
      rw [initSuperBlock_data]
      exact uint_sub (Nat.le_of_lt fits) (by omega)
    have whole : (initSuperBlock disk_size).ninodes = (disk_size / 50 + 1) * IPB := rfl
    have consecutive : (initSuperBlock disk_size).regions.IsChain fun first second => first.2 = second.1 := by
      simp only [regions, List.isChain_cons_cons, List.isChain_singleton, and_true]
      refine ⟨rfl, ?_⟩
      rw [whole, Nat.mul_div_cancel _ (by decide)]
      rfl
    have size : (initSuperBlock disk_size).size = disk_size := rfl
    exact
      { consecutive
        disjoint := disjoint_of_consecutive consecutive
        ends := by omega
        data := by omega
        inodes := fun inum inside => iblock_inside whole inside
        bitmap := fun block inside => bblock_inside inside
        uints := ⟨by omega, by omega, ninodes, behind⟩ }

theorem mkfs_lays_out_iff_small : (initSuperBlock 2000).LaidOut ↔ 1041 ≤ 2000 :=
  mkfs_lays_out_iff (by decide) (by decide)

/-- On a disk of 500 blocks the number of data blocks wraps: the regions end far behind the disk. -/
theorem mkfs_wraps : ¬ ∀ disk_size, 100 < disk_size → disk_size ≤ 2 ^ 31 → (initSuperBlock disk_size).LaidOut := fun lays => by
  have ends := (lays 500 (by decide) (by decide)).ends
  revert ends
  decide

end Myfuse
