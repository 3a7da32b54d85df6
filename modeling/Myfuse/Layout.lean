import Myfuse.Library.Bytes

/-! The on-disk layout of `fs.h`: constants, super block, dinodes, and the super
block that mkfs computes. A `uint` is a `Nat`, cut to 32 bits where it can wrap. -/

namespace Myfuse
open Library

abbrev FSMAGIC : Nat := 0x636a6673
abbrev ROOTINO : Nat := 1
abbrev BSIZE : Nat := 4096
abbrev MAXOPBLOCKS : Nat := 127
abbrev NLOG : Nat := MAXOPBLOCKS * 8

abbrev NDIRECT : Nat := 43
/-- `BSIZE / sizeof(uint)`. -/
abbrev NINDIRECT1 : Nat := 1024
abbrev NINDIRECT2 : Nat := 1024 * 1024
abbrev NINDIRECT3 : Nat := 1024 * 1024 * 1024
abbrev NINDIRECT : Nat := NINDIRECT1 + NINDIRECT2 + NINDIRECT3
abbrev NSUBDIRECT : Nat := 3
abbrev NBLOCKADDR : Nat := NDIRECT + NSUBDIRECT
abbrev MAXFILE_BLOCKS : Nat := NDIRECT + NINDIRECT
abbrev MAXFILE_SIZE : Nat := (NDIRECT + NINDIRECT) * BSIZE

/-- `sizeof(struct dinode)`: 252 bytes of fields, aligned to 8. -/
abbrev dinodeSize : Nat := 256
/-- Inodes per block. -/
abbrev IPB : Nat := BSIZE / dinodeSize
/-- Bitmap bits per block. -/
abbrev BPB : Nat := BSIZE * 8

abbrev Block := Bytes BSIZE

/-- The source masks `x + align - 1` with `~(align - 1)`; every `align` it uses is
a power of two, so that clears the remainder. -/
def ROUNDUP (x align : Nat) : Nat := (x + align - 1) / align * align

structure Superblock where
  magic : Nat
  size : Nat
  nblocks : Nat
  ninodes : Nat
  nlog : Nat
  logstart : Nat
  inodestart : Nat
  bmapstart : Nat
  deriving DecidableEq, Repr

namespace Superblock

/-- `IBLOCK(i)`. -/
def iblock (sb : Superblock) (inum : Nat) : Nat := inum / IPB + sb.inodestart

/-- `BBLOCK(b)`. -/
def bblock (sb : Superblock) (block : Nat) : Nat := block / BPB + sb.bmapstart

/-- The number of bitmap blocks. -/
def nbitmap (sb : Superblock) : Nat := ROUNDUP sb.size BPB / BPB

/-- The first data block: mkfs and `init_meta_blocks_bmap` count the meta blocks so. -/
def nmeta (sb : Superblock) : Nat := sb.size - sb.nblocks

/-- The regions follow each other inside the disk, and the log has the size mkfs gives it. -/
structure Valid (sb : Superblock) : Prop where
  log_size : sb.nlog = NLOG
  log_before : sb.logstart + sb.nlog ≤ sb.inodestart
  inodes_before : sb.inodestart + (sb.ninodes + IPB - 1) / IPB ≤ sb.bmapstart
  bitmap_before : sb.bmapstart + sb.nbitmap ≤ sb.nmeta
  data_inside : sb.nblocks ≤ sb.size
  uint_size : sb.size < 2 ^ 32

instance (sb : Superblock) : Decidable sb.Valid :=
  decidable_of_iff (sb.nlog = NLOG ∧ sb.logstart + sb.nlog ≤ sb.inodestart ∧
      sb.inodestart + (sb.ninodes + IPB - 1) / IPB ≤ sb.bmapstart ∧ sb.bmapstart + sb.nbitmap ≤ sb.nmeta ∧
      sb.nblocks ≤ sb.size ∧ sb.size < 2 ^ 32)
    ⟨fun ⟨a, b, c, d, e, f⟩ => ⟨a, b, c, d, e, f⟩, fun ⟨a, b, c, d, e, f⟩ => ⟨a, b, c, d, e, f⟩⟩

end Superblock

/-- mkfs' `init_super_block`. `disk_size / 50` is an integer division, so the
`ceil` around it does nothing; the subtraction is unsigned. -/
def initSuperBlock (disk_size : Nat) : Superblock :=
  let nlog := NLOG
  let nbitmap := ROUNDUP disk_size BPB / BPB
  let ninode_blocks := disk_size / 50 + 1
  let ninodes := ninode_blocks * IPB
  let nmeta_blocks := 2 + nlog + ninode_blocks + nbitmap
  { magic := FSMAGIC, size := disk_size, nblocks := (disk_size + 2 ^ 32 - nmeta_blocks) % 2 ^ 32, ninodes, nlog,
    logstart := 2, inodestart := 2 + nlog, bmapstart := 2 + nlog + ninode_blocks }

theorem nbitmap_eq (sb : Superblock) : sb.nbitmap = (sb.size + 32767) / 32768 := by
  simp only [Superblock.nbitmap, ROUNDUP, BPB, BSIZE]
  omega

theorem nbitmap_bits {sb : Superblock} (uint : sb.size < 2 ^ 32) : sb.nbitmap * BPB ≤ 2 ^ 32 := by
  rw [nbitmap_eq]
  simp only [BPB, BSIZE]
  omega

theorem uint_sub {first second : Nat} (ordered : second ≤ first) (uint : first < 2 ^ 32) :
    (first + 2 ^ 32 - second) % 2 ^ 32 = first - second := by omega

/-- A disk with room for the meta blocks gets a layout whose regions are disjoint. -/
theorem initSuperBlock_valid {disk_size : Nat} (room : 1100 ≤ disk_size) (uint : disk_size < 2 ^ 32) :
    (initSuperBlock disk_size).Valid := by
  have bitmap : ROUNDUP disk_size BPB / BPB = (disk_size + 32767) / 32768 := nbitmap_eq (initSuperBlock disk_size)
  have fits : 2 + NLOG + (disk_size / 50 + 1) + (disk_size + 32767) / 32768 ≤ disk_size := by
    simp only [NLOG, MAXOPBLOCKS]
    omega
  have nblocks : (initSuperBlock disk_size).nblocks =
      disk_size - (2 + NLOG + (disk_size / 50 + 1) + (disk_size + 32767) / 32768) := by
    simp only [initSuperBlock, bitmap]
    exact uint_sub fits uint
  constructor
  · rfl
  · exact Nat.le_refl _
  · simp only [initSuperBlock, IPB, dinodeSize, BSIZE]
    omega
  · simp only [Superblock.nmeta, nbitmap_eq, nblocks]
    simp only [initSuperBlock]
    omega
  · rw [nblocks]
    exact Nat.sub_le _ _
  · exact uint

end Myfuse
