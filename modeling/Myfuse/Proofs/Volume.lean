import Myfuse.Library.Ownership
import Myfuse.Inode
import Myfuse.Proofs.Allocation

/-! What a state of the file system means: which block every file holds at every
place of its block map, the bytes of the files, and the invariant that ties the
block maps to the bitmap. -/

namespace Myfuse
open Library

/-- The levels of index blocks under a slot of `addrs`. -/
def levels (slot : Nat) : Nat := slot - (NDIRECT - 1)

@[simp] theorem levels_single : levels NDIRECT = 1 := rfl

@[simp] theorem levels_double : levels (NDIRECT + 1) = 2 := rfl

@[simp] theorem levels_triple : levels (NDIRECT + 2) = 3 := rfl

/-- Slot and entries that lead to block `bn` of a file. -/
def pathOf (bn : Nat) : List Nat :=
  if bn < NDIRECT then [bn]
  else if bn - NDIRECT < NINDIRECT1 then [NDIRECT, bn - NDIRECT]
  else if bn - NDIRECT - NINDIRECT1 < NINDIRECT2 then
    [NDIRECT + 1, (bn - NDIRECT - NINDIRECT1) / NINDIRECT1, (bn - NDIRECT - NINDIRECT1) % NINDIRECT1]
  else
    [NDIRECT + 2, (bn - NDIRECT - NINDIRECT1 - NINDIRECT2) / NINDIRECT2,
      (bn - NDIRECT - NINDIRECT1 - NINDIRECT2) % NINDIRECT2 / NINDIRECT1,
      (bn - NDIRECT - NINDIRECT1 - NINDIRECT2) % NINDIRECT2 % NINDIRECT1]

namespace Superblock

def InData (sb : Superblock) (blockno : Nat) : Prop := sb.nmeta ≤ blockno ∧ blockno < sb.size

def InBitmap (sb : Superblock) (blockno : Nat) : Prop := sb.bmapstart ≤ blockno ∧ blockno < sb.bmapstart + sb.nbitmap

end Superblock

namespace FS

/-- An entry in use. -/
def Live (fs : FS) (ip : Nat) : Prop := ip < fs.ninode ∧ 0 < (fs.inode ip).ref

/-- An entry that holds the dinode's fields. -/
def Loaded (fs : FS) (ip : Nat) : Prop := fs.Live ip ∧ (fs.inode ip).valid = true

/-- The loaded entry of an inode. -/
def entryOf (fs : FS) (inum : Nat) : Option Nat :=
  (List.range fs.ninode).find? fun ip =>
    (fs.inode ip).inum = inum ∧ 0 < (fs.inode ip).ref ∧ (fs.inode ip).valid = true

/-- The fields of an inode: its loaded entry has them, else the store. -/
def current (fs : FS) (inum : Nat) : Dinode :=
  match fs.entryOf inum with
  | some ip => (fs.inode ip).copy
  | none => fs.dinode inum

/-- What the slots of an inode hold; an unused dinode holds nothing. -/
def roots (fs : FS) (inum slot : Nat) : Nat :=
  if inum < fs.sb.ninodes ∧ slot < NBLOCKADDR ∧
      ((fs.entryOf inum).isSome ∨ (fs.dinode inum).type ≠ T_UNUSE_INODE_MYFUSE) then (fs.current inum).addrs slot
  else 0

/-- The block every inode holds at every path. -/
def held (fs : FS) : Placement Nat := BlockTree.place levels fs.roots fun blockno index => entry (fs.store blockno) index

/-- Byte `p` of a file, whether below its size or not; a missing block reads as zeros. -/
def content (fs : FS) (inum p : Nat) : Byte :=
  if fs.held inum (pathOf (p / BSIZE)) = 0 then 0
  else (fs.store (fs.held inum (pathOf (p / BSIZE)))).byte (p % BSIZE)

end FS

/-! The walk down the block map. -/

theorem pathOf_ne_nil (bn : Nat) : pathOf bn ≠ [] := by
  unfold pathOf
  split <;> [skip; split <;> [skip; split]] <;> simp

/-- No path of a file block leads to an index block. -/
theorem pathOf_leaf (bn : Nat) : ¬ BlockTree.Internal levels (pathOf bn) := by
  unfold pathOf
  split
  next direct =>
    simp only [BlockTree.Internal, levels, List.length_nil, NDIRECT] at direct ⊢
    omega
  split
  · simp [BlockTree.Internal]
  split
  · simp [BlockTree.Internal]
  · simp [BlockTree.Internal]

/-- The number of the block a path leads to. -/
def blockAt : List Nat → Nat
  | [slot] => slot
  | [_, index] => NDIRECT + index
  | [_, first, second] => NDIRECT + NINDIRECT1 + (first * NINDIRECT1 + second)
  | [_, first, second, third] => NDIRECT + NINDIRECT1 + NINDIRECT2 + (first * NINDIRECT2 + second * NINDIRECT1 + third)
  | _ => 0

theorem blockAt_pathOf (bn : Nat) : blockAt (pathOf bn) = bn := by
  unfold pathOf
  split
  next => rfl
  split
  next indirect _ =>
    simp only [blockAt]
    omega
  split
  next =>
    simp only [blockAt, NDIRECT, NINDIRECT1, NINDIRECT2] at *
    omega
  next =>
    simp only [blockAt, NDIRECT, NINDIRECT1, NINDIRECT2] at *
    omega

theorem pathOf_injective {bn bn' : Nat} (same : pathOf bn = pathOf bn') : bn = bn' := by
  rw [← blockAt_pathOf bn, same, blockAt_pathOf]

/-! The regions of the disk. -/

namespace Superblock
variable {sb : Superblock}

theorem bblock_inBitmap {blockno : Nat} (inside : blockno < sb.nbitmap * BPB) : sb.InBitmap (sb.bblock blockno) := by
  have below : blockno / BPB < sb.nbitmap := Nat.div_lt_of_lt_mul (by rwa [Nat.mul_comm])
  exact ⟨Nat.le_add_left _ _, by rw [bblock]; omega⟩

/-- Every block of the disk has its bit in the bitmap. -/
theorem covered {blockno : Nat} (inside : blockno < sb.size) : blockno < sb.nbitmap * BPB := by
  rw [nbitmap_eq]
  simp only [BPB, BSIZE]
  omega

theorem InData.covered {blockno : Nat} (inside : sb.InData blockno) : blockno < sb.nbitmap * BPB :=
  Superblock.covered inside.2

variable (layout : sb.Valid)
include layout

theorem iblock_lt {inum : Nat} (inside : inum < sb.ninodes) : sb.iblock inum < sb.bmapstart := by
  have before := layout.inodes_before
  simp only [iblock, IPB, dinodeSize, BSIZE] at before ⊢
  omega

theorem data_not_bitmap {blockno : Nat} (data : sb.InData blockno) : ¬ sb.InBitmap blockno := fun bitmap => by
  have := layout.bitmap_before
  have := data.1
  have := bitmap.2
  omega

theorem iblock_not_bitmap {inum : Nat} (inside : inum < sb.ninodes) : ¬ sb.InBitmap (sb.iblock inum) := fun bitmap => by
  have := iblock_lt layout inside
  have := bitmap.1
  omega

theorem iblock_not_data {inum : Nat} (inside : inum < sb.ninodes) : ¬ sb.InData (sb.iblock inum) := fun data => by
  have := iblock_lt layout inside
  have := layout.bitmap_before
  have := data.1
  omega

theorem zero_not_data : ¬ sb.InData 0 := fun data => by
  have := layout.log_before
  have size := layout.log_size
  have before := layout.inodes_before
  have := layout.bitmap_before
  have := data.1
  simp only [NLOG, MAXOPBLOCKS, IPB, dinodeSize, BSIZE] at size before
  omega

end Superblock

/-- A bit is read from its bitmap block only. -/
theorem bitOf_congr {sb : Superblock} {store store' : Nat → Block} {blockno : Nat}
    (same : store' (sb.bblock blockno) = store (sb.bblock blockno)) : bitOf sb store' blockno = bitOf sb store blockno := by
  rw [bitOf, bitOf, same]

/-! The allocator's course. -/

/-- The bits that a history, newest first, makes of `bits`. -/
def bitsAfter (bits : Nat → Bool) : List Event → Nat → Bool
  | [] => bits
  | .blockAlloc blockno :: older => assign (bitsAfter bits older) blockno true
  | .blockFree blockno :: older => assign (bitsAfter bits older) blockno false
  | _ :: older => bitsAfter bits older

/-- Every block handed out was free, and every block freed was in use. -/
def Orderly (bits : Nat → Bool) : List Event → Prop
  | [] => True
  | .blockAlloc blockno :: older => bitsAfter bits older blockno = false ∧ Orderly bits older
  | .blockFree blockno :: older => bitsAfter bits older blockno = true ∧ Orderly bits older
  | _ :: older => Orderly bits older

/-- Events that neither take nor free a block. -/
def Event.isNeutral : Event → Bool
  | .blockAlloc _ | .blockFree _ => false
  | _ => true

theorem bitsAfter_neutral (bits : Nat → Bool) {recent : List Event} (neutral : ∀ event ∈ recent, event.isNeutral = true)
    (older : List Event) : bitsAfter bits (recent ++ older) = bitsAfter bits older ∧
      (Orderly bits (recent ++ older) ↔ Orderly bits older) := by
  induction recent with
  | nil => exact ⟨rfl, Iff.rfl⟩
  | cons event recent ih =>
    have rest := ih fun other inside => neutral other (List.mem_cons_of_mem _ inside)
    have head := neutral event List.mem_cons_self
    cases event <;> first | exact rest | cases head

/-- The blocks given back, the last one first. -/
def freedBlocks (history : List Event) : List Nat :=
  history.filterMap fun event => match event with
    | .blockFree blockno => some blockno
    | _ => none

/-- Where a run started: the used data blocks that no file held, the bits and the
history. `watch` asks that its commits be sound, `bounded` that no file goes past the
limit, `roomy` that every operation stays alone and within its share of the log. -/
structure Origin where
  lost : Nat → Prop
  bits : Nat → Bool
  history : List Event
  watch : Prop
  bounded : Prop
  roomy : Prop

namespace FS

/-- The history since the start explains the bits of the data blocks. -/
def Tracked (origin : Origin) (fs : FS) : Prop :=
  ∃ recent, fs.history = recent ++ origin.history ∧ Orderly origin.bits recent ∧
    ∀ blockno, fs.sb.InData blockno → bitOf fs.sb fs.store blockno = bitsAfter origin.bits recent blockno

/-- The bitmap, its summaries and the course of the allocator agree. -/
structure Allocator (origin : Origin) (fs : FS) : Prop where
  layout : fs.sb.Valid
  reserved : ∀ blockno < fs.sb.nbitmap * BPB, ¬ fs.sb.InData blockno → bitOf fs.sb fs.store blockno = true
  summaries : Summaries fs.sb fs.store fs.bmap
  free : FirstFree fs.sb fs.store fs.bmap
  tracked : fs.Tracked origin

/-- Entries in use name inodes of the disk, each one once. -/
structure TableOk (fs : FS) : Prop where
  inside : ∀ ip, fs.Live ip → (fs.inode ip).inum < fs.sb.ninodes
  unique : ∀ ip ip', fs.Live ip → fs.Live ip' → (fs.inode ip).inum = (fs.inode ip').inum → ip = ip'

/-- The block maps of all files agree with the bitmap. -/
structure Volume (origin : Origin) (fs : FS) : Prop extends Allocator origin fs where
  table : fs.TableOk
  owned : Owned fs.sb.InData origin.lost fs.held (bitOf fs.sb fs.store)

/-- The frame of every routine that works on `ip`: the other entries and inodes stay. -/
structure Keeps (ip : Nat) (fs after : FS) : Prop where
  sb : after.sb = fs.sb
  ninode : after.ninode = fs.ninode
  others : ∀ ip', ip' ≠ ip → after.inode ip' = fs.inode ip'
  inum : (after.inode ip).inum = (fs.inode ip).inum
  ref : (after.inode ip).ref = (fs.inode ip).ref
  valid : (after.inode ip).valid = (fs.inode ip).valid
  dinodes : ∀ inum < fs.sb.ninodes, inum ≠ (fs.inode ip).inum → after.dinode inum = fs.dinode inum
  outstanding : after.log.outstanding = fs.log.outstanding
  type : (after.inode ip).copy.type = (fs.inode ip).copy.type
  kind : (fs.dinode (fs.inode ip).inum).type = (fs.inode ip).copy.type →
    (after.dinode (fs.inode ip).inum).type = (fs.inode ip).copy.type

end FS
end Myfuse
