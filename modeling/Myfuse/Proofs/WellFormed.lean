import Myfuse.Proofs.Session

/-! Well-formed states between operations, and the one that mounting a fresh disk
leads to. -/

namespace Myfuse
open Library Library.Exec

namespace FS
variable {origin : Origin} {fs after : FS} {ip : Nat}

/-- A state between operations in which distinct slots hold distinct allocated blocks. -/
structure WellFormed (fs : FS) : Prop where
  layout : fs.sb.Valid
  idle : Idle fs.log
  reserved : ∀ blockno < fs.sb.nbitmap * BPB, ¬ fs.sb.InData blockno → bitOf fs.sb fs.store blockno = true
  summaries : Summaries fs.sb fs.store fs.bmap
  free : FirstFree fs.sb fs.store fs.bmap
  table : fs.TableOk
  distinct : fs.held.Distinct
  inside : ∀ owner path, fs.held owner path ≠ 0 → fs.sb.InData (fs.held owner path)
  allocated : ∀ owner path, fs.held owner path ≠ 0 → bitOf fs.sb fs.store (fs.held owner path) = true

/-- A run from `fs`, whose lost blocks are those in use that no file holds. -/
def here (fs : FS) (watch bounded roomy : Prop) : Origin :=
  { lost := fun blockno => bitOf fs.sb fs.store blockno = true ∧ ∀ owner path, fs.held owner path ≠ blockno
    bits := bitOf fs.sb fs.store
    history := fs.history
    watch
    bounded
    roomy }

theorem WellFormed.owned (wellFormed : fs.WellFormed) : Owned fs.sb.InData
    (fun blockno => bitOf fs.sb fs.store blockno = true ∧ ∀ owner path, fs.held owner path ≠ blockno) fs.held
    (bitOf fs.sb fs.store) where
  nonzero := Superblock.zero_not_data wellFormed.layout
  distinct := wellFormed.distinct
  inside := wellFormed.inside
  taken blockno data := by
    constructor
    · intro set
      by_cases held : ∃ owner path, fs.held owner path = blockno
      · exact .inr held
      · exact .inl ⟨set, fun owner path same => held ⟨owner, path, same⟩⟩
    · rintro (lost | ⟨owner, path, rfl⟩)
      · exact lost.1
      · exact wellFormed.allocated owner path fun zero => Superblock.zero_not_data wellFormed.layout (zero ▸ data)
  kept owner path _ lost := lost.2 owner path rfl

theorem WellFormed.volume (wellFormed : fs.WellFormed) (watch bounded roomy : Prop) : fs.Volume (fs.here watch bounded roomy) where
  layout := wellFormed.layout
  reserved := wellFormed.reserved
  summaries := wellFormed.summaries
  free := wellFormed.free
  tracked := ⟨[], rfl, trivial, fun _ _ => rfl⟩
  table := wellFormed.table
  owned := wellFormed.owned

theorem WellFormed.atRest (wellFormed : fs.WellFormed) (bounded roomy : Prop) : fs.AtRest (fs.here False bounded roomy) :=
  ⟨wellFormed.volume _ _ _, wellFormed.idle, False.elim⟩

/-! Disks whose files hold no block. -/

/-- The bits of the blocks before the data region and of those past the end of the disk. -/
def metaBits (sb : Superblock) (blockno : Nat) : Bool := decide (blockno < sb.nmeta ∨ sb.size ≤ blockno)

/-- No data block is in use and no inode holds one. -/
structure Blockless (sb : Superblock) (disk : Nat → Block) : Prop where
  bits : ∀ blockno < sb.nbitmap * BPB, bitOf sb disk blockno = metaBits sb blockno
  addrs : ∀ inum < sb.ninodes, (Dinode.read (disk (sb.iblock inum)) (Dinode.offsetOf inum)).type ≠ T_UNUSE_INODE_MYFUSE →
    ∀ slot, (Dinode.read (disk (sb.iblock inum)) (Dinode.offsetOf inum)).addrs slot = 0

/-- What mkfs leaves: no inode but an empty root directory. -/
structure Formatted (sb : Superblock) (disk : Nat → Block) : Prop extends Blockless sb disk where
  rootType : (Dinode.read (disk (sb.iblock ROOTINO)) (Dinode.offsetOf ROOTINO)).type = T_DIR_INODE_MYFUSE
  rootLinks : (Dinode.read (disk (sb.iblock ROOTINO)) (Dinode.offsetOf ROOTINO)).nlink = 1
  rootSize : (Dinode.read (disk (sb.iblock ROOTINO)) (Dinode.offsetOf ROOTINO)).size = 0
  unused : ∀ inum < sb.ninodes, inum ≠ ROOTINO →
    (Dinode.read (disk (sb.iblock inum)) (Dinode.offsetOf inum)).type = T_UNUSE_INODE_MYFUSE

/-- The summaries of a bitmap, the cache pointing at its first block. -/
def summaryOf (sb : Superblock) (disk : Nat → Block) : BmapCache :=
  { cache_buf := fun byte => (disk (byte / BSIZE + sb.bmapstart)).byte (byte % BSIZE)
    first_unalloced := fun c => lowestClear BPB (disk (c + sb.bmapstart)).bit
    n_alloced := fun c => countSet BPB (disk (c + sb.bmapstart)).bit
    n_cache := sb.nbitmap
    first_free_cache := 0 }

theorem summaryOf_summaries (sb : Superblock) (disk : Nat → Block) : Summaries sb disk (summaryOf sb disk) where
  n_cache := rfl
  cached c _ k inside := by
    have place : (c * BSIZE + k) / BSIZE = c ∧ (c * BSIZE + k) % BSIZE = k := by
      simp only [BSIZE] at inside ⊢
      omega
    simp only [summaryOf, place.1, place.2]
  counted _ _ := by simp only [summaryOf]
  lowest _ _ := by simp only [summaryOf]

/-- The table right after one inode was looked up. -/
def firstEntry (inum : Nat) : Nat → Inode := fun ip => if ip = 0 then { Inode.zero with inum, ref := 1 } else Inode.zero

/-- A disk mounted, with an entry for one inode that is not read yet. -/
@[irreducible] def mounted (sb : Superblock) (disk : Nat → Block) (clock : Nat → Timespec) (inum : Nat) : FS :=
  { sb, store := disk, device := disk, log := Fslog.init sb.logstart sb.nlog, n_log_wrote := 0, bmap := summaryOf sb disk,
    inode := firstEntry inum, ninode := NINODE_INIT, files := fun _ => ⟨false, 0, false, false, none, 0⟩, nfile := 0, clock,
    ticks := 0, history := [] }

section
variable (sb : Superblock) (disk : Nat → Block) (clock : Nat → Timespec) (inum : Nat)

@[simp] theorem mounted_sb : (mounted sb disk clock inum).sb = sb := by unfold mounted; rfl

@[simp] theorem mounted_store : (mounted sb disk clock inum).store = disk := by unfold mounted; rfl

@[simp] theorem mounted_device : (mounted sb disk clock inum).device = disk := by unfold mounted; rfl

@[simp] theorem mounted_log : (mounted sb disk clock inum).log = Fslog.init sb.logstart sb.nlog := by unfold mounted; rfl

@[simp] theorem mounted_bmap : (mounted sb disk clock inum).bmap = summaryOf sb disk := by unfold mounted; rfl

@[simp] theorem mounted_inode : (mounted sb disk clock inum).inode = firstEntry inum := by unfold mounted; rfl

@[simp] theorem mounted_ninode : (mounted sb disk clock inum).ninode = NINODE_INIT := by unfold mounted; rfl

@[simp] theorem mounted_history : (mounted sb disk clock inum).history = [] := by unfold mounted; rfl

theorem mounted_inum : ((mounted sb disk clock inum).inode 0).inum = inum := by
  rw [mounted_inode]
  rfl

theorem mounted_live {ip : Nat} : (mounted sb disk clock inum).Live ip ↔ ip = 0 := by
  simp only [Live, mounted_ninode, mounted_inode, firstEntry]
  by_cases first : ip = 0
  · simp [first, NINODE_INIT]
  · simp [first, Inode.zero]

theorem mounted_entryOf (other : Nat) : (mounted sb disk clock inum).entryOf other = none := by
  unfold entryOf
  refine List.find?_eq_none.mpr fun ip _ => ?_
  simp only [mounted_inode, firstEntry]
  split <;> simp [Inode.zero]

theorem mounted_current (other : Nat) :
    (mounted sb disk clock inum).current other = Dinode.read (disk (sb.iblock other)) (Dinode.offsetOf other) := by
  rw [current, mounted_entryOf, dinode, mounted_store, mounted_sb]

end

variable {sb : Superblock} {disk : Nat → Block} {inum : Nat}

/-- Files without blocks, none of them in memory. -/
theorem held_blockless (blockless : Blockless fs.sb fs.store) (absent : ∀ inum, fs.entryOf inum = none) (owner : Nat)
    (path : List Nat) : fs.held owner path = 0 := by
  apply BlockTree.place_empty
  intro slot
  rw [FS.roots, current, absent]
  split
  next all =>
    obtain ⟨inside, -, none | used⟩ := all
    · cases none
    · exact blockless.addrs owner inside used slot
  next => rfl

theorem wellFormed_blockless (layout : fs.sb.Valid) (blockless : Blockless fs.sb fs.store) (absent : ∀ inum, fs.entryOf inum = none)
    (idle : Idle fs.log) (table : fs.TableOk) (summaries : Summaries fs.sb fs.store fs.bmap)
    (free : FirstFree fs.sb fs.store fs.bmap) : fs.WellFormed where
  layout := layout
  idle := idle
  reserved blockno inside outside := by
    rw [blockless.bits blockno inside, metaBits, decide_eq_true_iff]
    unfold Superblock.InData at outside
    omega
  summaries := summaries
  free := free
  table := table
  distinct owner path owner' path' holds := absurd (held_blockless blockless absent owner path) holds
  inside owner path holds := absurd (held_blockless blockless absent owner path) holds
  allocated owner path holds := absurd (held_blockless blockless absent owner path) holds

theorem Blockless.held (blockless : Blockless sb disk) (clock : Nat → Timespec) (inum owner : Nat) (path : List Nat) :
    (mounted sb disk clock inum).held owner path = 0 := by
  refine held_blockless ?_ (mounted_entryOf sb disk clock inum) owner path
  rwa [mounted_sb, mounted_store]

theorem Blockless.content (blockless : Blockless sb disk) (clock : Nat → Timespec) (inum other p : Nat) :
    (mounted sb disk clock inum).content other p = 0 := content_of_empty (blockless.held clock inum other _)

/-- A bitmap block with a data block has a clear bit. -/
theorem Blockless.free (blockless : Blockless sb disk) (clear : ∃ blockno < BPB, sb.InData blockno) {bmap : BmapCache}
    (first : bmap.first_free_cache = 0) : FirstFree sb disk bmap := by
  obtain ⟨blockno, low, data⟩ := clear
  have covered := data.covered
  have here : blockno / BPB = 0 := Nat.div_eq_of_lt low
  rw [FirstFree, first]
  refine ⟨?_, fun full => ?_⟩
  · by_contra empty
    have none : sb.nbitmap = 0 := Nat.le_zero.mp (Nat.not_lt.mp empty)
    rw [none, Nat.zero_mul] at covered
    exact Nat.not_lt_zero _ covered
  · have set := lowestClear_eq_neg_one.mp full blockno low
    have bit := blockless.bits blockno covered
    rw [bitOf, Superblock.bblock, here, Nat.mod_eq_of_lt low] at bit
    rw [bit, metaBits, decide_eq_true_iff] at set
    unfold Superblock.InData at data
    omega

/-- Mounting such a disk gives a well-formed state. -/
theorem Blockless.wellFormed (blockless : Blockless sb disk) (layout : sb.Valid) (inside : inum < sb.ninodes)
    (clear : ∃ blockno < BPB, sb.InData blockno) (clock : Nat → Timespec) : (mounted sb disk clock inum).WellFormed := by
  refine wellFormed_blockless (by rwa [mounted_sb]) (by rwa [mounted_sb, mounted_store]) (mounted_entryOf sb disk clock inum) ?_ ?_ ?_ ?_
  · rw [mounted_log]
    exact idle_init sb layout.log_size
  · refine ⟨fun ip live => ?_, fun ip ip' live live' _ => ?_⟩
    · rw [(mounted_live sb disk clock inum).mp live, mounted_inum, mounted_sb]
      exact inside
    · rw [(mounted_live sb disk clock inum).mp live, (mounted_live sb disk clock inum).mp live']
  · rw [mounted_sb, mounted_store, mounted_bmap]
    exact summaryOf_summaries sb disk
  · rw [mounted_sb, mounted_store, mounted_bmap]
    exact blockless.free clear rfl

/-! The same for a disk with one bitmap block, with summaries that are quick to compute. -/

/-- The summaries of a bitmap of one block without data blocks in use. -/
def freshBmap (sb : Superblock) : BmapCache :=
  { cache_buf := fun byte => Bytes.flagByte fun flag => metaBits sb (byte * 8 + flag)
    first_unalloced := fun _ => sb.nmeta
    n_alloced := fun _ => sb.nmeta + (BPB - sb.size)
    n_cache := 1
    first_free_cache := 0 }

theorem Blockless.freshSummaries (blockless : Blockless sb disk) (one : sb.nbitmap = 1) (room : sb.nmeta < sb.size)
    (small : sb.size ≤ BPB) : Summaries sb disk (freshBmap sb) := by
  have bits : ∀ index < BPB, (disk (0 + sb.bmapstart)).bit index = metaBits sb index := fun index inside => by
    rw [← blockless.bits index (by rw [one]; omega), bitOf, Superblock.bblock, Nat.div_eq_of_lt inside, Nat.mod_eq_of_lt inside]
  refine ⟨one.symm, fun c inside k low => ?_, fun c inside => ?_, fun c inside => ?_⟩ <;>
    rw [one, Nat.lt_one_iff] at inside <;> subst inside
  · rw [Nat.zero_mul, Nat.zero_add, Bytes.byte_eq_flagByte, freshBmap]
    refine Bytes.flagByte_congr fun flag few => (bits _ ?_).symm
    simp only [BPB, BSIZE] at low ⊢
    omega
  · exact (countSet_outside (Nat.le_of_lt room) small bits).symm
  · refine (lowestClear_eq_iff.mpr ⟨Nat.lt_of_lt_of_le room small, ?_, fun other low => ?_⟩).symm
    · rw [bits _ (Nat.lt_of_lt_of_le room small), metaBits, decide_eq_false_iff_not]
      omega
    · rw [bits other (by omega), metaBits, decide_eq_true_iff]
      exact .inl low

/-- Such a disk mounted, with a table of entries that are not read yet. -/
def fresh (sb : Superblock) (disk : Nat → Block) (table : Nat → Inode) : FS :=
  { sb, store := disk, device := disk, log := Fslog.init sb.logstart sb.nlog, n_log_wrote := 0, bmap := freshBmap sb,
    inode := table, ninode := NINODE_INIT, files := fun _ => ⟨false, 0, false, false, none, 0⟩, nfile := 50,
    clock := fun _ => ⟨0, 0⟩, ticks := 0, history := [] }

theorem fresh_absent {table : Nat → Inode} (unread : ∀ ip, (table ip).valid = false) (inum : Nat) :
    (fresh sb disk table).entryOf inum = none := by
  unfold entryOf
  refine List.find?_eq_none.mpr fun ip _ => ?_
  simp only [fresh, unread, Bool.false_eq_true, and_false, decide_false, not_false_eq_true]

theorem Blockless.fresh_wellFormed (blockless : Blockless sb disk) (layout : sb.Valid) (one : sb.nbitmap = 1)
    (room : sb.nmeta < sb.size) (small : sb.size ≤ BPB) {table : Nat → Inode} (unread : ∀ ip, (table ip).valid = false)
    (inside : ∀ ip < NINODE_INIT, 0 < (table ip).ref → (table ip).inum < sb.ninodes)
    (unique : ∀ ip < NINODE_INIT, ∀ ip' < NINODE_INIT, 0 < (table ip).ref → 0 < (table ip').ref →
      (table ip).inum = (table ip').inum → ip = ip') : (fresh sb disk table).WellFormed := by
  refine wellFormed_blockless layout blockless (fresh_absent unread) (idle_init sb layout.log_size)
    ⟨fun ip live => inside ip live.1 live.2, fun ip ip' live live' => unique ip live.1 ip' live'.1 live.2 live'.2⟩
    (blockless.freshSummaries one room small) (blockless.free ⟨sb.nmeta, Nat.lt_of_lt_of_le room small, Nat.le_refl _, room⟩ rfl)

/-! An image with a root directory and an empty file. -/

def rootDinode : Dinode := { Dinode.zero with type := T_DIR_INODE_MYFUSE, nlink := 1 }

def fileDinode : Dinode := { Dinode.zero with type := T_FILE_INODE_MYFUSE, nlink := 1 }

/-- Zero blocks but for the bitmap, the root directory and, in a block of its own, the dinode of `inum`. -/
def smallImage (sb : Superblock) (inum : Nat) : Nat → Block := fun blockno =>
  if blockno = sb.iblock ROOTINO then Dinode.write Bytes.zero (Dinode.offsetOf ROOTINO) rootDinode
  else if blockno = sb.iblock inum then Dinode.write Bytes.zero (Dinode.offsetOf inum) fileDinode
  else if sb.bmapstart ≤ blockno ∧ blockno < sb.bmapstart + sb.nbitmap then
    Bytes.ofBits fun index => metaBits sb ((blockno - sb.bmapstart) * BPB + index)
  else Bytes.zero

theorem dinode_zero (inum : Nat) : (Dinode.read Bytes.zero (Dinode.offsetOf inum)).type = T_UNUSE_INODE_MYFUSE := by
  simp only [Dinode.read, Bytes.field_zero]
  rfl

theorem dinode_written (inum other : Nat) (block : other / IPB = inum / IPB) (copy : Dinode) (empty : copy.addrs = fun _ => 0) :
    (Dinode.read (Dinode.write Bytes.zero (Dinode.offsetOf inum) copy) (Dinode.offsetOf other)).type =
        (if other = inum then copy.type else T_UNUSE_INODE_MYFUSE) ∧
      ∀ slot, (Dinode.read (Dinode.write Bytes.zero (Dinode.offsetOf inum) copy) (Dinode.offsetOf other)).addrs slot = 0 := by
  by_cases same : other = inum
  · rw [if_pos same, same]
    refine ⟨Dinode.type_read_write _ _ (Dinode.offsetOf_fits _), fun slot => ?_⟩
    by_cases small : slot < NBLOCKADDR
    · rw [Dinode.addrs_read_write _ _ (Dinode.offsetOf_fits _) small, empty]
      rfl
    · simp only [Dinode.read, if_neg small]
  · rw [if_neg same, Dinode.read_write_other _ _ block.symm same]
    refine ⟨dinode_zero other, fun slot => ?_⟩
    simp only [Dinode.read, Bytes.field_zero, ite_self]

theorem smallImage_block (layout : sb.Valid) {other : Nat} (small : other < sb.ninodes) :
    smallImage sb inum (sb.iblock other) =
      if sb.iblock other = sb.iblock ROOTINO then Dinode.write Bytes.zero (Dinode.offsetOf ROOTINO) rootDinode
      else if sb.iblock other = sb.iblock inum then Dinode.write Bytes.zero (Dinode.offsetOf inum) fileDinode
      else Bytes.zero := by
  have notBitmap := Superblock.iblock_not_bitmap layout small
  unfold Superblock.InBitmap at notBitmap
  simp only [smallImage, if_neg notBitmap]

section
variable (layout : sb.Valid) (inside : inum < sb.ninodes)
include layout inside

theorem smallImage_blockless (room : ROOTINO < sb.ninodes) : Blockless sb (smallImage sb inum) := by
  refine ⟨fun blockno covered => ?_, fun other small used slot => ?_⟩
  · have bitmap := Superblock.bblock_inBitmap covered
    have notRoot : sb.bblock blockno ≠ sb.iblock ROOTINO := fun same =>
      Superblock.iblock_not_bitmap layout room (same ▸ bitmap)
    have notFile : sb.bblock blockno ≠ sb.iblock inum := fun same =>
      Superblock.iblock_not_bitmap layout inside (same ▸ bitmap)
    have low : blockno % BPB < BSIZE * 8 := Nat.mod_lt _ (by decide)
    unfold Superblock.InBitmap at bitmap
    rw [bitOf, smallImage, if_neg notRoot, if_neg notFile, if_pos bitmap, Bytes.bit_ofBits _ low]
    congr 1
    simp only [Superblock.bblock, BPB, BSIZE]
    omega
  · rw [smallImage_block layout small]
    have same : ∀ {first second}, sb.iblock first = sb.iblock second → first / IPB = second / IPB := fun equal => by
      simp only [Superblock.iblock] at equal
      omega
    split
    next here => exact (dinode_written ROOTINO other (same here) rootDinode rfl).2 slot
    split
    next here => exact (dinode_written inum other (same here) fileDinode rfl).2 slot
    next => simp only [Dinode.read, Bytes.field_zero, ite_self]

theorem smallImage_type (apart : sb.iblock inum ≠ sb.iblock ROOTINO) :
    (Dinode.read (smallImage sb inum (sb.iblock inum)) (Dinode.offsetOf inum)).type = T_FILE_INODE_MYFUSE := by
  rw [smallImage_block layout inside, if_neg apart, if_pos rfl, (dinode_written inum inum rfl fileDinode rfl).1, if_pos rfl]
  rfl

theorem smallImage_size (apart : sb.iblock inum ≠ sb.iblock ROOTINO) :
    (Dinode.read (smallImage sb inum (sb.iblock inum)) (Dinode.offsetOf inum)).size = 0 := by
  rw [smallImage_block layout inside, if_neg apart, if_pos rfl, Dinode.size_read_write _ _ (Dinode.offsetOf_fits _)]
  rfl

end

/-- The image with one more empty file, in a block of its own. -/
def withFile (sb : Superblock) (inum : Nat) (disk : Nat → Block) : Nat → Block := fun blockno =>
  if blockno = sb.iblock inum then Dinode.write Bytes.zero (Dinode.offsetOf inum) fileDinode else disk blockno

theorem Blockless.withFile {disk : Nat → Block} (blockless : Blockless sb disk) (layout : sb.Valid) (inside : inum < sb.ninodes) :
    Blockless sb (withFile sb inum disk) := by
  constructor
  · intro blockno covered
    have notFile : sb.bblock blockno ≠ sb.iblock inum := fun same =>
      Superblock.iblock_not_bitmap layout inside (same ▸ Superblock.bblock_inBitmap covered)
    rw [← blockless.bits blockno covered, bitOf, bitOf, FS.withFile, if_neg notFile]
  · intro other small used slot
    unfold FS.withFile at used ⊢
    split at used
    next here =>
      have block : other / IPB = inum / IPB := by
        simp only [Superblock.iblock] at here
        omega
      rw [if_pos here]
      exact (dinode_written inum other block fileDinode rfl).2 slot
    next apart =>
      rw [if_neg apart]
      exact blockless.addrs other small used slot

/-- A small disk with one empty file, mounted. -/
def smallMount : FS := mounted (initSuperBlock 2000) (smallImage (initSuperBlock 2000) 17) (fun _ => ⟨0, 0⟩) 17

theorem smallDisk_layout : (initSuperBlock 2000).Valid := initSuperBlock_valid (by decide) (by decide)

theorem smallDisk_blockless : Blockless (initSuperBlock 2000) (smallImage (initSuperBlock 2000) 17) :=
  smallImage_blockless smallDisk_layout (by decide) (by decide)

theorem smallMount_wellFormed : smallMount.WellFormed :=
  smallDisk_blockless.wellFormed smallDisk_layout (by decide) ⟨1999, by decide, by unfold Superblock.InData; decide⟩ _

theorem smallMount_live : smallMount.Live 0 := (mounted_live _ _ _ _).mpr rfl

theorem smallMount_lockable : smallMount.Lockable 0 := by
  unfold smallMount
  refine ⟨by rw [mounted_inode]; rfl, fun _ => .inl ?_⟩
  rw [mounted_inum, dinode, mounted_store, mounted_sb]
  exact smallImage_type smallDisk_layout (by decide) (by decide)

theorem smallMount_size : (smallMount.current (smallMount.inode 0).inum).size = 0 := by
  unfold smallMount
  rw [mounted_inum, mounted_current]
  exact smallImage_size smallDisk_layout (by decide) (by decide)

theorem smallMount_content (inum p : Nat) : smallMount.content inum p = 0 := smallDisk_blockless.content _ _ inum p

/-- The same disk with summaries that are quick to compute. -/
def freshFile : FS := fresh (initSuperBlock 2000) (smallImage (initSuperBlock 2000) 17) (firstEntry 17)

theorem firstEntry_ref {ip : Nat} (referenced : 0 < (firstEntry inum ip).ref) : ip = 0 := by
  by_contra apart
  rw [firstEntry, if_neg apart] at referenced
  exact absurd referenced (by decide)

theorem firstEntry_unread (ip : Nat) : (firstEntry inum ip).valid = false := by
  unfold firstEntry
  split <;> rfl

theorem freshFile_wellFormed : freshFile.WellFormed := by
  refine smallDisk_blockless.fresh_wellFormed smallDisk_layout (by decide) (by decide) (by decide) firstEntry_unread
    (fun ip _ referenced => ?_) fun ip _ ip' _ referenced referenced' _ => ?_
  · rw [firstEntry_ref referenced]
    decide
  · rw [firstEntry_ref referenced, firstEntry_ref referenced']

end FS
end Myfuse
