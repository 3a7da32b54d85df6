import Myfuse.Proofs.Format

/-! What mkfs leaves on the disk, step by step: one thread, one operation at a time, and at
most three blocks listed in each. -/

namespace Myfuse
open Library Library.Exec

namespace FS
variable {sb : Superblock} {store : Nat → Block} {first : Inode} {few : Nat} {fs : FS}

/-- A new file system in its only running operation, which has listed at most `few` blocks; only the first
entry of the inode table is ever used. -/
structure Making (sb : Superblock) (store : Nat → Block) (first : Inode) (few : Nat) (fs : FS) : Prop where
  layout : fs.sb = sb
  stored : fs.store = store
  entry : fs.inode 0 = first
  others : ∀ ip, ip ≠ 0 → (fs.inode ip).ref = 0
  capacity : fs.ninode = NINODE_INIT
  alone : fs.log.outstanding = 1
  logged : fs.Logged
  listed : fs.log.n ≤ few

/-- A new file system between two operations. -/
structure Rested (sb : Superblock) (store : Nat → Block) (first : Inode) (fs : FS) : Prop where
  layout : fs.sb = sb
  stored : fs.store = store
  entry : fs.inode 0 = first
  others : ∀ ip, ip ≠ 0 → (fs.inode ip).ref = 0
  capacity : fs.ninode = NINODE_INIT
  none : fs.log.outstanding = 0
  logged : fs.Logged

theorem Rested.flushed (rested : Rested sb store first fs) : fs.device = store := by
  have empty := rested.logged.empty (Int.le_of_eq rested.none)
  funext blockno
  by_contra changed
  rw [← rested.stored] at changed
  have listed := rested.logged.synced blockno (Ne.symm changed)
  rw [empty] at listed
  cases listed

theorem Rested.begins (rested : Rested sb store first fs) : Ensures beginOp fs (fun _ after => Making sb store first 0 after) fun _ _ => False := by
  have empty := rested.logged.empty (Int.le_of_eq rested.none)
  have admits : fs.log.admits = true := by
    simp [Fslog.admits, Fslog.n, rested.none, rested.logged.committing, empty, NLOG, MAXOPBLOCKS]
  apply (beginOp_spec admits).weaken
  intro _ after afterIs
  subst afterIs
  refine ⟨rested.layout, rested.stored, rested.entry, rested.others, rested.capacity, ?_, ?_, ?_⟩
  · exact (congrArg (· + 1) rested.none).trans (Int.zero_add 1)
  · refine ⟨rested.logged.synced, rested.logged.committing, rested.logged.size, fun out => rested.logged.empty ?_⟩
    exact Int.le_of_eq rested.none
  · change fs.log.block.length ≤ 0
    rw [empty]
    exact Nat.le_refl 0

namespace Making

theorem ends (making : Making sb store first few fs) : Ensures endOp fs (fun _ after => Rested sb store first after) fun _ _ => False := by
  apply (endOp_spec making.logged.committing).weaken
  intro _ after afterIs
  rw [if_pos making.alone] at afterIs
  subst afterIs
  refine ⟨making.layout, making.stored, making.entry, making.others, making.capacity, ?_, ?_⟩
  · exact (congrArg (· - 1) making.alone).trans (Int.sub_self 1)
  · refine ⟨fun blockno changed => ?_, making.logged.committing, making.logged.size, fun _ => rfl⟩
    have disk := committedDisk_synced making.logged.synced
    exact absurd (congrFun disk blockno).symm changed

theorem update (making : Making sb store first few fs) (room : few ≤ 3) (blockno : Nat) (change : Block → Block) :
    Ensures (loggedUpdate blockno change) fs
      (fun _ after => Making sb (assign store blockno (change (store blockno))) first (few + 1) after) fun _ _ => False := by
  have roomy := notFull_of_few making.logged.size (Nat.le_trans making.listed room)
  have inOp : 1 ≤ fs.log.outstanding := Int.le_of_eq making.alone.symm
  simp only [loggedUpdate, loggedWrite, note, ensures_bind, ensures_modify, ensures_get, roomy, Bool.false_eq_true, if_false,
    if_neg (Int.not_lt.mpr inOp)]
  have entries := making.stored
  subst entries
  refine ⟨making.layout, rfl, making.entry, making.others, making.capacity, ?_, making.logged.update inOp blockno _, ?_⟩
  · exact (fs.log.absorb_outstanding blockno).trans making.alone
  · have longer := (fs.log.absorb_n_le blockno).2
    have listed := making.listed
    exact Nat.le_trans longer (Nat.succ_le_succ listed)

theorem inTable (making : Making sb store first few fs) (change : Inode → Inode) :
    Ensures (modifyInode 0 change) fs (fun _ after => Making sb store (change first) few after) fun _ _ => False := by
  apply (ensures_modify _).mpr
  refine ⟨making.layout, making.stored, ?_, fun ip apart => ?_, making.capacity, making.alone, ⟨making.logged.synced, making.logged.committing,
    making.logged.size, making.logged.empty⟩, making.listed⟩
  · change assign fs.inode 0 (change (fs.inode 0)) 0 = change first
    rw [assign_self, making.entry]
  · exact (congrArg Inode.ref (assign_of_ne apart _ _)).trans (making.others ip apart)

theorem now (making : Making sb store first few fs) : Ensures getCurrentTimespec fs (fun _ after => Making sb store first few after) fun _ _ => False := by
  unfold getCurrentTimespec
  rw [ensures_bind, ensures_get, ensures_bind, ensures_modify]
  apply (ensures_pure _).mpr
  exact ⟨making.layout, making.stored, making.entry, making.others, making.capacity, making.alone, ⟨making.logged.synced, making.logged.committing,
    making.logged.size, making.logged.empty⟩, making.listed⟩

/-- The copy of the entry goes to its dinode. -/
theorem iupdates (making : Making sb store first few fs) (room : few ≤ 3) : Ensures (iupdate 0) fs
    (fun _ after => ∃ now, Making sb
      (assign store (sb.iblock first.inum)
        (Dinode.write (store (sb.iblock first.inum)) (Dinode.offsetOf first.inum) { first.copy with st_ctimespec := now }))
      { first with copy := { first.copy with st_ctimespec := now } } (few + 1) after) fun _ _ => False := by
  apply Ensures.bind making.now
  intro now clocked making
  apply Ensures.bind (making.inTable _)
  intro _ stamped making
  apply ensures_bind.mpr
  apply ensures_get.mpr
  rw [making.entry, making.layout]
  apply (making.update room _ _).weaken
  intro _ after making
  exact ⟨now, making⟩

/-- In an empty table the first entry is taken. -/
theorem igets (making : Making sb store first few fs) (empty : first.ref = 0) (inum : Nat) : Ensures (iget inum) fs
    (fun ip after => ip = 0 ∧ Making sb store { first with inum, ref := 1, valid := false } few after) fun _ _ => False := by
  have zero : ∀ ip, (fs.inode ip).ref = 0 := by
    intro ip
    by_cases here : ip = 0
    · rw [here, making.entry, empty]
    · exact making.others ip here
  have unused : (List.range fs.ninode).find? (fun ip => (fs.inode ip).inum = inum ∧ 0 < (fs.inode ip).ref) = none := by
    apply List.find?_eq_none.mpr
    intro ip _
    simp [zero ip]
  have found : (List.range fs.ninode).find? (fun ip => (fs.inode ip).ref = 0) = some 0 := by
    rw [making.capacity]
    simp only [zero]
    rfl
  unfold iget
  rw [ensures_bind, ensures_get, unused, found]
  apply Ensures.bind (making.inTable _)
  intro _ after making
  apply (ensures_pure _).mpr
  exact ⟨rfl, making⟩

/-- The first inode of a disk without inodes. -/
theorem iallocs (making : Making sb store first few fs) (empty : first.ref = 0) (room : few ≤ 3) (more : ROOTINO < sb.ninodes)
    (clear : store (sb.iblock ROOTINO) = Bytes.zero) (type : BitVec 16) : Ensures (ialloc type) fs
    (fun ip after => ip = 0 ∧ Making sb
      (assign store (sb.iblock ROOTINO) (Bytes.zero.setField (Dinode.offsetOf ROOTINO) 2 type.toNat))
      { first with inum := ROOTINO, ref := 1, valid := false } (few + 1) after) fun _ _ => False := by
  have count : fs.sb.ninodes - 1 = fs.sb.ninodes - 2 + 1 := by
    have two : 1 < sb.ninodes := more
    rw [making.layout]
    omega
  have splice : (Bytes.zero : Block).splice (Dinode.offsetOf ROOTINO) (List.replicate dinodeSize 0) = Bytes.zero := by
    apply Bytes.ext
    intro index inside
    rw [Bytes.byte_splice _ _ _ inside]
    split
    · rw [List.getD_eq_getElem?_getD, List.getElem?_replicate, Bytes.byte_zero]
      split
      · rfl
      · rfl
    · rfl
  unfold ialloc
  rw [ensures_bind, ensures_get, count]
  unfold iallocFrom
  rw [ensures_bind, ensures_get, ensures_bind]
  unfold loggedRead
  rw [ensures_bind, ensures_get, ensures_pure, making.stored, making.layout, clear, if_pos (dinode_zero ROOTINO)]
  apply Ensures.bind (making.update room _ _)
  intro _ after making
  rw [clear, splice] at making
  exact making.igets empty ROOTINO

end Making

/-- The super block goes to its own block. -/
theorem writeSuperblock_spec (rested : Rested sb store first fs) : Ensures writeSuperblock fs
    (fun _ after => Rested sb (assign store 1 (Superblock.write (store 1) sb)) first after) fun _ _ => False := by
  unfold writeSuperblock
  rw [ensures_bind, ensures_get, rested.layout]
  apply Ensures.bind rested.begins
  intro _ begun making
  apply Ensures.bind (making.update (Nat.zero_le 3) _ _)
  intro _ written making
  exact making.ends

/-- A dinode that mkfs gives the root directory. -/
structure RootDinode (copy : Dinode) : Prop where
  type : copy.type = T_DIR_INODE_MYFUSE
  nlink : copy.nlink = 1
  size : copy.size = 0
  addrs : ∀ slot, copy.addrs slot = 0

/-- The block that `ialloc` leaves for the root directory. -/
def claimedRoot : Block := Bytes.zero.setField (Dinode.offsetOf ROOTINO) 2 T_DIR_INODE_MYFUSE.toNat

theorem claimedRoot_size : (Dinode.read claimedRoot (Dinode.offsetOf ROOTINO)).size = 0 := by
  unfold Dinode.read claimedRoot
  dsimp only
  rw [Bytes.field_setField_other _ (by omega)]
  exact Bytes.field_zero _ _

theorem claimedRoot_addrs (slot : Nat) : (Dinode.read claimedRoot (Dinode.offsetOf ROOTINO)).addrs slot = 0 := by
  unfold Dinode.read claimedRoot
  dsimp only
  split
  · rw [Bytes.field_setField_other _ (by omega)]
    exact Bytes.field_zero _ _
  · rfl

theorem claimedRoot_type : (Dinode.read claimedRoot (Dinode.offsetOf ROOTINO)).type = T_DIR_INODE_MYFUSE := by
  unfold Dinode.read claimedRoot
  dsimp only
  rw [Bytes.field_setField _ _ _ _ (by decide)]
  rfl

/-- `add_rootinode` on a disk without inodes. -/
theorem addRootinode_spec (rested : Rested sb store Inode.zero fs) (more : ROOTINO < sb.ninodes)
    (clear : store (sb.iblock ROOTINO) = Bytes.zero) : Ensures addRootinode fs
    (fun _ after => ∃ copy last, RootDinode copy ∧
      Rested sb (assign store (sb.iblock ROOTINO) (Dinode.write claimedRoot (Dinode.offsetOf ROOTINO) copy)) last after) fun _ _ => False := by
  unfold addRootinode
  apply Ensures.bind rested.begins
  intro _ begun making
  apply Ensures.bind (making.iallocs rfl (Nat.zero_le 3) more clear T_DIR_INODE_MYFUSE)
  intro ip taken both
  obtain ⟨here, making⟩ := both
  subst here
  have dinode : taken.dinode ROOTINO = Dinode.read claimedRoot (Dinode.offsetOf ROOTINO) := by
    unfold FS.dinode
    rw [making.stored, making.layout, assign_self]
    rfl
  have root := making.entry
  unfold assert
  rw [ensures_bind, ensures_get, root, if_pos rfl, ensures_bind, ensures_pure]
  -- `ilock` reads the dinode that `ialloc` has just marked.
  have locks : Ensures (ilock 0) taken (fun _ after => Making sb (assign store (sb.iblock ROOTINO) claimedRoot)
      { inum := ROOTINO, ref := 1, locked := true, valid := true, copy := Dinode.read claimedRoot (Dinode.offsetOf ROOTINO) } 1 after)
      fun _ _ => False := by
    unfold ilock
    rw [ensures_bind, ensures_get, root]
    simp only [Inode.zero, Int.lt_irrefl, if_false, Bool.false_eq_true, dinode, claimedRoot_type]
    apply Ensures.bind (making.inTable _)
    intro _ locked making
    unfold loggedRead
    rw [ensures_bind, ensures_bind, ensures_get, ensures_pure]
    apply Ensures.bind (making.inTable _)
    intro _ read making
    rw [dinode] at making
    exact (ensures_pure ()).mpr making
  apply Ensures.bind locks
  intro _ locked making
  apply Ensures.bind (making.inTable _)
  intro _ typed making
  apply Ensures.bind making.now
  intro now clocked making
  apply Ensures.bind (making.inTable _)
  intro _ timed making
  apply Ensures.bind (making.iupdates (by decide))
  intro _ updated written
  obtain ⟨changed, making⟩ := written
  dsimp only at making
  rw [assign_self, assign_twice] at making
  unfold iunlockput iunlock
  rw [Exec.bind_assoc]
  apply Ensures.bind (making.inTable _)
  intro _ unlocked making
  unfold iput
  -- The directory has a link, so that its blocks stay.
  have linked : ¬ ((1 : BitVec 16) = 0) := by decide
  rw [Exec.bind_assoc, ensures_bind, ensures_get, making.entry]
  dsimp only
  rw [if_neg fun all => linked all.2.2]
  apply Ensures.bind (making.inTable _)
  intro _ put making
  apply making.ends.weaken
  intro _ after rested
  refine ⟨_, _, ?_, rested⟩
  exact ⟨rfl, rfl, claimedRoot_size, claimedRoot_addrs⟩

/-! The disk afterwards. -/

/-- The other dinodes of the root's block are not in use. -/
theorem rootBlock_other (copy : Dinode) {other : Nat} (block : other / IPB = ROOTINO / IPB) (apart : other ≠ ROOTINO) :
    Dinode.read (Dinode.write claimedRoot (Dinode.offsetOf ROOTINO) copy) (Dinode.offsetOf other) = Dinode.read Bytes.zero (Dinode.offsetOf other) := by
  rw [Dinode.read_write_other _ _ block.symm apart]
  apply Dinode.read_congr
  intro index low high
  apply Dinode.byte_setField_outside
  simp only [Dinode.offsetOf, IPB, dinodeSize, BSIZE, ROOTINO] at *
  omega

/-- A formatted disk with its super block and a log that was never used. -/
structure Made (sb : Superblock) (disk : Nat → Block) : Prop extends Formatted sb disk where
  superblock : Superblock.read (disk SUPERBLOCK_ID) = sb
  log : ∀ blockno, sb.logstart ≤ blockno → blockno < sb.logstart + sb.nlog → disk blockno = Bytes.zero

/-- What the layout says of the super block and the inodes. -/
structure Arranged (sb : Superblock) : Prop where
  valid : sb.Valid
  uints : sb.Uints
  behind : SUPERBLOCK_ID < sb.logstart
  root : ROOTINO < sb.ninodes

theorem Arranged.iblock {sb : Superblock} (arranged : Arranged sb) {inum : Nat} (inside : inum < sb.ninodes) :
    sb.logstart + sb.nlog ≤ sb.iblock inum ∧ sb.iblock inum < sb.bmapstart := by
  have before := arranged.valid.log_before
  have after := arranged.valid.inodes_before
  simp only [Superblock.iblock, IPB, BSIZE, dinodeSize] at *
  omega

theorem Arranged.meta {sb : Superblock} (arranged : Arranged sb) {blockno : Nat} (low : blockno < sb.bmapstart) : blockno < sb.nmeta :=
  Nat.lt_of_lt_of_le low (Nat.le_trans (Nat.le_add_right _ _) arranged.valid.bitmap_before)

/-- The writes of mkfs behind the bitmap. -/
theorem made_of_writes {sb : Superblock} (arranged : Arranged sb) {store : Nat → Block} {copy : Dinode} (root : RootDinode copy)
    (clear : ∀ blockno < sb.bmapstart, blockno ≠ SUPERBLOCK_ID → store blockno = Bytes.zero)
    (bits : ∀ blockno < sb.nbitmap * BPB, bitOf sb store blockno = true ↔ blockno < sb.nmeta ∨ sb.size ≤ blockno) :
    Made sb (assign (assign store SUPERBLOCK_ID (Superblock.write (store SUPERBLOCK_ID) sb)) (sb.iblock ROOTINO)
      (Dinode.write claimedRoot (Dinode.offsetOf ROOTINO) copy)) := by
  have behind := arranged.behind
  have rootBlock := arranged.iblock arranged.root
  -- The dinode of each inode: the root's, and none in use beside it.
  have others : ∀ inum < sb.ninodes, inum ≠ ROOTINO →
      Dinode.read (assign (assign store SUPERBLOCK_ID (Superblock.write (store SUPERBLOCK_ID) sb)) (sb.iblock ROOTINO)
        (Dinode.write claimedRoot (Dinode.offsetOf ROOTINO) copy) (sb.iblock inum)) (Dinode.offsetOf inum) =
      Dinode.read Bytes.zero (Dinode.offsetOf inum) := by
    intro inum inside apart
    have place := arranged.iblock inside
    by_cases here : sb.iblock inum = sb.iblock ROOTINO
    · rw [here, assign_self]
      exact rootBlock_other copy (Nat.add_right_cancel here) apart
    · rw [assign_of_ne here, assign_of_ne (by omega), clear _ place.2 (by omega)]
  have blockless : Blockless sb (assign (assign store SUPERBLOCK_ID (Superblock.write (store SUPERBLOCK_ID) sb)) (sb.iblock ROOTINO)
      (Dinode.write claimedRoot (Dinode.offsetOf ROOTINO) copy)) := by
    constructor
    · intro blockno inside
      have high : sb.bmapstart ≤ sb.bblock blockno := Nat.le_add_left _ _
      rw [bitOf, assign_of_ne (by omega), assign_of_ne (by omega)]
      have set := bits blockno inside
      unfold metaBits
      rw [Bool.eq_iff_iff, decide_eq_true_iff]
      exact set
    · intro inum inside used slot
      by_cases same : inum = ROOTINO
      · rw [same, assign_self]
        by_cases small : slot < NBLOCKADDR
        · rw [Dinode.addrs_read_write _ _ (Dinode.offsetOf_fits _) small, root.addrs]
          rfl
        · simp only [Dinode.read, if_neg small]
      · rw [others inum inside same] at used
        exact absurd (dinode_zero inum) used
  refine ⟨⟨blockless, ?_, ?_, ?_, ?_⟩, ?_, ?_⟩
  · rw [assign_self, Dinode.type_read_write _ _ (Dinode.offsetOf_fits _)]
    exact root.type
  · rw [assign_self, Dinode.nlink_read_write _ _ (Dinode.offsetOf_fits _)]
    exact root.nlink
  · rw [assign_self, Dinode.size_read_write _ _ (Dinode.offsetOf_fits _), root.size]
    rfl
  · intro inum inside apart
    rw [others inum inside apart]
    exact dinode_zero inum
  · rw [assign_of_ne (by omega), assign_self]
    exact Superblock.read_write _ arranged.uints
  · intro blockno low high
    rw [assign_of_ne (by omega), assign_of_ne (by omega)]
    exact clear blockno (by omega) (by omega)

/-- mkfs on any disk: it returns, and what it has written is on the disk. -/
theorem mkfs_spec {sb : Superblock} (arranged : Arranged sb) (disk : Nat → Block) (clock : Nat → Timespec) :
    Ensures mkfs (boot sb (mkfsRaw sb disk) clock) (fun _ image => Made sb image.device) fun _ _ => False := by
  have idle := boot_idle sb (mkfsRaw sb disk) clock arranged.valid.log_size
  have bitmap := mkfsBitmap_spec idle (by rw [boot_sb]; exact arranged.valid.data_inside) (by rw [boot_sb]; exact arranged.valid.uint_size)
  apply Ensures.bind ((bitmap.and (mkfsBitmap_aside (boot sb (mkfsRaw sb disk) clock))).mono (fun _ _ both => both) fun _ _ both => both.1)
  intro _ image both
  obtain ⟨made, aside⟩ := both
  obtain ⟨layout, -, bits⟩ := made
  rw [boot_sb] at layout bits
  have begun : FS.Logged { boot sb (mkfsRaw sb disk) clock with ninode := NINODE_INIT, inode := fun _ => Inode.zero, bmap := BmapCache.zero } := by
    refine ⟨fun blockno changed => ?_, idle.committing, idle.size, fun _ => idle.block⟩
    dsimp only at changed
    rw [boot_store, boot_device] at changed
    exact absurd rfl changed
  have rested : Rested sb image.store Inode.zero image := by
    refine ⟨layout, rfl, by rw [aside.inode], fun ip _ => by rw [aside.inode]; rfl, aside.ninode, ?_, aside.logged begun⟩
    rw [aside.outstanding, Int.add_zero]
    exact idle.outstanding
  have clear : ∀ blockno < sb.bmapstart, blockno ≠ SUPERBLOCK_ID → image.store blockno = Bytes.zero := by
    intro blockno low apart
    have same := aside.store blockno
    dsimp only at same
    rw [boot_sb, boot_store] at same
    rw [same low]
    exact mkfsRaw_meta arranged.valid (arranged.meta low) apart
  have rootBlock := arranged.iblock arranged.root
  have behind : 1 < sb.logstart := arranged.behind
  apply Ensures.bind (writeSuperblock_spec rested)
  intro _ written rested
  have apart : sb.iblock ROOTINO ≠ 1 := by omega
  apply (addRootinode_spec rested arranged.root ?_).weaken
  · intro _ after rooted
    obtain ⟨copy, _, root, rested⟩ := rooted
    rw [rested.flushed]
    exact made_of_writes arranged root clear bits
  · rw [assign_of_ne apart]
    exact clear _ rootBlock.2 apart

end FS

end Myfuse
