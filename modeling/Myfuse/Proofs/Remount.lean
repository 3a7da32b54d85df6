import Myfuse.Proofs.CrashAtomicity
import Myfuse.Proofs.DiskLayout
import Myfuse.Proofs.Formatted

/-! Mounting a disk after a crash or after mkfs: the log recovers, the bitmap is read, and
the files are those of the recovered image. -/

namespace Myfuse
open Library Library.Exec

namespace FS
variable {fs : FS}

/-- The bitmap is read in an operation that logs nothing. -/
theorem refreshFrom_exact (idle : Idle fs.log) (count : Nat) : Ensures (do beginOp; refreshFrom fs.sb count 0 0; endOp) fs
    (fun _ after => ∃ bmap', after =
      { fs with bmap := bmap', n_log_wrote := 0, history := .committed fs.device :: .endOp :: .beginOp :: fs.history })
    fun _ _ => False := by
  apply Ensures.bind (beginOp_spec idle.admits)
  intro _ begun begunIs
  have nothing : Filled fs.sb begun.store 0 begun.bmap :=
    ⟨fun _ none => absurd none (Nat.not_lt_zero _), fun _ none => absurd none (Nat.not_lt_zero _), fun _ none => absurd none (Nat.not_lt_zero _)⟩
  have same : begun.sb = fs.sb := by rw [begunIs]
  apply Ensures.bind ((refreshFrom_spec same nothing).mono (fun _ _ read => read) fun _ _ => False.elim)
  intro _ read readIs
  obtain ⟨bmap', readIs, -⟩ := readIs
  have log : read.log = { fs.log with outstanding := 1 } := by
    rw [readIs, begunIs, idle.outstanding]
    rfl
  apply (endOp_spec (by rw [log]; exact idle.committing)).weaken
  intro _ after afterIs
  rw [if_pos (by rw [log])] at afterIs
  have disk : read.closed.committedDisk = fs.device := by
    funext blockno
    have listed : blockno ∉ read.closed.log.block := by
      change blockno ∉ read.log.block
      rw [log]
      dsimp only
      rw [idle.block]
      exact List.not_mem_nil
    unfold committedDisk
    rw [if_neg listed]
    change read.device blockno = _
    rw [readIs, begunIs]
  have closes : ({ read.closed.log with block := [] } : Fslog) = fs.log := by
    change ({ read.log with outstanding := read.log.outstanding - 1, block := [] } : Fslog) = fs.log
    rw [log, ← idle.block]
    dsimp only
    rw [Int.sub_self, ← idle.outstanding]
  refine ⟨bmap', ?_⟩
  rw [afterIs]
  unfold afterCommit
  rw [disk, closes]
  unfold closed
  rw [readIs, begunIs]

/-- An idle file system whose bitmap is read changes in memory only. -/
theorem blockAllocatorRefresh_exact (idle : Idle fs.log) : Ensures (blockAllocatorRefresh fs.sb) fs
    (fun _ after => ∃ bmap', after =
      { fs with bmap := bmap', n_log_wrote := 0, history := .committed fs.device :: .endOp :: .beginOp :: fs.history })
    fun _ _ => False := by
  unfold blockAllocatorRefresh modifyBmap
  rw [ensures_bind, ensures_modify]
  generalize started : ({ fs with bmap := _ } : FS) = current
  have sb : fs.sb = current.sb := by rw [← started]
  rw [sb]
  apply (refreshFrom_exact (by rw [← started]; exact idle) _).weaken
  intro _ after afterIs
  obtain ⟨bmap', afterIs⟩ := afterIs
  refine ⟨bmap', ?_⟩
  rw [afterIs, ← started]

theorem inodeInit_exact (idle : Idle fs.log) : Ensures (inodeInit fs.sb) fs
    (fun _ after => ∃ bmap', after =
      { fs with
        ninode := NINODE_INIT, inode := fun _ => Inode.zero, bmap := bmap', n_log_wrote := 0
        history := .committed fs.device :: .endOp :: .beginOp :: fs.history })
    fun _ _ => False := by
  unfold inodeInit
  rw [ensures_bind, ensures_modify]
  have idle : Idle ({ fs with ninode := NINODE_INIT, inode := fun _ => Inode.zero, bmap := BmapCache.zero } : FS).log := idle
  exact blockAllocatorRefresh_exact idle

theorem boot_history (sb : Superblock) (disk : Nat → Block) (clock : Nat → Timespec) : (boot sb disk clock).history = [] := by
  unfold boot
  rfl

/-- A device whose super block is in place and whose log recovers to `image`. -/
structure Mountable (sb : Superblock) (image device : Nat → Block) : Prop where
  superblock : Superblock.read (device SUPERBLOCK_ID) = sb
  magic : sb.magic = FSMAGIC
  recovers : Recoverable sb.logstart sb.nlog device image

/-- A file system that has just been mounted from a device that recovers to `image`. -/
structure Recovered (sb : Superblock) (image : Nat → Block) (fs : FS) : Prop where
  layout : fs.sb = sb
  stored : ∀ blockno, OutsideLog sb.logstart sb.nlog blockno → fs.store blockno = image blockno
  flushed : fs.device = fs.store
  idle : Idle fs.log
  summaries : Summaries fs.sb fs.store fs.bmap
  first : fs.bmap.first_free_cache = 0
  inode : fs.inode = fun _ => Inode.zero
  ninode : fs.ninode = NINODE_INIT
  files : fs.files = fun _ => File.zero
  nfile : fs.nfile = NFILE_INIT
  history : fs.history = [.committed fs.store, .endOp, .beginOp]

/-- `inode_init` and `file_init` on what the recovery left. -/
theorem inits_mount {sb : Superblock} (size : sb.nlog = NLOG) {image disk : Nat → Block} (clock : Nat → Timespec)
    (stored : ∀ blockno, OutsideLog sb.logstart sb.nlog blockno → disk blockno = image blockno) :
    Ensures (do inodeInit sb; fileInit) (boot sb disk clock) (fun _ after => Recovered sb image after) fun _ _ => False := by
  have idle := boot_idle sb disk clock size
  have refreshes := inodeInit_exact idle
  rw [boot_sb] at refreshes
  have summarized := inodeInit_spec idle
  rw [boot_sb, boot_store] at summarized
  apply Ensures.bind (refreshes.and summarized |>.mono (fun _ _ both => both) fun _ _ both => both.1)
  intro _ after both
  obtain ⟨exact, layout, store, idle, summaries, first⟩ := both
  obtain ⟨bmap', afterIs⟩ := exact
  unfold fileInit
  apply (ensures_modify _).mpr
  refine ⟨layout, fun blockno outside => ?_, ?_, idle, ?_, first, ?_, ?_, rfl, rfl, ?_⟩
  · exact (congrFun store blockno).trans (stored blockno outside)
  · change after.device = after.store
    rw [store, afterIs]
    exact boot_device sb disk clock
  · change Summaries after.sb after.store after.bmap
    rw [layout, store]
    exact summaries
  · change after.inode = _
    rw [afterIs]
  · change after.ninode = _
    rw [afterIs]
  · change after.history = [.committed after.store, .endOp, .beginOp]
    rw [store, afterIs, boot_device, boot_history]

/-- Mounting never fails on such a device, whatever the cache drops meanwhile. -/
theorem myfuseInit_mounts {sb : Superblock} {image device : Nat → Block} (mountable : Mountable sb image device) (size : sb.nlog = NLOG)
    (recycled : Nat → Nat → Bool) (clock : Nat → Timespec) : ∃ fs, myfuseInit recycled device clock = .ok fs ∧ Recovered sb image fs := by
  have room : 0 < sb.nlog := by
    rw [size]
    decide
  obtain ⟨v, leads, disk, -⟩ := recover_leads recycled mountable.recovers
  obtain ⟨_, recovered, recovery, ran⟩ := (Ensures.ran leads).possible.resolve_right fun impossible => impossible.elim fun _ none => none.elim fun _ none => none
  obtain ⟨-, seen⟩ := recovery
  have recoveredDisk : recovered.disk = v.disk := congrArg CacheView.disk seen
  have stored : ∀ blockno, OutsideLog sb.logstart sb.nlog blockno → recovered.disk blockno = image blockno := by
    intro blockno outside
    rw [recoveredDisk, disk]
    unfold recoverWrites
    rw [applyWrites_append, applyWrites_singleton, Function.update_of_ne (outside_start room outside)]
    exact mountable.recovers.agrees blockno outside
  obtain ⟨_, fs, mounted, inits⟩ := (Ensures.ran (inits_mount size clock stored)).possible.resolve_right fun impossible =>
    impossible.elim fun _ none => none.elim fun _ none => none
  refine ⟨fs, ?_, mounted⟩
  unfold myfuseInit
  rw [mountable.superblock]
  dsimp only
  rw [if_neg fun different => different mountable.magic, ran]
  dsimp only
  rw [inits]

/-! A disk that mkfs has made. -/

theorem Recovered.absent {sb : Superblock} {image : Nat → Block} (mounted : Recovered sb image fs) (inum : Nat) : fs.entryOf inum = none := by
  unfold entryOf
  apply List.find?_eq_none.mpr
  intro ip _
  simp [mounted.inode, Inode.zero]

theorem Recovered.unused {sb : Superblock} {image : Nat → Block} (mounted : Recovered sb image fs) (ip : Nat) : ¬ fs.Live ip := by
  intro live
  have referenced := live.2
  rw [mounted.inode] at referenced
  exact absurd referenced (Int.lt_irrefl 0)

theorem Recovered.table {sb : Superblock} {image : Nat → Block} (mounted : Recovered sb image fs) : fs.TableOk :=
  ⟨fun ip live => absurd live (mounted.unused ip), fun ip _ live => absurd live (mounted.unused ip)⟩

/-- The layout that mkfs computes for a disk with room for a data block. -/
theorem initSuperBlock_arranged {disk_size : Nat} (room : 1041 ≤ disk_size) (uint : disk_size < 2 ^ 32) : Arranged (initSuperBlock disk_size) := by
  have fits := (meta_fits_iff disk_size).mpr room
  have nblocks : (initSuperBlock disk_size).nblocks = disk_size - ((initSuperBlock disk_size).bmapstart + (initSuperBlock disk_size).nbitmap) := by
    rw [initSuperBlock_data]
    exact uint_sub (Nat.le_of_lt fits) uint
  have size : (initSuperBlock disk_size).size = disk_size := rfl
  refine ⟨⟨rfl, Nat.le_refl _, ?_, ?_, ?_, uint⟩, initSuperBlock_stored uint, Nat.lt_succ_self 1, ?_⟩
  · simp only [initSuperBlock, IPB, dinodeSize, BSIZE]
    omega
  · unfold Superblock.nmeta
    omega
  · omega
  · simp only [initSuperBlock, ROOTINO, IPB, BSIZE, dinodeSize]
    omega

/-- Agreement outside the log is enough for a disk to be formatted. -/
theorem Formatted.elsewhere {sb : Superblock} (arranged : Arranged sb) {image disk : Nat → Block} (formatted : Formatted sb image)
    (agrees : ∀ blockno, OutsideLog sb.logstart sb.nlog blockno → disk blockno = image blockno) : Formatted sb disk := by
  have dinodes : ∀ inum < sb.ninodes, disk (sb.iblock inum) = image (sb.iblock inum) := by
    intro inum inside
    exact agrees _ (.inr (arranged.iblock inside).1)
  have bits : ∀ blockno, bitOf sb disk blockno = bitOf sb image blockno := by
    intro blockno
    have high : sb.bmapstart ≤ sb.bblock blockno := Nat.le_add_left _ _
    have root := arranged.iblock arranged.root
    unfold bitOf
    rw [agrees _ (.inr (by omega))]
  refine ⟨⟨fun blockno inside => ?_, fun inum inside => ?_⟩, ?_, ?_, ?_, fun inum inside => ?_⟩
  · rw [bits]
    exact formatted.bits blockno inside
  · rw [dinodes inum inside]
    exact formatted.addrs inum inside
  · rw [dinodes ROOTINO arranged.root]
    exact formatted.rootType
  · rw [dinodes ROOTINO arranged.root]
    exact formatted.rootLinks
  · rw [dinodes ROOTINO arranged.root]
    exact formatted.rootSize
  · rw [dinodes inum inside]
    exact formatted.unused inum inside

/-- A mounted empty file system is well formed when its first bitmap block has a bit for a data block. -/
theorem Recovered.wellFormed_iff {sb : Superblock} {image : Nat → Block} (mounted : Recovered sb image fs) (valid : sb.Valid)
    (blockless : Blockless sb fs.store) (data : sb.nmeta < sb.size) : fs.WellFormed ↔ sb.nmeta < BPB := by
  have layout := mounted.layout
  subst layout
  constructor
  · intro wellFormed
    have nonempty := wellFormed.free.1
    have nonempty : 0 < fs.sb.nbitmap := Nat.lt_of_le_of_lt (Nat.zero_le _) nonempty
    obtain ⟨j, low, clear⟩ := (firstFree_zero_iff nonempty mounted.first).mp wellFormed.free
    have covered : j < fs.sb.nbitmap * BPB := Nat.lt_of_lt_of_le low (Nat.le_mul_of_pos_left BPB nonempty)
    have bit := blockless.bits j covered
    rw [bitOf, Superblock.bblock, Nat.div_eq_of_lt low, Nat.zero_add, Nat.mod_eq_of_lt low, clear, metaBits] at bit
    have free := of_decide_eq_false bit.symm
    omega
  · intro first
    exact wellFormed_blockless valid blockless mounted.absent mounted.idle mounted.table mounted.summaries
      (blockless.free ⟨fs.sb.nmeta, first, Nat.le_refl _, data⟩ mounted.first)

theorem initSuperBlock_room {disk_size : Nat} (room : 1041 ≤ disk_size) (uint : disk_size < 2 ^ 32) :
    (initSuperBlock disk_size).nmeta < (initSuperBlock disk_size).size := by
  have fits := (meta_fits_iff disk_size).mpr room
  have size : (initSuperBlock disk_size).size = disk_size := rfl
  have nblocks := initSuperBlock_data disk_size
  rw [uint_sub (Nat.le_of_lt fits) uint] at nblocks
  unfold Superblock.nmeta
  omega

/-- What mkfs has made mounts, whatever the region behind the empty header has. -/
theorem Made.mounts {sb : Superblock} {image device : Nat → Block} (made : Made sb image) (arranged : Arranged sb) (magic : sb.magic = FSMAGIC)
    (empty : headerN (device sb.logstart) = 0) (agrees : ∀ blockno, OutsideLog sb.logstart sb.nlog blockno → device blockno = image blockno)
    (recycled : Nat → Nat → Bool) (clock : Nat → Timespec) :
    ∃ fs, myfuseInit recycled device clock = .ok fs ∧ Recovered sb image fs ∧ Formatted sb fs.store := by
  have superblock : Superblock.read (device SUPERBLOCK_ID) = sb := by
    rw [agrees _ (.inl arranged.behind)]
    exact made.superblock
  have mountable : Mountable sb image device := ⟨superblock, magic, recoverable_of_empty (Int.le_of_eq empty) agrees⟩
  obtain ⟨fs, mounts, mounted⟩ := myfuseInit_mounts mountable arranged.valid.log_size recycled clock
  exact ⟨fs, mounts, mounted, made.toFormatted.elsewhere arranged mounted.stored⟩

end FS
end Myfuse
