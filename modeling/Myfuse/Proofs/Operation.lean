import Myfuse.Proofs.DinodeFormat
import Myfuse.Proofs.FindOrAlloc
import Myfuse.Proofs.LogUse

/-! A running operation on one inode: the state its steps keep, what the commits
inside it leave on the disk, and the step that writes the inode itself. -/

namespace Myfuse
open Library Library.Exec

/-! A disk image and what it holds. -/

/-- What the slots of a dinode on the disk hold. -/
def imageRoots (sb : Superblock) (disk : Nat → Block) (inum slot : Nat) : Nat :=
  let dinode := Dinode.read (disk (sb.iblock inum)) (Dinode.offsetOf inum)
  if inum < sb.ninodes ∧ slot < NBLOCKADDR ∧ dinode.type ≠ T_UNUSE_INODE_MYFUSE then dinode.addrs slot else 0

def imageHeld (sb : Superblock) (disk : Nat → Block) : Placement Nat :=
  BlockTree.place levels (imageRoots sb disk) fun blockno index => FS.entry (disk blockno) index

/-- Blocks reached from the dinodes of an image are data blocks reached once, and the
bits of the data blocks say which are reached, up to those lost before. -/
def Consistent (lost : Nat → Prop) (sb : Superblock) (disk : Nat → Block) : Prop :=
  Owned sb.InData lost (imageHeld sb disk) (bitOf sb disk)

/-- At every restart of a truncation the slots in memory were those on disk. -/
def RestartsClean : List Event → Prop
  | [] => True
  | .restart memory disk :: older => (∀ slot < NBLOCKADDR, memory slot = disk slot) ∧ RestartsClean older
  | _ :: older => RestartsClean older

/-- Every commit that comes after clean restarts only has left a consistent image. -/
def CommitsSound (lost : Nat → Prop) (sb : Superblock) : List Event → Prop
  | [] => True
  | .committed disk :: older => (RestartsClean older → Consistent lost sb disk) ∧ CommitsSound lost sb older
  | _ :: older => CommitsSound lost sb older

theorem restartsClean_cuts (history : List Event) : RestartsClean (history.filter Event.isCut) ↔ RestartsClean history := by
  induction history with
  | nil => exact Iff.rfl
  | cons event older ih => cases event <;> simp [RestartsClean, List.filter_cons, Event.isCut, ih]

theorem commitsSound_cuts (lost : Nat → Prop) (sb : Superblock) (history : List Event) :
    CommitsSound lost sb (history.filter Event.isCut) ↔ CommitsSound lost sb history := by
  induction history with
  | nil => exact Iff.rfl
  | cons event older ih => cases event <;> simp [CommitsSound, List.filter_cons, Event.isCut, ih, restartsClean_cuts]

theorem commitsSound_congr {lost : Nat → Prop} {sb : Superblock} {history history' : List Event}
    (same : history'.filter Event.isCut = history.filter Event.isCut) (sound : CommitsSound lost sb history) :
    CommitsSound lost sb history' := by
  rw [← commitsSound_cuts, same, commitsSound_cuts]
  exact sound

namespace FS
variable {origin : Origin} {fs after : FS} {ip : Nat}

/-- Type and slots of an entry are those of its dinode. -/
structure Clean (fs : FS) (ip : Nat) : Prop where
  type : (fs.dinode (fs.inode ip).inum).type = (fs.inode ip).copy.type
  used : (fs.inode ip).copy.type ≠ T_UNUSE_INODE_MYFUSE
  addrs : ∀ slot < NBLOCKADDR, (fs.dinode (fs.inode ip).inum).addrs slot = (fs.inode ip).copy.addrs slot

/-- The dinode has what the entry has, up to the times. -/
structure Agrees (fs : FS) (ip : Nat) : Prop where
  type : (fs.dinode (fs.inode ip).inum).type = (fs.inode ip).copy.type
  nlink : (fs.dinode (fs.inode ip).inum).nlink = (fs.inode ip).copy.nlink
  size : (fs.dinode (fs.inode ip).inum).size = sizeT (fs.inode ip).copy.size
  addrs : ∀ slot < NBLOCKADDR, (fs.dinode (fs.inode ip).inum).addrs slot = (fs.inode ip).copy.addrs slot

/-- Changes not committed are listed. -/
def Synced (fs : FS) : Prop := ∀ blockno, fs.store blockno ≠ fs.device blockno → blockno ∈ fs.log.block

/-- What a commit during an operation on `ip` relies on. -/
structure Sound (origin : Origin) (ip : Nat) (fs : FS) : Prop where
  synced : fs.Synced
  others : ∀ ip', ip' ≠ ip → fs.Loaded ip' → fs.Clean ip'
  type : (fs.dinode (fs.inode ip).inum).type = (fs.inode ip).copy.type
  used : (fs.inode ip).copy.type ≠ T_UNUSE_INODE_MYFUSE
  commits : CommitsSound origin.lost fs.sb fs.history

/-- An operation is open. A roomy one is alone, and the log lists no more than it wrote. -/
structure Op (origin : Origin) (fs : FS) : Prop where
  committing : fs.log.committing = false
  inOp : 1 ≤ fs.log.outstanding
  size : fs.log.size = NLOG
  alone : origin.roomy → fs.log.outstanding = 1
  listed : origin.roomy → fs.log.n ≤ fs.n_log_wrote

/-- An operation on `ip` is running. -/
structure Running (origin : Origin) (ip : Nat) (fs : FS) : Prop where
  volume : fs.Volume origin
  loaded : fs.Loaded ip
  op : fs.Op origin
  sound : origin.watch → fs.Sound origin ip

/-- A roomy operation stops for want of a free block, or at the limit of a file; the
commits so far are sound. -/
def Stops (origin : Origin) (reason : Exit) (after : FS) : Prop :=
  (origin.roomy → reason = .errExit .noFreeSpace ∨
    (reason = .errExit .inodeTooBig ∨ reason = .errExit .inodeTooBigFree) ∧ ¬ origin.bounded) ∧
  (origin.watch → CommitsSound origin.lost after.sb after.history)

theorem Op.use {count : Nat} (op : fs.Op origin) (used : LogUse count fs after) : after.Op origin where
  committing := used.committing.trans op.committing
  inOp := by rw [used.outstanding]; exact op.inOp
  size := used.size.trans op.size
  alone roomy := used.outstanding.trans (op.alone roomy)
  listed roomy := by
    have := op.listed roomy
    have := used.listed
    omega

/-- A log that few writes have gone to has room. -/
theorem Op.room (op : fs.Op origin) (roomy : origin.roomy) (few : fs.n_log_wrote < NLOG - 1) : fs.log.tooBig = false := by
  have := op.listed roomy
  simp only [NLOG, MAXOPBLOCKS] at few
  simp only [Fslog.tooBig, op.size, Bool.or_eq_false_iff, decide_eq_false_iff_not, NLOG, MAXOPBLOCKS]
  omega

/-- A routine that only adds to the log keeps the operation running. -/
theorem Running.use {count : Nat} (running : fs.Running origin ip) (volume : after.Volume origin)
    (keeps : Keeps ip fs after) (used : LogUse count fs after) (lists : Lists fs after) : after.Running origin ip where
  volume := volume
  loaded := keeps.loaded.mpr running.loaded
  op := running.op.use used
  sound watching := by
    have sound := running.sound watching
    refine ⟨fun blockno changed => ?_, fun ip' apart loaded => ?_, ?_, ?_, ?_⟩
    · rw [used.device] at changed
      by_cases here : after.store blockno = fs.store blockno
      · exact lists.block _ (sound.synced blockno (here ▸ changed))
      · exact lists.store blockno here
    · have clean := sound.others ip' apart (keeps.loaded.mp loaded)
      have inside := running.volume.table.inside ip' (keeps.loaded.mp loaded).1
      have other : (fs.inode ip').inum ≠ (fs.inode ip).inum := fun same =>
        apart (running.volume.table.unique _ _ (keeps.loaded.mp loaded).1 running.loaded.1 same)
      constructor
      · rw [keeps.others ip' apart, keeps.dinodes _ inside other]
        exact clean.type
      · rw [keeps.others ip' apart]
        exact clean.used
      · rw [keeps.others ip' apart, keeps.dinodes _ inside other]
        exact clean.addrs
    · rw [keeps.inum, keeps.type]
      exact keeps.kind sound.type
    · rw [keeps.type]
      exact sound.used
    · rw [keeps.sb]
      exact commitsSound_congr used.cuts sound.commits

/-- Writes to the log commit nothing. -/
theorem Running.commits {count : Nat} (running : fs.Running origin ip) (used : LogUse count fs after) :
    origin.watch → CommitsSound origin.lost after.sb after.history := fun watching => by
  rw [used.sb]
  exact commitsSound_congr used.cuts (running.sound watching).commits

theorem Running.stops {count : Nat} {reason : Exit} (running : fs.Running origin ip) (used : LogUse count fs after)
    (why : origin.roomy → reason = .errExit .noFreeSpace ∨
      (reason = .errExit .inodeTooBig ∨ reason = .errExit .inodeTooBigFree) ∧ ¬ origin.bounded) :
    Stops origin reason after := ⟨why, running.commits used⟩

/-- With room in the log a routine stops for want of a free block only. -/
theorem Running.allocStops {count : Nat} {reason : Exit} (running : fs.Running origin ip) (used : LogUse count fs after)
    (few : origin.roomy → fs.n_log_wrote + count < NLOG - 1) (fails : AllocFails reason after) : Stops origin reason after := by
  refine running.stops used fun roomy => .inl (fails.resolve_right fun full => ?_)
  have high := used.high
  have few := few roomy
  have room := (running.op.use used).room roomy (by omega)
  rw [full.2] at room
  cases room

/-! Restarts. -/

/-- A commit when no other operation is open, and a fresh operation. -/
def restarted (fs : FS) : FS :=
  if fs.log.outstanding = 1 then
    { fs with
      device := fs.committedDisk
      log := { fs.log with block := [] }
      n_log_wrote := 0
      history := .beginOp :: .committed fs.committedDisk :: .endOp :: fs.history }
  else { fs with n_log_wrote := 0, history := .beginOp :: .endOp :: fs.history }

section
variable (fs : FS)

@[simp] theorem restarted_sb : fs.restarted.sb = fs.sb := by unfold restarted; split <;> rfl

@[simp] theorem restarted_store : fs.restarted.store = fs.store := by unfold restarted; split <;> rfl

@[simp] theorem restarted_inode : fs.restarted.inode = fs.inode := by unfold restarted; split <;> rfl

@[simp] theorem restarted_ninode : fs.restarted.ninode = fs.ninode := by unfold restarted; split <;> rfl

@[simp] theorem restarted_bmap : fs.restarted.bmap = fs.bmap := by unfold restarted; split <;> rfl

@[simp] theorem restarted_outstanding : fs.restarted.log.outstanding = fs.log.outstanding := by unfold restarted; split <;> rfl

@[simp] theorem restarted_committing : fs.restarted.log.committing = fs.log.committing := by unfold restarted; split <;> rfl

@[simp] theorem restarted_size : fs.restarted.log.size = fs.log.size := by unfold restarted; split <;> rfl

@[simp] theorem restarted_n_log_wrote : fs.restarted.n_log_wrote = 0 := by unfold restarted; split <;> rfl

theorem restarted_quiet : Quiet fs fs.restarted := by
  unfold restarted
  split
  · exact ⟨[.beginOp, .committed fs.committedDisk, .endOp], rfl, by simp [Event.isNeutral]⟩
  · exact ⟨[.beginOp, .endOp], rfl, by simp [Event.isNeutral]⟩

end

theorem committedDisk_synced (synced : fs.Synced) : fs.committedDisk = fs.store := by
  funext blockno
  unfold committedDisk
  split
  · rfl
  next absent =>
    by_contra changed
    exact absent (synced blockno fun same => changed same.symm)

/-- When every loaded entry is clean the block maps are those of the image. -/
theorem imageHeld_of_clean (clean : ∀ ip, fs.Loaded ip → fs.Clean ip) : imageHeld fs.sb fs.store = fs.held := by
  have roots : imageRoots fs.sb fs.store = fs.roots := by
    funext inum slot
    unfold imageRoots roots current
    simp only
    cases found : fs.entryOf inum with
    | none => simp only [Option.isSome_none, Bool.false_eq_true, false_or, dinode]
    | some ip =>
      obtain ⟨loaded, rfl⟩ := entryOf_some found
      have clean := clean ip loaded
      have type := clean.type
      have addrs := clean.addrs
      unfold dinode at type addrs
      simp only [type, clean.used, Option.isSome_some, true_or, ne_eq, not_false_eq_true, and_true]
      by_cases inside : (fs.inode ip).inum < fs.sb.ninodes ∧ slot < NBLOCKADDR
      · rw [if_pos inside, if_pos inside, addrs slot inside.2]
      · rw [if_neg inside, if_neg inside]
  unfold imageHeld FS.held
  rw [roots]

theorem consistent_of_clean (volume : fs.Volume origin) (clean : ∀ ip, fs.Loaded ip → fs.Clean ip) :
    Consistent origin.lost fs.sb fs.store := by
  unfold Consistent
  rw [imageHeld_of_clean clean]
  exact volume.owned

/-- A lone operation restarts; one among others may have to wait. -/
theorem restart_spec (op : fs.Op origin) : Ensures (do endOp; beginOp) fs (fun _ after => after = fs.restarted)
    fun reason after => reason = .blocked ∧ 1 < fs.log.outstanding ∧ after = fs.closed := by
  have inOp := op.inOp
  refine Ensures.bind ((endOp_spec op.committing).mono (fun _ _ same => same) fun _ _ => False.elim) fun _ middle closing => ?_
  by_cases last : fs.log.outstanding = 1
  · rw [if_pos last] at closing
    have admits : middle.log.admits = true := by
      rw [closing]
      simp [Fslog.admits, Fslog.n, afterCommit, closed, last, op.committing, NLOG, MAXOPBLOCKS]
    refine (beginOp_spec admits).mono (fun _ after opened => ?_) fun _ _ => False.elim
    rw [opened, closing, restarted, if_pos last]
    simp only [afterCommit, closed, last]
    rfl
  · rw [if_neg last] at closing
    by_cases admits : middle.log.admits = true
    · refine (beginOp_spec admits).mono (fun _ after opened => ?_) fun _ _ => False.elim
      rw [opened, closing, restarted, if_neg last]
      simp only [closed, Int.sub_add_cancel]
    · unfold beginOp
      rw [ensures_bind, ensures_get, if_neg admits, ensures_stop]
      exact ⟨rfl, by omega, closing⟩

theorem restarted_keeps (ip : Nat) (fs : FS) : Keeps ip fs fs.restarted where
  sb := restarted_sb fs
  ninode := restarted_ninode fs
  others _ _ := by rw [restarted_inode]
  inum := by rw [restarted_inode]
  ref := by rw [restarted_inode]
  valid := by rw [restarted_inode]
  dinodes _ _ _ := dinode_congr (restarted_sb fs) (by rw [restarted_store])
  outstanding := restarted_outstanding fs
  type := by rw [restarted_inode]
  kind same := by rw [dinode_congr (restarted_sb fs) (by rw [restarted_store]), same]

theorem restarted_roots (fs : FS) : fs.restarted.roots = fs.roots := by unfold restarted; split <;> rfl

theorem restarted_held (fs : FS) : fs.restarted.held = fs.held := by unfold restarted; split <;> rfl

theorem restarted_content (fs : FS) : fs.restarted.content = fs.content := by unfold restarted; split <;> rfl

theorem Clean.restarted (clean : fs.Clean ip) : fs.restarted.Clean ip := by
  obtain ⟨type, used, addrs⟩ := clean
  unfold FS.restarted
  split <;> exact ⟨type, used, addrs⟩

/-- The operation goes on after a restart. The commit is consistent when `ip` is
clean, which may rest on the restarts up to here. -/
theorem Running.restart (running : fs.Running origin ip) (clean : origin.watch → RestartsClean fs.history → fs.Clean ip) :
    fs.restarted.Running origin ip where
  volume := by
    refine ⟨running.volume.toAllocator.congr (restarted_sb fs) (restarted_bmap fs) (restarted_quiet fs) fun _ _ => by rw [restarted_store],
      (restarted_keeps ip fs).table running.volume.table, ?_⟩
    rw [restarted_held, restarted_sb, restarted_store]
    exact running.volume.owned
  loaded := (restarted_keeps ip fs).loaded.mpr running.loaded
  op := by
    refine ⟨by rw [restarted_committing, running.op.committing], by rw [restarted_outstanding]; exact running.op.inOp,
      by rw [restarted_size, running.op.size], fun roomy => by rw [restarted_outstanding, running.op.alone roomy],
      fun roomy => ?_⟩
    rw [restarted, if_pos (running.op.alone roomy)]
    exact Nat.zero_le _
  sound watching := by
    have sound := running.sound watching
    have loaded : ∀ ip', fs.restarted.Loaded ip' → fs.Loaded ip' := fun ip' => (restarted_keeps ip fs).loaded.mp
    have others : ∀ ip', ip' ≠ ip → fs.restarted.Loaded ip' → fs.restarted.Clean ip' := fun ip' apart isLoaded =>
      (sound.others ip' apart (loaded ip' isLoaded)).restarted
    have consistent : RestartsClean fs.history → Consistent origin.lost fs.sb fs.committedDisk := fun restarts => by
      rw [committedDisk_synced sound.synced]
      refine consistent_of_clean running.volume fun ip' isLoaded => ?_
      by_cases here : ip' = ip
      · exact here ▸ clean watching restarts
      · exact sound.others ip' here isLoaded
    refine ⟨?_, others, ?_, by rw [restarted_inode]; exact sound.used, ?_⟩
    · unfold restarted
      split
      · exact fun blockno changed => absurd (congrFun (committedDisk_synced sound.synced) blockno).symm changed
      · exact sound.synced
    · rw [restarted_inode, dinode_congr (restarted_sb fs) (by rw [restarted_store])]
      exact sound.type
    · rw [restarted_sb]
      unfold restarted
      split
      · exact ⟨consistent, sound.commits⟩
      · exact sound.commits

/-- An agreeing entry of a used inode is clean. -/
theorem Agrees.clean (agrees : fs.Agrees ip) (used : (fs.inode ip).copy.type ≠ T_UNUSE_INODE_MYFUSE) : fs.Clean ip :=
  ⟨agrees.type, used, agrees.addrs⟩

theorem Agrees.congr (agrees : fs.Agrees ip) (sb : after.sb = fs.sb) (store : after.store = fs.store)
    (inum : (after.inode ip).inum = (fs.inode ip).inum) (type : (after.inode ip).copy.type = (fs.inode ip).copy.type)
    (nlink : (after.inode ip).copy.nlink = (fs.inode ip).copy.nlink) (size : (after.inode ip).copy.size = (fs.inode ip).copy.size)
    (addrs : (after.inode ip).copy.addrs = (fs.inode ip).copy.addrs) : after.Agrees ip := by
  have same : after.dinode (after.inode ip).inum = fs.dinode (fs.inode ip).inum := by
    rw [inum]
    exact dinode_congr sb (by rw [store])
  constructor
  · rw [same, type, agrees.type]
  · rw [same, nlink, agrees.nlink]
  · rw [same, size, agrees.size]
  · rw [same, addrs]
    exact agrees.addrs

/-! Steps that write the inode or its copy. -/

/-- A copied field other than type and slots is set. -/
theorem Running.setCopy (running : fs.Running origin ip) (change : Dinode → Dinode)
    (type : ∀ copy, (change copy).type = copy.type) (addrs : ∀ copy, (change copy).addrs = copy.addrs)
    {exit : Exit → FS → Prop} : Ensures (modifyCopy ip change) fs
      (fun _ after => after.Running origin ip ∧ Keeps ip fs after ∧ after.content = fs.content ∧
        after.n_log_wrote = fs.n_log_wrote ∧ after.store = fs.store ∧
        (after.inode ip).copy = change (fs.inode ip).copy)
      exit := by
  have uses := modifyCopy_uses ip change fs
  unfold modifyCopy modifyInode at uses ⊢
  rw [ensures_modify] at uses ⊢
  have keeps := Keeps.copy change (type (fs.inode ip).copy)
  have roots := keeps.roots_same running.volume.table running.loaded (by simp [addrs])
  generalize afterIs : ({ fs with inode := _ } : FS) = after at uses keeps roots
  have store : after.store = fs.store := by rw [← afterIs]
  have held : after.held = fs.held := held_congr roots fun _ _ _ _ _ => by rw [store]
  have allocator : after.Allocator origin := by
    refine running.volume.toAllocator.congr keeps.sb ?_ ⟨[], ?_, by simp⟩ fun _ _ => by rw [store]
    · rw [← afterIs]
    · rw [← afterIs]
      rfl
  have volume : after.Volume origin :=
    ⟨allocator, keeps.table running.volume.table, by rw [held, keeps.sb, store]; exact running.volume.owned⟩
  have copy : (after.inode ip).copy = change (fs.inode ip).copy := by rw [← afterIs]; simp
  refine ⟨running.use volume keeps uses.1 uses.2, keeps, ?_, by rw [← afterIs], store, copy⟩
  funext inum p
  exact content_congr (by rw [held]) fun _ => by rw [store]

/-- The operation goes on; no byte and no size has changed. -/
structure Steady (origin : Origin) (ip : Nat) (fs after : FS) : Prop where
  running : after.Running origin ip
  keeps : Keeps ip fs after
  content : after.content = fs.content
  size : (after.inode ip).copy.size = (fs.inode ip).copy.size
  nlink : (after.inode ip).copy.nlink = (fs.inode ip).copy.nlink

theorem Steady.refl (running : fs.Running origin ip) : Steady origin ip fs fs := ⟨running, .refl ip fs, rfl, rfl, rfl⟩

theorem Steady.trans {middle : FS} (head : Steady origin ip fs middle) (tail : Steady origin ip middle after) :
    Steady origin ip fs after :=
  ⟨tail.running, head.keeps.trans tail.keeps, tail.content.trans head.content, tail.size.trans head.size,
    tail.nlink.trans head.nlink⟩

/-- Reading the clock. -/
theorem getCurrentTimespec_spec (running : fs.Running origin ip) {exit : Exit → FS → Prop} :
    Ensures getCurrentTimespec fs
      (fun _ after => Steady origin ip fs after ∧ after.n_log_wrote = fs.n_log_wrote ∧ after.inode = fs.inode ∧
        after.store = fs.store) exit := by
  unfold getCurrentTimespec
  rw [ensures_bind, ensures_get, ensures_bind, ensures_modify, ensures_pure]
  have volume := running.volume
  have op := running.op
  refine ⟨⟨⟨⟨⟨volume.layout, volume.reserved, volume.summaries, volume.free, volume.tracked⟩, ⟨volume.table.inside, volume.table.unique⟩,
    volume.owned⟩, running.loaded, ⟨op.committing, op.inOp, op.size, op.alone, op.listed⟩,
    fun watching => ?_⟩, ⟨rfl, rfl, fun _ _ => rfl, rfl, rfl, rfl, fun _ _ _ => rfl, rfl, rfl, id⟩, rfl, rfl, rfl⟩, rfl, rfl, rfl⟩
  have sound := running.sound watching
  exact ⟨sound.synced, fun ip' apart loaded => ⟨(sound.others ip' apart loaded).type, (sound.others ip' apart loaded).used,
    (sound.others ip' apart loaded).addrs⟩, sound.type, sound.used, sound.commits⟩

/-- The dinode in the store is made to agree with the copy. -/
theorem writeDinode_spec (running : fs.Running origin ip) :
    Ensures (loggedUpdate (fs.sb.iblock (fs.inode ip).inum) fun data =>
        Dinode.write data (Dinode.offsetOf (fs.inode ip).inum) (fs.inode ip).copy) fs
      (fun _ after => Steady origin ip fs after ∧ after.n_log_wrote = fs.n_log_wrote + 1 ∧
        after.inode = fs.inode ∧ after.Agrees ip)
      fun reason after => LogFull reason after ∧ LogUse 1 fs after := by
  have volume := running.volume
  have inside := volume.table.inside ip running.loaded.1
  refine ((loggedUpdate_spec running.op.inOp _ _).and (loggedUpdate_uses _ _ fs)).weaken ?_
  rintro _ after ⟨⟨_, afterIs⟩, used, lists⟩
  have inode : after.inode = fs.inode := by rw [afterIs]; rfl
  have sb : after.sb = fs.sb := by rw [afterIs]; rfl
  have written : after.store (fs.sb.iblock (fs.inode ip).inum) =
      Dinode.write (fs.store (fs.sb.iblock (fs.inode ip).inum)) (Dinode.offsetOf (fs.inode ip).inum) (fs.inode ip).copy := by
    rw [afterIs]
    simp [logged]
  have store : ∀ other, other ≠ fs.sb.iblock (fs.inode ip).inum → after.store other = fs.store other := by
    intro other apart
    rw [afterIs]
    simp [logged, assign_of_ne apart]
  have self : after.dinode (fs.inode ip).inum = Dinode.read (Dinode.write (fs.store (fs.sb.iblock (fs.inode ip).inum))
      (Dinode.offsetOf (fs.inode ip).inum) (fs.inode ip).copy) (Dinode.offsetOf (fs.inode ip).inum) := by
    rw [dinode, sb, written]
  have type : (after.dinode (fs.inode ip).inum).type = (fs.inode ip).copy.type := by
    rw [self, Dinode.type_read_write _ _ (Dinode.offsetOf_fits _)]
  have keeps : Keeps ip fs after := by
    refine ⟨sb, by rw [afterIs]; rfl, fun _ _ => by rw [inode], by rw [inode], by rw [inode], by rw [inode],
      fun inum _ apart => ?_, by rw [afterIs]; simp [logged], by rw [inode], fun _ => type⟩
    by_cases block : fs.sb.iblock inum = fs.sb.iblock (fs.inode ip).inum
    · rw [dinode, dinode, sb, block, written]
      refine Dinode.read_write_other _ _ ?_ apart
      simp only [Superblock.iblock] at block
      omega
    · exact dinode_congr sb (store _ block)
  have offData : ∀ blockno, fs.sb.InData blockno → after.store blockno = fs.store blockno := fun blockno data =>
    store _ fun same => Superblock.iblock_not_data volume.layout inside (same ▸ data)
  have offBitmap : ∀ blockno, fs.sb.InBitmap blockno → after.store blockno = fs.store blockno := fun blockno bitmap =>
    store _ fun same => Superblock.iblock_not_bitmap volume.layout inside (same ▸ bitmap)
  have held : after.held = fs.held :=
    held_congr (keeps.roots_same volume.table running.loaded (by rw [inode])) fun owner path _ holds _ => by
      rw [offData _ (volume.owned.inside _ _ holds)]
  have allocator : after.Allocator origin :=
    volume.toAllocator.congr sb (by rw [afterIs]; rfl) (.one rfl (by rw [afterIs]; rfl)) offBitmap
  have owned := volume.owned.congr fun blockno data => bitOf_congr (offBitmap _ (Superblock.bblock_inBitmap data.covered))
  have content : after.content = fs.content := by
    funext inum p
    exact content_congr (by rw [held]) fun holds => offData _ (volume.owned.inside _ _ holds)
  have agrees : after.Agrees ip := by
    refine ⟨by rw [inode, type], ?_, ?_, fun slot small => ?_⟩
    · rw [inode, self, Dinode.nlink_read_write _ _ (Dinode.offsetOf_fits _)]
    · rw [inode, self, Dinode.size_read_write _ _ (Dinode.offsetOf_fits _)]
      rfl
    · rw [inode, self, Dinode.addrs_read_write _ _ (Dinode.offsetOf_fits _) small]
      refine Nat.mod_eq_of_lt ?_
      have root := roots_loaded volume.table running.loaded slot
      rw [if_pos small, ← held_root] at root
      rw [← root]
      by_cases none : fs.held (fs.inode ip).inum [slot] = 0
      · rw [none]
        decide
      · exact Nat.lt_trans (volume.owned.inside _ _ none).2 volume.layout.uint_size
  exact ⟨⟨running.use ⟨allocator, keeps.table volume.table, by rw [held, sb]; exact owned⟩ keeps used lists, keeps, content,
    by rw [inode], by rw [inode]⟩, by rw [afterIs]; rfl, inode, agrees⟩

/-- Only a full log stops it. -/
theorem iupdate_spec (running : fs.Running origin ip) :
    Ensures (iupdate ip) fs
      (fun _ after => Steady origin ip fs after ∧ after.n_log_wrote = fs.n_log_wrote + 1 ∧
        (after.inode ip).copy.addrs = (fs.inode ip).copy.addrs ∧ after.Agrees ip)
      fun reason after => LogFull reason after ∧ LogUse 1 fs after := by
  have uses := iupdate_uses ip fs
  have spec : Ensures (iupdate ip) fs
      (fun _ after => Steady origin ip fs after ∧ after.n_log_wrote = fs.n_log_wrote + 1 ∧
        (after.inode ip).copy.addrs = (fs.inode ip).copy.addrs ∧ after.Agrees ip)
      fun reason after => LogFull reason after := by
    unfold iupdate
    refine Ensures.bind (getCurrentTimespec_spec running) ?_
    rintro now ticked ⟨steady₁, few₁, inode₁, -⟩
    refine Ensures.bind (steady₁.running.setCopy (fun copy => { copy with st_ctimespec := now }) (fun _ => rfl) fun _ => rfl) ?_
    rintro _ stamped ⟨running₂, keeps₂, content₂, few₂, _, copy₂⟩
    have steady₂ : Steady origin ip fs stamped :=
      steady₁.trans ⟨running₂, keeps₂, content₂, by rw [copy₂], by rw [copy₂]⟩
    rw [ensures_bind, ensures_get]
    have wrote : stamped.n_log_wrote = fs.n_log_wrote := by rw [few₂, few₁]
    refine (writeDinode_spec running₂).mono ?_ fun _ _ full => full.1
    rintro _ after ⟨steady₃, few₃, inode₃, agrees⟩
    refine ⟨steady₂.trans steady₃, by rw [few₃, wrote], ?_, agrees⟩
    rw [inode₃, copy₂, inode₁]
  exact (spec.and uses).mono (fun _ _ both => both.1) fun _ _ both => both

/-- Only the block of the dinode is written. -/
theorem iupdate_store (ip : Nat) (fs : FS) : Ensures (iupdate ip) fs
    (fun _ after => ∀ blockno, blockno ≠ fs.sb.iblock (fs.inode ip).inum → after.store blockno = fs.store blockno)
    fun _ after => ∀ blockno, blockno ≠ fs.sb.iblock (fs.inode ip).inum → after.store blockno = fs.store blockno := by
  simp only [iupdate, getCurrentTimespec, modifyCopy, modifyInode, loggedUpdate, loggedWrite, note, ensures_bind, ensures_get,
    ensures_modify, ensures_pure, ensures_ite, ensures_stop, assign_self]
  have other : ∀ blockno change, blockno ≠ fs.sb.iblock (fs.inode ip).inum →
      assign fs.store (fs.sb.iblock (fs.inode ip).inum) change blockno = fs.store blockno := fun _ _ apart => assign_of_ne apart _ _
  exact ⟨fun _ blockno => other blockno _, fun _ => ⟨fun _ blockno => other blockno _, fun _ blockno => other blockno _⟩⟩

/-- Block maps and bitmap are as before. -/
theorem iupdate_held (running : fs.Running origin ip) : Ensures (iupdate ip) fs
    (fun _ after => after.held = fs.held ∧ ∀ blockno < fs.sb.nbitmap * BPB, bitOf fs.sb after.store blockno = bitOf fs.sb fs.store blockno)
    fun _ _ => True := by
  have volume := running.volume
  have inside := volume.table.inside ip running.loaded.1
  refine ((iupdate_spec running).and (iupdate_store ip fs)).mono ?_ fun _ _ _ => trivial
  rintro _ after ⟨⟨steady, -, addrs, -⟩, store⟩
  refine ⟨held_congr (steady.keeps.roots_same volume.table running.loaded addrs) fun owner path _ holds _ => ?_, fun blockno covered => bitOf_congr (store _ ?_)⟩
  · rw [store]
    exact fun same => Superblock.iblock_not_data volume.layout inside (same ▸ volume.owned.inside _ _ holds)
  · exact fun same => Superblock.iblock_not_bitmap volume.layout inside (same ▸ Superblock.bblock_inBitmap covered)

/-- With room in the log it does not stop. -/
theorem iupdate_roomy (running : fs.Running origin ip) (few : origin.roomy → fs.n_log_wrote + 1 < NLOG - 1) :
    Ensures (iupdate ip) fs
      (fun _ after => Steady origin ip fs after ∧ after.n_log_wrote = fs.n_log_wrote + 1 ∧
        (after.inode ip).copy.addrs = (fs.inode ip).copy.addrs ∧ after.Agrees ip)
      (Stops origin) :=
  (iupdate_spec running).mono (fun _ _ same => same) fun _ _ full => running.allocStops full.2 few (.inr full.1)

end FS
end Myfuse
