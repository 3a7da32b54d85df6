import Myfuse.Proofs.BlockOwnership
import Myfuse.Proofs.FileHistory
import Myfuse.Proofs.References

/-! Every commit of a run of reads, writes, truncations and last `iput`s leaves a consistent
image, as long as no truncation is cut where its slots are not those on the disk. -/

namespace Myfuse
open Library Library.Exec

/-- What a run is made of. -/
inductive FileCall where
  | write (ip : Nat) (data : List Byte) (off : Nat)
  | read (ip nbytes off : Nat)
  | truncate (ip size : Nat)
  | lastIput (ip : Nat)

theorem CommitsSound.committed {lost : Nat → Prop} {sb : Superblock} {newer older : List Event} {disk : Nat → Block}
    (sound : CommitsSound lost sb (newer ++ .committed disk :: older)) (clean : RestartsClean older) : Consistent lost sb disk := by
  induction newer with
  | nil => exact sound.1 clean
  | cons event newer ih =>
    apply ih
    cases event with
    | committed _ => exact sound.2
    | _ => exact sound

/-- The same run with nothing asked of it. -/
def Origin.unwatched (origin : Origin) : Origin := { origin with watch := False, bounded := False, roomy := False }

theorem Origin.unwatched_plain (origin : Origin) : origin.unwatched.Plain := ⟨id, id, id⟩

namespace FS
variable {origin : Origin} {fs middle after : FS} {ip : Nat}

/-- `iput` in an operation of its own. -/
def iputUnlocked (ip : Nat) : M Unit := do
  beginOp
  iput ip
  endOp

def fileCall : FileCall → M Unit
  | .write ip data off => do
    let _ ← inodeWriteNbytesUnlocked ip data off
    pure ()
  | .read ip nbytes off => do
    let _ ← inodeReadNbytesUnlocked ip nbytes off
    pure ()
  | .truncate ip size => itrunc2sizeUnlocked ip size
  | .lastIput ip => iputUnlocked ip

/-- The entry is in use, the data fit in memory, and a last `iput` is one. -/
def Callable (fs : FS) : FileCall → Prop
  | .write ip data _ => fs.Live ip ∧ data.length < 2 ^ 63
  | .read ip _ _ | .truncate ip _ => fs.Live ip
  | .lastIput ip => fs.Loaded ip ∧ (fs.inode ip).ref = 1 ∧ (fs.inode ip).copy.nlink = 0

/-- Returned calls on any entries. -/
inductive FileCalls (start : FS) : FS → Prop
  | start : FileCalls start start
  | call {middle after : FS} {next : FileCall} : FileCalls start middle → middle.Callable next →
      fileCall next middle = (.ok (), after) → FileCalls start after

/-- A state between operations that has a consistent image on the disk and in memory. -/
structure ConsistentStart (fs : FS) : Prop where
  wellFormed : fs.WellFormed
  flushed : fs.device = fs.store
  clean : ∀ ip, fs.Loaded ip → fs.Clean ip
  image : Consistent (fun _ => False) fs.sb fs.store
  history : fs.history = []

/-- A run from `fs` that has lost no block and whose commits are watched. -/
def watched (fs : FS) : Origin :=
  { lost := fun _ => False, bits := bitOf fs.sb fs.store, history := fs.history, watch := True, bounded := False, roomy := False }

theorem Volume.unwatch (volume : fs.Volume origin) : fs.Volume origin.unwatched :=
  ⟨⟨volume.layout, volume.reserved, volume.summaries, volume.free, volume.tracked⟩, volume.table, volume.owned⟩

theorem Volume.watch (volume : fs.Volume origin.unwatched) : fs.Volume origin :=
  ⟨⟨volume.layout, volume.reserved, volume.summaries, volume.free, volume.tracked⟩, volume.table, volume.owned⟩

/-- The last `iput` of an unlinked file leaves every other entry clean. -/
theorem Open.frees (opened : fs.Open origin) (loaded : fs.Loaded ip) (last : (fs.inode ip).ref = 1)
    (unlinked : (fs.inode ip).copy.nlink = 0) :
    Ensures (iput ip) fs (fun _ after => after.Open origin ∧ after.log.outstanding = fs.log.outstanding)
      fun _ after => origin.watch → CommitsSound origin.lost after.sb after.history := by
  have usable : fs.Usable origin.unwatched := ⟨opened.volume.unwatch, opened.op.committing, opened.op.size⟩
  have commits : ∀ {count : Nat} {after : FS}, LogUse count fs after →
      origin.watch → CommitsSound origin.lost after.sb after.history := by
    intro count after used watching
    rw [used.sb]
    exact commitsSound_congr used.cuts (opened.settled watching).commits
  by_cases locked : (fs.inode ip).locked = true
  · unfold iput
    rw [ensures_bind, ensures_get]
    dsimp only
    rw [if_pos ⟨last, loaded.2, unlinked⟩, if_pos locked]
    apply ensures_bind.mpr
    exact (ensures_stop _).mpr fun watching => (opened.settled watching).commits
  · have free : (fs.inode ip).locked = false := Bool.eq_false_iff.mpr locked
    have frees := iput_frees origin.unwatched_plain usable opened.op.inOp loaded last unlinked free
    apply (frees.and (iput_uses ip fs)).mono
    · intro _ after both
      obtain ⟨⟨put, -, dinodes⟩, used, lists⟩ := both
      refine ⟨⟨put.usable.volume.watch, opened.op.use used, fun watching => ?_⟩, used.outstanding⟩
      have settled := opened.settled watching
      refine ⟨fun blockno changed => ?_, fun ip' isLoaded => ?_, commits used watching⟩
      · rw [used.device] at changed
        by_cases here : after.store blockno = fs.store blockno
        · exact lists.block _ (settled.synced blockno (here ▸ changed))
        · exact lists.store blockno here
      · have apart : ip' ≠ ip := by
          rintro rfl
          have referenced := isLoaded.1.2
          rw [put.ref, last] at referenced
          exact absurd referenced (by decide)
        have entry := put.others ip' apart
        have isLoaded : fs.Loaded ip' := by
          rw [Loaded, Live, put.ninode, entry] at isLoaded
          exact isLoaded
        have table := opened.volume.table
        have other : (fs.inode ip').inum ≠ (fs.inode ip).inum := fun same => apart (table.unique _ _ isLoaded.1 loaded.1 same)
        obtain ⟨type, kind, addrs⟩ := settled.clean ip' isLoaded
        have dinode := dinodes _ (table.inside ip' isLoaded.1) other
        exact ⟨by rw [entry, dinode, type], by rw [entry]; exact kind, by rw [entry, dinode]; exact addrs⟩
    · exact fun _ _ both => commits both.2

theorem iputUnlocked_spec (rest : fs.AtRest origin) (loaded : fs.Loaded ip) (last : (fs.inode ip).ref = 1)
    (unlinked : (fs.inode ip).copy.nlink = 0) : Ensures (iputUnlocked ip) fs (fun _ after => after.AtRest origin)
      fun _ after => origin.watch → CommitsSound origin.lost after.sb after.history := by
  apply Ensures.bind (rest.begins.mono (fun _ _ same => same) fun _ _ => False.elim)
  intro _ began opening
  obtain ⟨opened, same, -, one⟩ := opening
  have loaded : began.Loaded ip := (same.loaded ip).mpr loaded
  have last : (began.inode ip).ref = 1 := by rw [same.inode, last]
  have unlinked : (began.inode ip).copy.nlink = 0 := by rw [same.inode, unlinked]
  apply Ensures.bind (opened.frees loaded last unlinked)
  intro _ freed freeing
  obtain ⟨opened, outstanding⟩ := freeing
  apply (opened.ends (outstanding.trans one)).mono
  · exact fun _ _ ended => ended.1
  · exact fun _ _ => False.elim

/-- A write past the limit does nothing. -/
theorem write_past (rest : fs.AtRest origin) (live : fs.Live ip) (lockable : origin.roomy → fs.Lockable ip) {data : List Byte} {off : Nat}
    (past : MAXFILE_SIZE < off) : Ensures (inodeWriteNbytesUnlocked ip data off) fs (fun _ after => after.AtRest origin) (Stops origin) := by
  apply (rest.session live lockable (fun _ _ _ => True) (fun _ _ same => same) ?_).weaken
  · intro _ after served
    obtain ⟨_, _, -, served⟩ := served
    exact served.rest
  · intro ready running _ clean _ _ _
    unfold inodeWriteNbytesLocked
    rw [if_pos past, ensures_pure]
    exact ⟨_, _, trivial, (Steady.refl running).done (.inr rfl) clean⟩

/-- What one call does: the next one starts at rest, and its commits so far are sound even when it exits. -/
theorem fileCall_spec (rest : fs.AtRest origin) (lenient : ¬ origin.bounded ∧ ¬ origin.roomy) {next : FileCall} (callable : fs.Callable next) :
    Ensures (fileCall next) fs (fun _ after => after.AtRest origin)
      fun _ after => origin.watch → CommitsSound origin.lost after.sb after.history := by
  have lockable : ∀ ip, origin.roomy → fs.Lockable ip := fun _ roomy => absurd roomy lenient.2
  cases next with
  | write ip data off =>
    obtain ⟨live, memory⟩ := callable
    have writes : Ensures (inodeWriteNbytesUnlocked ip data off) fs (fun _ after => after.AtRest origin) (Stops origin) := by
      cases Nat.lt_or_ge MAXFILE_SIZE off with
      | inl past => exact write_past rest live (lockable ip) past
      | inr inside =>
        apply (inodeWriteNbytesUnlocked_spec rest live (lockable ip) inside (fun bounded => absurd bounded lenient.1) memory).weaken
        exact fun _ _ served => served.2.rest
    apply Ensures.bind (writes.mono (fun _ _ same => same) fun _ _ stops => stops.2)
    exact fun _ _ rest => (ensures_pure _).mpr rest
  | read ip nbytes off =>
    apply Ensures.bind ((inodeReadNbytesUnlocked_spec rest callable (lockable ip) fun bounded => absurd bounded lenient.1).mono
      (fun _ _ same => same) fun _ _ stops => stops.2)
    exact fun _ _ served => (ensures_pure _).mpr served.1.rest
  | truncate ip size =>
    apply (itrunc2sizeUnlocked_spec rest callable (lockable ip) fun bounded => absurd bounded lenient.1).mono
    · intro _ _ truncated
      obtain ⟨_, served, -⟩ := truncated
      exact served.rest
    · intro _ _ stops
      cases stops with
      | inl stops => exact stops.2
      | inr full => exact full.2.2
  | lastIput ip => exact iputUnlocked_spec rest callable.1 callable.2.1 callable.2.2

theorem ConsistentStart.rest (start : fs.ConsistentStart) : fs.AtRest fs.watched := by
  have wellFormed := start.wellFormed
  have owned : Owned fs.sb.InData (fun _ => False) fs.held (bitOf fs.sb fs.store) := by
    have image := start.image
    unfold Consistent at image
    rwa [imageHeld_of_clean start.clean] at image
  refine ⟨⟨⟨wellFormed.layout, wellFormed.reserved, wellFormed.summaries, wellFormed.free, [], rfl, trivial, fun _ _ => rfl⟩,
    wellFormed.table, owned⟩, wellFormed.idle, fun _ => ⟨fun blockno changed => ?_, start.clean, ?_⟩⟩
  · exact absurd (congrFun start.flushed blockno).symm changed
  · rw [start.history]
    trivial

theorem FileCalls.rest {start : FS} (begins : start.ConsistentStart) (calls : FileCalls start fs) : fs.AtRest start.watched := by
  induction calls with
  | start => exact begins.rest
  | call _ callable returned ih => exact (fileCall_spec ih ⟨id, id⟩ callable).returned returned

/-- Over every run of calls, the last of which may also exit: each commit leaves a consistent image, if
every truncation that was cut before it had the slots of its inode on the disk. -/
theorem commits_consistent {start : FS} (begins : start.ConsistentStart) (calls : FileCalls start middle) {next : FileCall}
    (callable : middle.Callable next) {result : Except Exit Unit} (ran : fileCall next middle = (result, after))
    {newer older : List Event} {disk : Nat → Block} (history : after.history = newer ++ .committed disk :: older)
    (clean : RestartsClean older) : Consistent (fun _ => False) after.sb disk := by
  have spec := fileCall_spec (calls.rest begins) ⟨id, id⟩ callable
  have sound : CommitsSound (fun _ => False) after.sb after.history := by
    cases result with
    | ok => exact ((spec.returned ran).settled trivial).commits
    | error => exact spec.stopped ran trivial
  rw [history] at sound
  exact sound.committed clean

theorem freshFile_consistent : freshFile.ConsistentStart := by
  have unloaded : ∀ ip, ¬ freshFile.Loaded ip := by
    intro ip loaded
    have valid := loaded.2
    rw [show (freshFile.inode ip).valid = false from firstEntry_unread ip] at valid
    cases valid
  have clean : ∀ ip, freshFile.Loaded ip → freshFile.Clean ip := fun ip loaded => absurd loaded (unloaded ip)
  refine ⟨freshFile_wellFormed, rfl, clean, ?_, rfl⟩
  unfold Consistent
  rw [imageHeld_of_clean clean]
  exact freshFile_free.usable.volume.owned

/-- The last event is a commit, and no truncation was cut before it. -/
def commitsUncut : List Event → Bool
  | .committed _ :: older => older.all fun event => !event.isCut
  | _ => false

theorem commitsUncut_spec {history : List Event} (uncut : commitsUncut history = true) :
    ∃ disk older, history = [] ++ .committed disk :: older ∧ RestartsClean older := by
  unfold commitsUncut at uncut
  split at uncut
  next disk older =>
    refine ⟨disk, older, rfl, ?_⟩
    have none : older.filter Event.isCut = [] := by
      apply List.filter_eq_nil_iff.mpr
      intro event inside
      simpa using List.all_eq_true.mp uncut event inside
    rw [← restartsClean_cuts, none]
    trivial
  next => cases uncut

/-- A byte is written to a new file. -/
theorem commits_consistent_write : ∃ after disk older, freshFile.ConsistentStart ∧ FileCalls freshFile freshFile ∧
    freshFile.Callable (.write 0 [7] 0) ∧ fileCall (.write 0 [7] 0) freshFile = (.ok (), after) ∧
    after.history = [] ++ .committed disk :: older ∧ RestartsClean older ∧ Consistent (fun _ => False) after.sb disk := by
  have computed : valueOf (do
      fileCall (.write 0 [7] 0)
      let fs : FS ← get
      pure (commitsUncut fs.history)) freshFile = some true := by decide +kernel
  obtain ⟨_, after, ran, rest⟩ := bind_returns (returns_of_valueOf computed)
  rw [bind_ok get_apply] at rest
  have uncut : commitsUncut after.history = true := by simpa using congrArg Prod.fst rest
  obtain ⟨disk, older, history, clean⟩ := commitsUncut_spec uncut
  have callable : freshFile.Callable (.write 0 [7] 0) := ⟨⟨by decide, by decide⟩, by decide⟩
  exact ⟨after, disk, older, freshFile_consistent, .start, callable, ran, history, clean,
    commits_consistent freshFile_consistent .start callable ran history clean⟩

/-- The block is marked in use, and no used dinode has a block. -/
def marksLost (sb : Superblock) (blockno : Nat) : Event → Bool
  | .committed disk => bitOf sb disk blockno && (List.range sb.ninodes).all fun inum =>
      (Dinode.read (disk (sb.iblock inum)) (Dinode.offsetOf inum)).type == T_UNUSE_INODE_MYFUSE ||
        (List.range NBLOCKADDR).all fun slot => (Dinode.read (disk (sb.iblock inum)) (Dinode.offsetOf inum)).addrs slot == 0
  | _ => false

theorem marksLost_spec {sb : Superblock} {blockno : Nat} (data : sb.InData blockno) {history : List Event}
    (lost : history.any (marksLost sb blockno) = true) :
    ∃ newer disk older, history = newer ++ .committed disk :: older ∧ ¬ Consistent (fun _ => False) sb disk := by
  obtain ⟨event, inside, marks⟩ := List.any_eq_true.mp lost
  obtain ⟨newer, older, history⟩ := List.append_of_mem inside
  cases event with
  | committed disk =>
    refine ⟨newer, disk, older, history, fun consistent => ?_⟩
    simp only [marksLost, Bool.and_eq_true, List.all_eq_true, List.mem_range, Bool.or_eq_true, beq_iff_eq] at marks
    obtain ⟨set, empty⟩ := marks
    have roots : ∀ inum slot, imageRoots sb disk inum slot = 0 := by
      intro inum slot
      unfold imageRoots
      dsimp only
      split
      next used =>
        cases empty inum used.1 with
        | inl unused => exact absurd unused used.2.2
        | inr none => exact none slot used.2.1
      next => rfl
    cases (consistent.taken blockno data).mp set with
    | inl gone => exact gone
    | inr held =>
      obtain ⟨owner, path, same⟩ := held
      rw [imageHeld, BlockTree.place_empty (roots owner)] at same
      exact consistent.nonzero (same ▸ data)
  | _ => cases marks

/-- A truncation that makes a file longer is cut before the dinode has its new slots. -/
theorem growth_commits_lost_blocks : ∃ after newer disk older, freshFile.ConsistentStart ∧ FileCalls freshFile freshFile ∧
    freshFile.Callable (.truncate 0 (56 * BSIZE)) ∧ fileCall (.truncate 0 (56 * BSIZE)) freshFile = (.ok (), after) ∧
    after.history = newer ++ .committed disk :: older ∧ ¬ Consistent (fun _ => False) freshFile.sb disk := by
  have computed : valueOf (do
      fileCall (.truncate 0 (56 * BSIZE))
      let fs : FS ← get
      pure (fs.history.any (marksLost freshFile.sb 1060))) freshFile = some true := by decide +kernel
  obtain ⟨_, after, ran, rest⟩ := bind_returns (returns_of_valueOf computed)
  rw [bind_ok get_apply] at rest
  have lost : after.history.any (marksLost freshFile.sb 1060) = true := by simpa using congrArg Prod.fst rest
  obtain ⟨newer, disk, older, history, broken⟩ := marksLost_spec ⟨by decide, by decide⟩ lost
  exact ⟨after, newer, disk, older, freshFile_consistent, .start, ⟨by decide, by decide⟩, ran, history, broken⟩

end FS
end Myfuse
