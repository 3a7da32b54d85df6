import Myfuse.Inode

/-! How much of the log the routines below a restart use: they log at most a
fixed number of blocks and leave the running operations alone, whether they
return or stop. -/

namespace Myfuse
open Library Library.Exec

/-- The events that end a transaction. -/
def Event.isCut : Event → Bool
  | .committed _ | .restart _ _ => true
  | _ => false

namespace FS

/-- From `fs` to `after` at most `count` calls of `logged_write` were made, and no transaction ended. -/
structure LogUse (count : Nat) (fs after : FS) : Prop where
  start : after.log.start = fs.log.start
  size : after.log.size = fs.log.size
  outstanding : after.log.outstanding = fs.log.outstanding
  committing : after.log.committing = fs.log.committing
  device : after.device = fs.device
  sb : after.sb = fs.sb
  low : fs.n_log_wrote ≤ after.n_log_wrote
  high : after.n_log_wrote ≤ fs.n_log_wrote + count
  listed : after.log.n + fs.n_log_wrote ≤ fs.log.n + after.n_log_wrote
  cuts : after.history.filter Event.isCut = fs.history.filter Event.isCut

/-- The blocks that differ at the end are in the log. -/
structure Lists (fs after : FS) : Prop where
  block : ∀ blockno ∈ fs.log.block, blockno ∈ after.log.block
  store : ∀ blockno, after.store blockno ≠ fs.store blockno → blockno ∈ after.log.block

theorem LogUse.refl (fs : FS) : LogUse 0 fs fs :=
  ⟨rfl, rfl, rfl, rfl, rfl, rfl, Nat.le_refl _, Nat.le_refl _, Nat.le_refl _, rfl⟩

theorem LogUse.trans {fs middle after : FS} {first second : Nat} (head : LogUse first fs middle)
    (tail : LogUse second middle after) : LogUse (first + second) fs after where
  start := tail.start.trans head.start
  size := tail.size.trans head.size
  outstanding := tail.outstanding.trans head.outstanding
  committing := tail.committing.trans head.committing
  device := tail.device.trans head.device
  sb := tail.sb.trans head.sb
  low := Nat.le_trans head.low tail.low
  high := by have := head.high; have := tail.high; omega
  listed := by have := head.listed; have := tail.listed; omega
  cuts := tail.cuts.trans head.cuts

theorem Lists.refl (fs : FS) : Lists fs fs := ⟨fun _ listed => listed, fun _ changed => absurd rfl changed⟩

theorem Lists.trans {fs middle after : FS} (head : Lists fs middle) (tail : Lists middle after) : Lists fs after where
  block blockno listed := tail.block blockno (head.block blockno listed)
  store blockno changed := by
    by_cases last : after.store blockno = middle.store blockno
    · exact tail.block blockno (head.store blockno (last ▸ changed))
    · exact tail.store blockno last

theorem LogUse.mono {fs after : FS} {count more : Nat} (uses : LogUse count fs after) (fewer : count ≤ more) :
    LogUse more fs after := { uses with high := by have := uses.high; omega }

/-- Every run of the program logs at most `count` times. -/
def UsesLog (count : Nat) (program : M α) : Prop :=
  ∀ fs, Ensures program fs (fun _ after => LogUse count fs after ∧ Lists fs after) (fun _ after => LogUse count fs after)

namespace UsesLog
variable {count first second : Nat} {program : M α} {next : α → M β}

theorem mono (uses : UsesLog first program) (fewer : first ≤ count) : UsesLog count program := fun fs =>
  (uses fs).mono (fun _ _ used => ⟨used.1.mono fewer, used.2⟩) fun _ _ used => used.mono fewer

theorem bind (head : UsesLog first program) (tail : ∀ value, UsesLog second (next value)) :
    UsesLog (first + second) (program >>= next) := fun fs => by
  refine ensures_bind.mpr ((head fs).mono (fun value after used => ?_) fun _ _ used => used.mono (Nat.le_add_right _ _))
  exact (tail value after).mono (fun _ _ more => ⟨used.1.trans more.1, used.2.trans more.2⟩)
    fun _ _ more => used.1.trans more

/-- A program that logs nothing, before one that may. -/
theorem andThen (head : UsesLog 0 program) (tail : ∀ value, UsesLog count (next value)) :
    UsesLog count (program >>= next) := by
  have both := head.bind tail
  rwa [Nat.zero_add] at both

/-- A program that may log, before one that logs nothing. -/
theorem ending (head : UsesLog count program) (tail : ∀ value, UsesLog 0 (next value)) :
    UsesLog count (program >>= next) := head.bind tail

theorem seq (first second : Nat) (fits : first + second ≤ count) (head : UsesLog first program)
    (tail : ∀ value, UsesLog second (next value)) : UsesLog count (program >>= next) :=
  (head.bind tail).mono fits

theorem pure (value : α) : UsesLog count (Pure.pure value : M α) := fun fs =>
  (ensures_pure value).mpr ⟨(LogUse.refl fs).mono (Nat.zero_le _), Lists.refl fs⟩

theorem stop (reason : Exit) : UsesLog count (Exec.stop reason : M α) := fun fs =>
  (ensures_stop reason).mpr ((LogUse.refl fs).mono (Nat.zero_le _))

theorem get : UsesLog 0 (Exec.get : M FS) := fun fs => ensures_get.mpr ⟨LogUse.refl fs, Lists.refl fs⟩

theorem ite {condition : Prop} {decidable : Decidable condition} {other : M α} (yes : UsesLog count program)
    (no : UsesLog count other) : UsesLog count (if condition then program else other) := by
  split
  · exact yes
  · exact no

/-- A change that neither writes nor logs a block. -/
theorem modify {change : FS → FS} (kept : ∀ fs, LogUse 0 fs (change fs)) (block : ∀ fs, (change fs).log = fs.log)
    (store : ∀ fs, (change fs).store = fs.store) : UsesLog 0 (Exec.modify change : M Unit) := fun fs =>
  (ensures_modify change).mpr ⟨kept fs, fun _ listed => by rw [block]; exact listed, fun _ changed => absurd (by rw [store]) changed⟩

theorem forRange {body : Nat → M Unit} (each : ∀ i, UsesLog count (body i)) :
    ∀ lo times, UsesLog (times * count) (Exec.forRange lo times body)
  | _, 0 => pure ()
  | lo, times + 1 => by
    have step := bind (each lo) fun _ => forRange each (lo + 1) times
    exact step.mono (by rw [Nat.succ_mul]; omega)

end UsesLog

theorem note_uses {event : Event} (inside : event.isCut = false) : UsesLog 0 (note event) :=
  .modify (fun _ => { LogUse.refl _ with cuts := by rw [List.filter_cons_of_neg (by simp [inside])] }) (fun _ => rfl) fun _ => rfl

theorem modifyBmap_uses (change : BmapCache → BmapCache) : UsesLog 0 (modifyBmap change) :=
  .modify (fun _ => { LogUse.refl _ with }) (fun _ => rfl) fun _ => rfl

theorem modifyInode_uses (ip : Nat) (change : Inode → Inode) : UsesLog 0 (modifyInode ip change) :=
  .modify (fun _ => { LogUse.refl _ with }) (fun _ => rfl) fun _ => rfl

theorem modifyCopy_uses (ip : Nat) (change : Dinode → Dinode) : UsesLog 0 (modifyCopy ip change) :=
  modifyInode_uses ip _

theorem loggedRead_uses (blockno : Nat) : UsesLog 0 (loggedRead blockno) := .andThen .get fun _ => .pure _

theorem getCurrentTimespec_uses : UsesLog 0 getCurrentTimespec :=
  .andThen .get fun _ => .andThen (.modify (fun _ => { LogUse.refl _ with }) (fun _ => rfl) fun _ => rfl) fun _ => .pure _

/-- A block changed in place and then logged. -/
theorem loggedUpdate_uses (blockno : Nat) (change : Block → Block) : UsesLog 1 (loggedUpdate blockno change) := by
  intro fs
  have absorbed := fs.log.absorb_n_le blockno
  simp only [loggedUpdate, loggedWrite, note, ensures_bind, ensures_get, ensures_ite, ensures_stop, ensures_modify]
  have nothing : LogUse 1 fs { fs with store := assign fs.store blockno (change (fs.store blockno)) } :=
    { (LogUse.refl fs).mono (Nat.zero_le _) with }
  refine ⟨fun _ => nothing, fun _ => ⟨fun _ => nothing, fun _ => ⟨?_, fun other listed => ?_, fun other changed => ?_⟩⟩⟩
  · constructor
    case low => exact Nat.le_succ _
    case listed => simp only; omega
    case cuts => rw [List.filter_cons_of_neg (by simp [Event.isCut])]
    all_goals simp
  · exact (Fslog.mem_absorb _ _ _).mpr (.inl listed)
  · refine (Fslog.mem_absorb _ _ _).mpr (.inr ?_)
    by_contra apart
    exact changed (by simp only [assign_of_ne apart])

theorem bmapBlockStatueSet_uses (blockno i : Nat) : UsesLog 1 (bmapBlockStatueSet blockno i) :=
  .andThen .get fun _ => .ite (.stop _) (.andThen (modifyBmap_uses _) fun _ => loggedUpdate_uses _ _)

theorem blockAllocUpdateCache_uses (c j : Nat) : UsesLog 0 (blockAllocUpdateCache c j) := by
  refine .andThen (modifyBmap_uses _) fun _ => .andThen .get fun fs => .ite ?_ ?_
  · refine .andThen (modifyBmap_uses _) fun _ => .andThen .get fun fs => ?_
    split
    · exact modifyBmap_uses _
    · exact .andThen (modifyBmap_uses _) fun _ => .stop _
  · dsimp only
    split
    · exact modifyBmap_uses _
    · exact .pure ()

theorem blockAlloc_uses : UsesLog 2 blockAlloc := by
  refine .andThen .get fun fs => .ite (.stop _) ?_
  refine .seq 1 1 (Nat.le_refl _) (bmapBlockStatueSet_uses _ 1) fun _ => .andThen (blockAllocUpdateCache_uses _ _) fun _ => ?_
  exact .andThen (note_uses rfl) fun _ => .ending (loggedUpdate_uses _ _) fun _ => .pure _

theorem blockFree_uses (blockno : Nat) : UsesLog 1 (blockFree blockno) :=
  .ending (bmapBlockStatueSet_uses _ 0) fun _ => .andThen (modifyBmap_uses _) fun _ => note_uses rfl

theorem iget_uses (inum : Nat) : UsesLog 0 (iget inum) := by
  refine .andThen .get fun fs => ?_
  split
  · exact .andThen (modifyInode_uses _ _) fun _ => .pure _
  · split
    · exact .andThen (modifyInode_uses _ _) fun _ => .pure _
    · exact .andThen (.modify (fun _ => { LogUse.refl _ with }) (fun _ => rfl) fun _ => rfl) fun _ => .andThen (modifyInode_uses _ _) fun _ => .pure _

theorem iallocFrom_uses (type : BitVec 16) : ∀ count inum, UsesLog 1 (iallocFrom type count inum)
  | 0, _ => .stop _
  | count + 1, inum => by
    refine .andThen .get fun fs => .andThen (loggedRead_uses _) fun _ => .ite ?_ (iallocFrom_uses type count (inum + 1))
    exact .ending (loggedUpdate_uses _ _) fun _ => iget_uses inum

theorem ialloc_uses (type : BitVec 16) : UsesLog 1 (ialloc type) := .andThen .get fun _ => iallocFrom_uses type _ 1

theorem ilock_uses (ip : Nat) : UsesLog 0 (ilock ip) := by
  refine .andThen .get fun fs => .ite (.stop _) (.ite (.stop _) ?_)
  refine .andThen (modifyInode_uses _ _) fun _ => .ite (.pure ()) ?_
  refine .andThen (loggedRead_uses _) fun _ => .andThen (modifyInode_uses _ _) fun _ => ?_
  exact .ite (.stop _) (.ite (.stop _) (.pure ()))

theorem iunlock_uses (ip : Nat) : UsesLog 0 (iunlock ip) := modifyInode_uses ip _

theorem iupdate_uses (ip : Nat) : UsesLog 1 (iupdate ip) :=
  .andThen getCurrentTimespec_uses fun _ => .andThen (modifyCopy_uses ip _) fun _ => .andThen .get fun _ =>
    loggedUpdate_uses _ _

theorem addrsFindOrAlloc_uses (ip slot : Nat) : UsesLog 2 (addrsFindOrAlloc ip slot) :=
  .andThen .get fun _ => .ite (.ending blockAlloc_uses fun _ => .andThen (modifyCopy_uses ip _) fun _ => .pure _) (.pure _)

theorem indexFindOrAlloc_uses (blockno index : Nat) : UsesLog 3 (indexFindOrAlloc blockno index) :=
  .andThen (loggedRead_uses _) fun _ =>
    .ite (.seq 2 1 (Nat.le_refl _) blockAlloc_uses fun _ => .ending (loggedUpdate_uses _ _) fun _ => .pure _) (.pure _)

theorem assert_uses (condition : Prop) [Decidable condition] : UsesLog 0 (assert condition) := .ite (.pure ()) (.stop _)

theorem assertNoNeedToRestart_uses : UsesLog 0 assertNoNeedToRestartOpInImap2blockno :=
  .andThen .get fun _ => .ite (.stop _) (.pure ())

/-- At most one block for each of the four levels with its bitmap block, and the three index blocks. -/
theorem imap2blockno_uses (ip bn : Nat) : UsesLog 11 (imap2blockno ip bn) := by
  unfold imap2blockno
  refine .andThen assertNoNeedToRestart_uses fun _ => ?_
  dsimp only
  split
  · exact (addrsFindOrAlloc_uses ip bn).mono (by decide)
  split
  · exact .seq 2 3 (by decide) (addrsFindOrAlloc_uses ip _) fun _ => indexFindOrAlloc_uses _ _
  split
  · exact .seq 2 6 (by decide) (addrsFindOrAlloc_uses ip _) fun _ => .andThen (assert_uses _) fun _ =>
      .seq 3 3 (Nat.le_refl _) (indexFindOrAlloc_uses _ _) fun _ => indexFindOrAlloc_uses _ _
  split
  · exact .seq 2 9 (Nat.le_refl _) (addrsFindOrAlloc_uses ip _) fun _ => .andThen (assert_uses _) fun _ =>
      .seq 3 6 (Nat.le_refl _) (indexFindOrAlloc_uses _ _) fun _ => .andThen (assert_uses _) fun _ =>
        .seq 3 3 (Nat.le_refl _) (indexFindOrAlloc_uses _ _) fun _ => indexFindOrAlloc_uses _ _
  · exact .stop _

/-- The calls of `block_free` on an index block whose entries are `level` levels above the data. -/
def entriesFreed : Nat → Nat
  | 0 => NINDIRECT1 * 1
  | level + 1 => NINDIRECT1 * (entriesFreed level + 1)

theorem freeEntries_uses : ∀ level blockno, UsesLog (entriesFreed level) (freeEntries level blockno)
  | 0, _ => .andThen (loggedRead_uses _) fun _ => .forRange (fun _ => .ite (blockFree_uses _) (.pure ())) 0 NINDIRECT1
  | level + 1, _ => .andThen (loggedRead_uses _) fun _ =>
    .forRange (fun _ => .ite (.bind (freeEntries_uses level _) fun _ => blockFree_uses _) (.pure ())) 0 NINDIRECT1

theorem freeTree_uses (ip slot level : Nat) : UsesLog (entriesFreed level + 1) (freeTree ip slot level) :=
  .andThen .get fun _ => .ite (.bind (freeEntries_uses level _) fun _ => blockFree_uses _) (.pure ())

def itruncFreed : Nat :=
  NDIRECT * 1 + (entriesFreed 0 + 1 + (entriesFreed 1 + 1 + (entriesFreed 2 + 1)))

theorem itrunc_uses (ip : Nat) : UsesLog (itruncFreed + 1) (itrunc ip) := by
  have direct : UsesLog (NDIRECT * 1) (forRange 0 NDIRECT fun i => do
      let fs ← Exec.get
      let addr := (fs.inode ip).copy.addrs i
      if addr ≠ 0 then blockFree addr else pure ()) :=
    .forRange (fun _ => .andThen .get fun _ => .ite (blockFree_uses _) (.pure ())) 0 NDIRECT
  have whole := direct.bind fun _ => (freeTree_uses ip NDIRECT 0).bind fun _ =>
    (freeTree_uses ip (NDIRECT + 1) 1).bind fun _ => (freeTree_uses ip (NDIRECT + 2) 2).bind fun _ =>
      (modifyCopy_uses ip fun copy => { copy with addrs := fun _ => 0, size := 0 }).andThen fun _ => iupdate_uses ip
  exact whole.mono (by unfold itruncFreed; omega)

theorem iput_uses (ip : Nat) : UsesLog (itruncFreed + 2) (iput ip) := by
  unfold iput
  refine .andThen .get fun fs => ?_
  dsimp only
  split
  · split
    · exact .andThen (.stop _) fun _ => (modifyInode_uses ip _).mono (Nat.zero_le _)
    · refine .seq (itruncFreed + 1) 1 (Nat.le_refl _) (itrunc_uses ip) fun _ => .andThen (modifyCopy_uses ip _) fun _ => ?_
      exact .ending (iupdate_uses ip) fun _ => .andThen (modifyInode_uses ip _) fun _ => modifyInode_uses ip _
  · exact (modifyInode_uses ip _).mono (Nat.zero_le _)

theorem iunlockput_uses (ip : Nat) : UsesLog (itruncFreed + 2) (iunlockput ip) :=
  .andThen (iunlock_uses ip) fun _ => iput_uses ip

theorem writeBlock_uses (ip bn offset : Nat) (data : List Byte) : UsesLog 12 (writeBlock ip bn offset data) :=
  .seq 11 1 (Nat.le_refl _) (imap2blockno_uses ip bn) fun _ => loggedUpdate_uses _ _

theorem touch_uses (ip : Nat) : UsesLog 0 (touch ip) :=
  .andThen getCurrentTimespec_uses fun _ => modifyCopy_uses ip _

theorem readBlock_uses (ip bn offset count : Nat) : UsesLog 11 (readBlock ip bn offset count) :=
  .ending (imap2blockno_uses ip bn) fun _ => .andThen (loggedRead_uses _) fun _ => .pure _

/-! Opening and closing an operation. -/

section
variable {fs : FS}

theorem beginOp_spec (admits : fs.log.admits = true) :
    Ensures beginOp fs
      (fun _ after => after = { fs with
        log := { fs.log with outstanding := fs.log.outstanding + 1 }, n_log_wrote := 0, history := .beginOp :: fs.history })
      fun _ _ => False := by
  simp only [beginOp, ensures_bind, ensures_get]
  rw [if_pos admits]
  unfold note
  rw [ensures_bind, ensures_modify, ensures_modify]

/-- The disk after a commit. -/
def committedDisk (fs : FS) : Nat → Block := fun blockno =>
  if blockno ∈ fs.log.block then fs.store blockno else fs.device blockno

/-- One operation less. -/
def closed (fs : FS) : FS :=
  { fs with log := { fs.log with outstanding := fs.log.outstanding - 1 }, history := .endOp :: fs.history }

def afterCommit (fs : FS) : FS :=
  { fs with
    device := fs.committedDisk
    log := { fs.log with block := [] }
    history := .committed fs.committedDisk :: fs.history }

theorem commit_spec : Ensures commit fs (fun _ after => after = fs.afterCommit) fun _ _ => False := by
  simp only [commit, note, ensures_bind, ensures_modify, ensures_get]
  rfl

theorem endOp_spec (alone : fs.log.committing = false) :
    Ensures endOp fs (fun _ after => after = if fs.log.outstanding = 1 then fs.closed.afterCommit else fs.closed)
      fun _ _ => False := by
  unfold endOp note
  rw [ensures_bind, ensures_modify, ensures_bind, ensures_get, if_neg (by simp [alone]), ensures_bind, ensures_modify]
  split
  next last =>
    have last : fs.log.outstanding - 1 = 0 := last
    have commits := @commit_spec fs.closed
    rw [if_pos (by omega)]
    exact commits
  next more =>
    have more : ¬ fs.log.outstanding - 1 = 0 := more
    rw [ensures_pure, if_neg (by omega)]
    rfl

end

end FS
end Myfuse
