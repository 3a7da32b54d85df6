import Myfuse.Proofs.CacheTransparency
import Myfuse.ReadFaults

/-! While every raw read is whole, a valid buffer holds its own block. A failed read
leaves the bytes of the block that the buffer held before. -/

namespace Myfuse.ReadFaults
open Library Library.Exec

section
variable {α β : Type} {device : Nat → RawRead} {m : Machine}

/-- No raw read has failed so far. -/
def AllWhole (device : Nat → RawRead) (m : Machine) : Prop := ∀ n < m.reads, device n = .whole

/-- From `m` the faulty program does what the other one does, unless a raw read fails. -/
structure Mirrors (device : Nat → RawRead) (faulty : FaultM α) (real : CacheM α) (m : Machine) : Prop where
  grows : m.reads ≤ (faulty m).2.reads
  same : m.disk_lock = false → AllWhole device (faulty m).2 →
    (faulty m).2.disk_lock = false ∧ (faulty m).1 = (real m.cached).1 ∧ (faulty m).2.cached = (real m.cached).2

namespace Mirrors
variable {faulty : FaultM α} {real : CacheM α}

theorem lift (program : CacheM α) (m : Machine) : Mirrors device (lift program) program m :=
  ⟨Nat.le_refl _, fun unlocked _ => ⟨unlocked, rfl, rfl⟩⟩

theorem pure (value : α) (m : Machine) : Mirrors device (Pure.pure value) (Pure.pure value) m :=
  ⟨Nat.le_refl _, fun unlocked _ => ⟨unlocked, rfl, rfl⟩⟩

theorem stop (reason : CacheStop) (m : Machine) : Mirrors device (Exec.stop reason : FaultM α) (Exec.stop reason) m :=
  ⟨Nat.le_refl _, fun unlocked _ => ⟨unlocked, rfl, rfl⟩⟩

theorem bind {next : α → FaultM β} {next' : α → CacheM β} (first : Mirrors device faulty real m)
    (rest : ∀ value after, Mirrors device (next value) (next' value) after) : Mirrors device (faulty >>= next) (real >>= next') m := by
  cases found : faulty m with
  | mk result after =>
    have grows := first.grows
    have same := first.same
    rw [found] at grows same
    cases result with
    | error reason =>
      refine ⟨by rw [bind_stop found]; exact grows, fun unlocked whole => ?_⟩
      rw [bind_stop found] at whole ⊢
      obtain ⟨unlocked', result, cached⟩ := same unlocked whole
      have stopped : real m.cached = (.error reason, after.cached) := Prod.ext result.symm cached.symm
      rw [bind_stop stopped]
      exact ⟨unlocked', rfl, rfl⟩
    | ok value =>
      have later := rest value after
      refine ⟨by rw [bind_ok found]; exact Nat.le_trans grows later.grows, fun unlocked whole => ?_⟩
      rw [bind_ok found] at whole ⊢
      obtain ⟨unlocked', result, cached⟩ := same unlocked fun n early => whole n (Nat.lt_of_lt_of_le early later.grows)
      have returned : real m.cached = (.ok value, after.cached) := Prod.ext result.symm cached.symm
      rw [bind_ok returned]
      exact later.same unlocked' whole

theorem get {next : Machine → FaultM α} {next' : CacheMachine → CacheM α} (rest : Mirrors device (next m) (next' m.cached) m) :
    Mirrors device (Exec.get >>= next) (Exec.get >>= next') m := ⟨rest.grows, rest.same⟩

theorem ite {condition : Prop} [Decidable condition] {faulty' : FaultM α} {real' : CacheM α} (yes : Mirrors device faulty real m)
    (no : Mirrors device faulty' real' m) :
    Mirrors device (if condition then faulty else faulty') (if condition then real else real') m := by
  split
  · exact yes
  · exact no

theorem forRange {body : Nat → FaultM Unit} {body' : Nat → CacheM Unit} (each : ∀ i m, Mirrors device (body i) (body' i) m) :
    ∀ lo count m, Mirrors device (Exec.forRange lo count body) (Exec.forRange lo count body') m
  | _, 0, m => pure () m
  | lo, count + 1, m => bind (each lo m) fun _ => forRange each (lo + 1) count

/-- What holds after the run on the device that does not fail. -/
theorem ensures {ok : α → CacheMachine → Prop} {exit : CacheStop → CacheMachine → Prop} (mirrors : Mirrors device faulty real m)
    (unlocked : m.disk_lock = false) (spec : Ensures real m.cached ok exit) :
    Ensures faulty m (fun value after => AllWhole device after → ok value after.cached)
      fun reason after => AllWhole device after → exit reason after.cached := by
  apply ensures_of_forall
  · intro value after returned whole
    have same := mirrors.same unlocked
    rw [returned] at same
    obtain ⟨-, result, cached⟩ := same whole
    exact spec.returned (Prod.ext result.symm cached.symm)
  · intro reason after stopped whole
    have same := mirrors.same unlocked
    rw [stopped] at same
    obtain ⟨-, result, cached⟩ := same whole
    exact spec.stopped (Prod.ext result.symm cached.symm)

end Mirrors

theorem readBlockRaw_apply (block_id : Nat) (buf : Block) (unlocked : m.disk_lock = false) :
    readBlockRaw device block_id buf m = (.ok ((device m.reads).transfer (m.cached.disk block_id) buf),
      { m with reads := m.reads + 1, disk_lock := decide (device m.reads = .noSeek) }) := by
  simp [readBlockRaw, bind_apply, unlocked]

theorem bread_mirrors (blockno : Nat) (m : Machine) : Mirrors device (bread device blockno) (BufCache.bread blockno) m := by
  refine .bind (.lift _ m) fun b after => .get (.ite (.pure b after) ?_)
  cases unlocked : after.disk_lock with
  | true =>
    have blocked : readBlockRaw device blockno (after.cached.bcache.buf b).data after = (.error .blocked, after) := by
      simp [readBlockRaw, bind_apply, unlocked]
    refine ⟨?_, fun lock => absurd lock (by simp [unlocked])⟩
    rw [bind_stop blocked]
  | false =>
    have counted := @readBlockRaw_apply device after blockno (after.cached.bcache.buf b).data unlocked
    refine ⟨?_, fun _ whole => ?_⟩
    · rw [bind_ok counted]
      exact Nat.le_succ _
    · rw [bind_ok counted] at whole ⊢
      rw [whole after.reads (Nat.lt_succ_self _)]
      exact ⟨rfl, rfl, rfl⟩

theorem bwrite_mirrors (b : Handle) (m : Machine) : Mirrors device (bwrite b) (BufCache.bwrite b) m := by
  by_cases locked : m.disk_lock = true
  · refine ⟨?_, fun lock => absurd locked (by simp [lock])⟩
    simp [bwrite, bind_apply, locked]
  · have runs : bwrite b m = lift (BufCache.bwrite b) m := by simp [bwrite, bind_apply, locked]
    have lifted : Mirrors device (lift (BufCache.bwrite b)) (BufCache.bwrite b) m := .lift _ m
    obtain ⟨grows, same⟩ := lifted
    exact ⟨runs ▸ grows, runs ▸ same⟩

/-- A recycled buffer is valid after any raw read; the bytes that the read did not replace are the other block's. -/
theorem bread_recycled {blockno : Nat} {b : Handle} {found : CacheMachine} (unlocked : m.disk_lock = false)
    (got : BufCache.bget blockno m.cached = (.ok b, found)) (recycled : (found.bcache.buf b).valid = false) :
    ∃ after, bread device blockno m = (.ok b, after) ∧ after.cached.bcache.buf b =
      { found.bcache.buf b with
        data := ((device m.reads).transfer (found.disk blockno) (found.bcache.buf b).data).2
        valid := true } := by
  have first : lift (BufCache.bget blockno) m = (.ok b, { m with cached := found }) := by
    rw [lift, got]
  have ran : bread device blockno m = lift (do
      BufCache.setBuf b fun buf =>
        { buf with data := ((device m.reads).transfer (found.disk blockno) (found.bcache.buf b).data).2, valid := true }
      pure b) { cached := found, reads := m.reads + 1, disk_lock := decide (device m.reads = .noSeek) } := by
    unfold bread
    rw [bind_ok first, bind_ok get_apply, if_neg (by simp [recycled])]
    rw [bind_ok (@readBlockRaw_apply device { m with cached := found } blockno (found.bcache.buf b).data unlocked)]
    rfl
  refine ⟨_, ran, ?_⟩
  simp [bind_apply, BufCache.setBuf, Bcache.setBuf]

variable (clock : Nat → BitVec 64)

theorem installTransaction_mirrors (recovering : Bool) (m : Machine) :
    Mirrors device (installTransaction device clock recovering) (BufCache.installTransaction clock recovering) m := by
  refine .get (.forRange (fun tail m => ?_) _ _ m)
  refine .bind (bread_mirrors _ _) fun log_buf _ => .bind (bread_mirrors _ _) fun dst_buf _ => .bind (.lift _ _) fun copy _ => ?_
  refine .bind (.lift _ _) fun _ _ => .bind (bwrite_mirrors _ _) fun _ _ => .ite ?_ (.bind (.lift _ _) fun _ _ => ?_)
  · exact .bind (.lift _ _) fun _ _ => .lift _ _
  · exact .bind (.lift _ _) fun _ _ => .lift _ _

theorem readLogHeaderFromDisk_mirrors (m : Machine) :
    Mirrors device (readLogHeaderFromDisk device clock) (BufCache.readLogHeaderFromDisk clock) m := by
  refine .get (.bind (bread_mirrors _ _) fun buf _ => .bind (.lift _ _) fun lh _ => .ite (.stop _ _) ?_)
  exact .bind (.lift _ _) fun _ _ => .lift _ _

theorem writeLogHeaderToDisk_mirrors (m : Machine) :
    Mirrors device (writeLogHeaderToDisk device clock) (BufCache.writeLogHeaderToDisk clock) m := by
  refine .get (.bind (bread_mirrors _ _) fun buf _ => .bind (.lift _ _) fun lh _ => .bind (.lift _ _) fun _ _ => ?_)
  exact .bind (bwrite_mirrors _ _) fun _ _ => .lift _ _

theorem recoverFromLog_mirrors (m : Machine) : Mirrors device (recoverFromLog device clock) (BufCache.recoverFromLog clock) m := by
  refine .bind (readLogHeaderFromDisk_mirrors clock _) fun _ _ => .bind (installTransaction_mirrors clock true _) fun _ _ => ?_
  exact .bind (.lift _ _) fun _ _ => writeLogHeaderToDisk_mirrors clock _

theorem writeFromCacheToLog_mirrors (m : Machine) :
    Mirrors device (writeFromCacheToLog device clock) (BufCache.writeFromCacheToLog clock) m := by
  refine .get (.forRange (fun tail m => ?_) _ _ m)
  refine .bind (bread_mirrors _ _) fun to_buf _ => .bind (bread_mirrors _ _) fun from_buf _ => .bind (.lift _ _) fun copy _ => ?_
  exact .bind (.lift _ _) fun _ _ => .bind (bwrite_mirrors _ _) fun _ _ => .bind (.lift _ _) fun _ _ => .lift _ _

theorem commit_mirrors (m : Machine) : Mirrors device (commit device clock) (BufCache.commit clock) m := by
  refine .get (.ite ?_ (.pure _ _))
  refine .bind (writeFromCacheToLog_mirrors clock _) fun _ _ => .bind (writeLogHeaderToDisk_mirrors clock _) fun _ _ => ?_
  refine .bind (installTransaction_mirrors clock false _) fun _ _ => .bind (.lift _ _) fun _ _ => ?_
  exact writeLogHeaderToDisk_mirrors clock _

theorem endOp_mirrors (m : Machine) : Mirrors device (endOp device clock) (BufCache.endOp clock) m := by
  refine .bind (.lift _ _) fun _ _ => .get (.ite (.stop _ _) (.ite ?_ (.pure _ _)))
  exact .bind (.lift _ _) fun _ _ => .bind (commit_mirrors clock _) fun _ _ => .lift _ _

theorem run_mirrors (calls : List BufCache.Call) (held : List (Nat × Handle)) (m : Machine) :
    Mirrors device (run device clock held calls) (BufCache.run clock held calls) m := by
  induction calls generalizing held m with
  | nil => exact .pure _ _
  | cons call rest ih =>
    cases call with
    | beginOp => exact .bind (.lift _ _) fun _ _ => ih _ _
    | endOp => exact .bind (endOp_mirrors clock _) fun _ _ => ih _ _
    | loggedRead blockno =>
      exact .bind (bread_mirrors _ _) fun b _ => .bind (.lift _ _) fun contents _ => .bind (ih _ _) fun _ _ => .pure _ _
    | loggedWrite blockno contents =>
      unfold run BufCache.run
      cases held.lookup blockno with
      | none => exact .stop _ _
      | some b => exact .bind (.lift _ _) fun _ _ => .bind (.lift _ _) fun _ _ => ih _ _
    | loggedRelse blockno =>
      unfold run BufCache.run
      cases held.lookup blockno with
      | none => exact .stop _ _
      | some b => exact .bind (.lift _ _) fun _ _ => ih _ _

theorem mounted_mirrors (calls : List BufCache.Call) (m : Machine) :
    Mirrors device (mounted device clock calls) (BufCache.mounted clock calls) m :=
  .bind (recoverFromLog_mirrors clock m) fun _ _ => run_mirrors clock calls [] _

end

/-- The contents that a caller last logged in a block. -/
def lastLogged (last : Nat → Option Block) (calls : List BufCache.Call) : Nat → Option Block :=
  calls.foldl (fun last call => match call with
    | .loggedWrite blockno data => Function.update last blockno (some data)
    | _ => last) last

/-- Each valid buffer holds its own block, as last logged or as on the device. -/
def OwnContents (calls : List BufCache.Call) (m : CacheMachine) : Prop :=
  ∀ b < NCACHE_BUF, (m.bcache.buf b).valid = true →
    if (m.bcache.buf b).blockno ∈ m.log.block then lastLogged (fun _ => none) calls (m.bcache.buf b).blockno = some (m.bcache.buf b).data
    else (m.bcache.buf b).data = m.disk (m.bcache.buf b).blockno

section
variable {logstart nlog : Nat}

/-- One call keeps track of what was last logged. -/
theorem lastLogged_step {p next : Plain} {call : BufCache.Call} {returned : List Block} {last : Nat → Option Block}
    (known : ∀ blockno ∈ p.logged, last blockno = some (p.memory blockno)) (step : p.step logstart nlog call = some (returned, next)) :
    ∀ blockno ∈ next.logged, lastLogged last [call] blockno = some (next.memory blockno) := by
  intro blockno listed
  cases call with
  | beginOp =>
    simp only [Plain.step, Option.ite_none_right_eq_some, Option.some.injEq, Prod.mk.injEq] at step
    obtain ⟨-, -, rfl⟩ := step
    exact known blockno listed
  | endOp =>
    simp only [Plain.step] at step
    split at step
    · cases step
    · split at step
      · split at step
        · obtain ⟨-, rfl⟩ := Prod.mk.inj (Option.some.inj step)
          cases listed
        · cases step
      · obtain ⟨-, rfl⟩ := Prod.mk.inj (Option.some.inj step)
        exact known blockno listed
  | loggedRead other =>
    simp only [Plain.step, Option.ite_none_right_eq_some, Option.some.injEq, Prod.mk.injEq] at step
    obtain ⟨-, -, rfl⟩ := step
    exact known blockno listed
  | loggedWrite other data =>
    simp only [Plain.step, Option.ite_none_right_eq_some, Option.some.injEq, Prod.mk.injEq] at step
    obtain ⟨-, -, rfl⟩ := step
    simp only [lastLogged, List.foldl_cons, List.foldl_nil, Function.update_apply]
    by_cases same : blockno = other
    · simp [same]
    · rw [if_neg same, if_neg same]
      apply known
      exact ((Fslog.mem_absorb _ _ _).mp listed).resolve_right same
  | loggedRelse other =>
    simp only [Plain.step, Option.ite_none_right_eq_some, Option.some.injEq, Prod.mk.injEq] at step
    obtain ⟨-, -, rfl⟩ := step
    exact known blockno listed

theorem lastLogged_after {calls : List BufCache.Call} {p : Plain} {outputs : List Block} {last : Nat → Option Block}
    (known : ∀ blockno ∈ p.logged, last blockno = some (p.memory blockno)) (plain : p.run logstart nlog calls = some outputs) :
    ∀ blockno ∈ (p.after logstart nlog calls).logged, lastLogged last calls blockno = some ((p.after logstart nlog calls).memory blockno) := by
  induction calls generalizing p outputs last with
  | nil => exact known
  | cons call rest ih =>
    rw [Plain.run] at plain
    cases step : p.step logstart nlog call with
    | none => simp [step] at plain
    | some pair =>
      obtain ⟨returned, next⟩ := pair
      simp only [step] at plain
      obtain ⟨others, later, -⟩ := Option.map_eq_some_iff.mp plain
      have after : p.after logstart nlog (call :: rest) = next.after logstart nlog rest := by simp only [Plain.after, step]
      rw [after]
      exact ih (lastLogged_step known step) later

theorem ownContents_of_follows {calls : List BufCache.Call} {p : Plain} {held : List (Nat × Handle)} {s : CacheMachine}
    (follows : Follows logstart nlog p held s)
    (known : ∀ blockno ∈ p.logged, lastLogged (fun _ => none) calls blockno = some (p.memory blockno)) : OwnContents calls s := by
  intro b inside valid
  obtain ⟨m, sim, shows, -⟩ := follows
  obtain ⟨hashid, -, member⟩ := sim.serves.covered b inside
  have cached := sim.serves.cache_of_cached (sim.serves.first hashid b member valid) valid
  have contents : m.view.contents (s.bcache.buf b).blockno = (s.bcache.buf b).data := by
    show m.contents _ = _
    simp [Machine.contents, cached]
  have listed : s.log.block = p.logged := by
    rw [sim.log, show m.log = _ from shows.log]
    rfl
  rw [listed]
  split
  next logged => rw [known _ logged, ← shows.contents _ (shows.logged _ logged), contents]
  next settled =>
    rw [← contents, shows.settled _ settled, sim.disk]
    rfl

/-- As long as every raw read returns a whole block, each valid buffer holds its own block. -/
theorem whole_reads_own_contents (device : Nat → RawRead) (clock : Nat → BitVec 64) {disk image : Nat → Block}
    {calls : List BufCache.Call} {outputs : List Block} (room : 0 < nlog) (recoverable : Recoverable logstart nlog disk image)
    (plain : (Plain.start image).run logstart nlog calls = some outputs) :
    Ensures (mounted device clock calls) (Machine.boot logstart nlog disk)
      (fun _ after => AllWhole device after → OwnContents calls after.cached) fun _ _ => True := by
  have real : Ensures (BufCache.mounted clock calls) (CacheMachine.boot logstart nlog disk)
      (fun _ after => OwnContents calls after) Stuck := by
    refine Ensures.bind (recoverFromLog_follows clock room recoverable) fun _ _ follows => ?_
    refine (run_follows clock follows plain).weaken ?_
    rintro result after ⟨-, held, final⟩
    exact ownContents_of_follows final (lastLogged_after (by simp [Plain.start]) plain)
  exact ((mounted_mirrors clock calls (Machine.boot logstart nlog disk)).ensures rfl real).mono (fun _ _ holds => holds)
    fun _ _ _ => trivial

end

/-- Block 69 holds other bytes than block 40, whose buffers are in one list. -/
def markedDisk : Nat → Block := fun blockno => if blockno = 69 then Bytes.zero.setField 0 1 7 else Bytes.zero

def readTwo : List BufCache.Call := [.loggedRead 69, .loggedRelse 69, .loggedRead 40]

def counter (now : Nat) : BitVec 64 := BitVec.ofNat 64 now

theorem markedDisk_recoverable : Recoverable 1 10 markedDisk markedDisk := recoverable_of_empty (by decide) fun _ _ => rfl

set_option maxRecDepth 10000 in
theorem whole_reads_readTwo : ∃ result after, mounted (fun _ => .whole) counter readTwo (Machine.boot 1 10 markedDisk) = (.ok result, after) ∧
    OwnContents readTwo after.cached := by
  have holds := whole_reads_own_contents (fun _ => .whole) counter (by decide) markedDisk_recoverable
    (show (Plain.start markedDisk).run 1 10 readTwo = some [markedDisk 69, markedDisk 40] from rfl)
  have computed : valueOf (do
      let _ ← mounted (fun _ => .whole) counter readTwo
      pure ()) (Machine.boot 1 10 markedDisk) = some () := by decide +kernel
  obtain ⟨result, after, returned, -⟩ := bind_returns (returns_of_valueOf computed)
  exact ⟨result, after, returned, holds.returned returned fun _ _ => rfl⟩

set_option maxRecDepth 10000 in
/-- The third raw read fails: block 69's bytes are block 40's now. -/
theorem failed_read_shows_other_block : ¬ ∀ (device : Nat → RawRead) (calls : List BufCache.Call) (outputs : List Block),
    (Plain.start markedDisk).run 1 10 calls = some outputs →
    Ensures (mounted device counter calls) (Machine.boot 1 10 markedDisk) (fun _ after => OwnContents calls after.cached) fun _ _ => True := by
  intro claimed
  have holds := claimed (fun n => if n = 2 then .failed else .whole) readTwo [markedDisk 69, markedDisk 40] rfl
  have computed : valueOf (do
      let _ ← mounted (fun n => if n = 2 then .failed else .whole) counter readTwo
      let m : Machine ← get
      pure (m.cached.log.block, (m.cached.bcache.cached 40).map fun b => (b, (m.cached.bcache.buf b).valid, (m.cached.bcache.buf b).blockno,
        (m.cached.bcache.buf b).data.byte 0 == (m.cached.disk 40).byte 0)))
      (Machine.boot 1 10 markedDisk) = some ([], some (1014, true, 40, false)) := by decide +kernel
  obtain ⟨result, after, returned, rest⟩ := bind_returns (returns_of_valueOf computed)
  rw [bind_ok get_apply] at rest
  have values := congrArg Prod.fst rest
  simp only [pure_apply, Except.ok.injEq, Option.map_eq_some_iff, Prod.mk.injEq] at values
  obtain ⟨listed, b, -, rfl, valid, blockno, shown⟩ := values
  have own := holds.returned returned 1014 (by decide) valid
  rw [listed, blockno, if_neg (by simp)] at own
  rw [own, beq_self_eq_true] at shown
  cases shown

end Myfuse.ReadFaults
