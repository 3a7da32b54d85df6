import Mathlib.Algebra.BigOperators.Group.Finset.Basic
import Mathlib.Algebra.Order.BigOperators.Group.Finset
import Mathlib.Order.Interval.Finset.Nat
import Myfuse.Proofs.LogAgreement

/-! When `logged_write` gives up, over any threads and any order of their steps. -/

namespace Myfuse
variable {Thread : Type} [DecidableEq Thread]

namespace LogThreads
variable {state after : LogThreads Thread} {ledger : Ledger Thread} {open_ : Finset Thread}

omit [DecidableEq Thread] in
theorem start_size {sb : Superblock} (sized : sb.nlog = NLOG) : (start sb : LogThreads Thread).log.size = NLOG := by
  simp only [start, Fslog.init, sized]
  decide

/-- Only a full log makes a step exit with "too big a transaction". -/
theorem exits_iff (sized : state.log.size = NLOG) (agrees : state.Agrees ledger open_) {event : LogEvent Thread} (stepped : state.step event = some after) :
    after.exited = some .tooBigTransaction ↔
      (∃ thread blockno, event = .loggedWrite thread blockno) ∧ NLOG - 1 ≤ ledger.group.length := by
  obtain ⟨alive, ⟨thread, rfl, _, _, rfl⟩ | ⟨thread, blockno, rfl, inside, rfl⟩ | ⟨thread, rfl, _, rfl⟩ |
    ⟨thread, phase, rfl, _, rfl⟩⟩ := step_cases stepped
  · simp [LogThreads.beginOp, alive]
  · have full : state.log.tooBig = true ↔ NLOG - 1 ≤ ledger.group.length := by
      rw [← agrees.group (agrees.idle inside), Fslog.tooBig, Bool.or_eq_true, decide_eq_true_iff, decide_eq_true_iff,
        sized, Fslog.n]
      simp only [NLOG, MAXOPBLOCKS]
      omega
    rw [← full]
    unfold LogThreads.loggedWrite
    split
    next big => simp [big]
    next small => split <;> simp [small, alive]
  · unfold LogThreads.endOp
    dsimp only
    split
    · simp
    · split <;> simp [alive]
  · cases phase <;> simp only [LogThreads.commitStep]
    case installing tail => split <;> simp [alive]
    all_goals simp [alive]

/-! The room a reservation keeps. -/

/-- Every `begin_op` leaves one block for the header besides what the open operations may still log. -/
def ReservesBelowHeader (events : List (LogEvent Thread)) : Prop :=
  ∀ before thread after, events = before ++ .beginOp thread :: after →
    (Ledger.of before).group.length + ((Ledger.of before).depth + 1) * MAXOPBLOCKS < NLOG - 1

/-- What the open operations have logged and may still log stays below the header's limit. -/
structure Roomy (ledger : Ledger Thread) (open_ : Finset Thread) : Prop where
  own : ∀ thread ∈ open_, ∀ blockno ∈ ledger.own thread, blockno ∈ ledger.group
  room : ledger.group.length + ∑ thread ∈ open_, (MAXOPBLOCKS - (ledger.own thread).length) < NLOG - 1

theorem mem_note {blocks : List Nat} {blockno other : Nat} :
    other ∈ Ledger.note blocks blockno ↔ other ∈ blocks ∨ other = blockno := by
  unfold Ledger.note
  split
  next listed => exact ⟨.inl, fun either => either.elim id fun same => same ▸ listed⟩
  next => simp

theorem Roomy.beginOp (roomy : Roomy ledger open_) (depth : ledger.depth = open_.card) {thread : Thread}
    (absent : thread ∉ open_) (reserved : ledger.group.length + (ledger.depth + 1) * MAXOPBLOCKS < NLOG - 1) :
    Roomy (ledger.record (.beginOp thread)) (insert thread open_) := by
  constructor
  · intro other member blockno logged
    rcases Finset.mem_insert.mp member with rfl | member
    · simp [Ledger.record] at logged
    · by_cases same : other = thread
      · simp [Ledger.record, same] at logged
      · exact roomy.own other member blockno (by simpa [Ledger.record, same] using logged)
  · have bound : ∑ other ∈ insert thread open_, (MAXOPBLOCKS - ((ledger.record (.beginOp thread)).own other).length) ≤
        (insert thread open_).card * MAXOPBLOCKS := Finset.sum_le_card_nsmul _ _ _ fun _ _ => Nat.sub_le _ _
    rw [Finset.card_insert_of_notMem absent, ← depth] at bound
    exact Nat.lt_of_le_of_lt (Nat.add_le_add_left bound _) reserved

theorem Roomy.loggedWrite (roomy : Roomy ledger open_) {thread : Thread} (member : thread ∈ open_) {blockno : Nat}
    (keeps : ((ledger.record (.loggedWrite thread blockno)).own thread).length ≤ MAXOPBLOCKS) :
    Roomy (ledger.record (.loggedWrite thread blockno)) open_ := by
  constructor
  · intro other inside logged here
    simp only [Ledger.record, mem_note] at here ⊢
    by_cases same : other = thread
    · subst same
      rw [Function.update_self, mem_note] at here
      exact here.imp (roomy.own other inside logged) id
    · rw [Function.update_of_ne same] at here
      exact .inl (roomy.own other inside logged here)
  · -- A block new to the group is new to its operation, which has room for it.
    have room := roomy.room
    rw [← Finset.add_sum_erase _ _ member] at room ⊢
    have others : ∑ other ∈ open_.erase thread, (MAXOPBLOCKS - ((ledger.record (.loggedWrite thread blockno)).own other).length) =
        ∑ other ∈ open_.erase thread, (MAXOPBLOCKS - (ledger.own other).length) :=
      Finset.sum_congr rfl fun other inside => by
        simp only [Ledger.record, Function.update_of_ne (Finset.ne_of_mem_erase inside)]
    rw [others]
    simp only [Ledger.record, Function.update_self, Ledger.note] at keeps ⊢
    by_cases own : blockno ∈ ledger.own thread
    · rw [if_pos own, if_pos (roomy.own thread member blockno own)]
      exact room
    · rw [if_neg own, List.length_append, List.length_singleton] at keeps ⊢
      split
      · omega
      · rw [List.length_append, List.length_singleton]
        omega

theorem Roomy.endOp (roomy : Roomy ledger open_) {thread : Thread} (member : thread ∈ open_) (depth : ledger.depth = open_.card) :
    Roomy (ledger.record (.endOp thread)) (open_.erase thread) := by
  have room := roomy.room
  rw [← Finset.add_sum_erase _ _ member] at room
  have others : ∑ other ∈ open_.erase thread, (MAXOPBLOCKS - ((ledger.record (.endOp thread)).own other).length) =
      ∑ other ∈ open_.erase thread, (MAXOPBLOCKS - (ledger.own other).length) :=
    Finset.sum_congr rfl fun other inside => by
      simp only [Ledger.record, Function.update_of_ne (Finset.ne_of_mem_erase inside)]
  constructor
  · intro other inside blockno logged
    have apart := Finset.ne_of_mem_erase inside
    have some : ledger.depth - 1 ≠ 0 := by
      rw [depth, ← Finset.card_erase_of_mem member]
      exact Finset.card_ne_zero_of_mem inside
    simp only [Ledger.record, if_neg some, Function.update_of_ne apart] at logged ⊢
    exact roomy.own other (Finset.mem_of_mem_erase inside) blockno logged
  · rw [others]
    simp only [Ledger.record]
    split
    · rw [List.length_nil]
      omega
    · omega

/-- The open operations of a live run are those of its ledger, with room for each. -/
theorem run_roomy {sb : Superblock} {events : List (LogEvent Thread)}
    (keeps : KeepsReservation events) (reserves : ReservesBelowHeader events)
    (ran : (start sb).run events = some state) (lives : state.exited = none) :
    ∃ open_, state.Agrees (Ledger.of events) open_ ∧ Roomy (Ledger.of events) open_ := by
  induction events using List.reverseRecOn generalizing state with
  | nil =>
    cases ran
    exact ⟨∅, agrees_start sb, by simp, by simp [Ledger.of, Ledger.start, NLOG, MAXOPBLOCKS]⟩
  | append_singleton events event ih =>
    rw [run_snoc] at ran
    obtain ⟨middle, first, stepped⟩ := Option.bind_eq_some_iff.mp ran
    have keepsBefore : KeepsReservation events := fun before after shape =>
      keeps before (after ++ [event]) (by rw [shape, List.append_assoc])
    have reservesBefore : ReservesBelowHeader events := fun before thread after shape =>
      reserves before thread (after ++ [event]) (by rw [shape, List.append_assoc, List.cons_append])
    obtain ⟨open_, agrees, roomy⟩ := ih keepsBefore reservesBefore first (step_cases stepped).1
    have last := keeps (events ++ [event]) [] (List.append_nil _).symm
    rw [ledger_snoc] at last ⊢
    obtain ⟨_, ⟨thread, rfl, outside, admitted, rfl⟩ | ⟨thread, blockno, rfl, inside, rfl⟩ | ⟨thread, rfl, inside, rfl⟩ |
      ⟨thread, phase, rfl, found, rfl⟩⟩ := step_cases stepped
    · have absent : thread ∉ open_ := fun member => by
        have := (agrees.inside thread).mpr member
        simp [outside] at this
      exact ⟨_, agrees.beginOp outside admitted,
        roomy.beginOp agrees.depth absent (reserves events thread [] rfl)⟩
    · exact ⟨_, agrees.loggedWrite inside blockno lives, roomy.loggedWrite ((agrees.inside thread).mp inside) (last thread)⟩
    · exact ⟨_, agrees.endOp inside, roomy.endOp ((agrees.inside thread).mp inside) agrees.depth⟩
    · exact ⟨_, agrees.commitStep found, roomy⟩

/-- The log is found full exactly when a block is logged into a group that already
holds `NLOG - 1` distinct ones. -/
theorem never_full_iff {sb : Superblock} (sized : sb.nlog = NLOG) {events : List (LogEvent Thread)}
    (ran : (start sb).run events = some state) :
    state.exited ≠ some .tooBigTransaction ↔
      ∀ before thread blockno after, events = before ++ .loggedWrite thread blockno :: after →
        (Ledger.of before).group.length < NLOG - 1 := by
  induction events using List.reverseRecOn generalizing state with
  | nil =>
    cases ran
    simp [start]
  | append_singleton events event ih =>
    rw [run_snoc] at ran
    obtain ⟨middle, first, stepped⟩ := Option.bind_eq_some_iff.mp ran
    have alive := (step_cases stepped).1
    obtain ⟨open_, agrees⟩ := run_agrees first alive
    have earlier := (ih first).mp (by simp [alive])
    rw [Ne, exits_iff ((run_size first).trans (start_size sized)) agrees stepped]
    constructor
    · intro roomy before thread blockno after shape
      rcases List.eq_nil_or_concat after with rfl | ⟨rest, last, rfl⟩
      · obtain ⟨rfl, same⟩ := List.append_inj' shape rfl
        obtain rfl := List.singleton_inj.mp same
        exact Nat.not_le.mp fun full => roomy ⟨⟨thread, blockno, rfl⟩, full⟩
      · rw [List.concat_eq_append, ← List.cons_append, ← List.append_assoc] at shape
        obtain ⟨rfl, _⟩ := List.append_inj' shape rfl
        exact earlier before thread blockno rest rfl
    · rintro roomy ⟨⟨thread, blockno, rfl⟩, full⟩
      have := roomy events thread blockno [] rfl
      omega

/-- Over any threads and any order of their steps: the log is never found full exactly
when no block is logged into a group that already holds `NLOG - 1` distinct ones, and
never when every `begin_op` leaves that block out of what the operations may log. -/
theorem admission_sound_iff {disk_size : Nat} {events : List (LogEvent Thread)} (keeps : KeepsReservation events)
    (ran : (start (initSuperBlock disk_size)).run events = some state) :
    (state.exited ≠ some .tooBigTransaction ↔
      ∀ before thread blockno after, events = before ++ .loggedWrite thread blockno :: after →
        (Ledger.of before).group.length < NLOG - 1) ∧
    (ReservesBelowHeader events → state.exited ≠ some .tooBigTransaction) := by
  have sized : (initSuperBlock disk_size).nlog = NLOG := rfl
  refine ⟨never_full_iff sized ran, fun reserves full => ?_⟩
  rcases List.eq_nil_or_concat events with rfl | ⟨before, event, rfl⟩
  · cases ran
    cases full
  · rw [List.concat_eq_append] at keeps ran reserves
    have keepsBefore : KeepsReservation before := fun first second shape =>
      keeps first (second ++ [event]) (by rw [shape, List.append_assoc])
    have reservesBefore : ReservesBelowHeader before := fun first thread second shape =>
      reserves first thread (second ++ [event]) (by rw [shape, List.append_assoc, List.cons_append])
    rw [run_snoc] at ran
    obtain ⟨middle, first, stepped⟩ := Option.bind_eq_some_iff.mp ran
    obtain ⟨open_, agrees, roomy⟩ := run_roomy keepsBefore reservesBefore first (step_cases stepped).1
    have room := roomy.room
    have := ((exits_iff ((run_size first).trans (start_size sized)) agrees stepped).mp full).2
    omega

/-! Eight operations with `MAXOPBLOCKS` blocks each. -/

/-- What a thread's operation has logged, it has logged. -/
theorem own_logged (events : List (LogEvent Thread)) (thread : Thread) :
    ((Ledger.of events).own thread).Nodup ∧
      ∀ blockno ∈ (Ledger.of events).own thread, .loggedWrite thread blockno ∈ events := by
  induction events using List.reverseRecOn with
  | nil => simp [Ledger.of, Ledger.start]
  | append_singleton events event ih =>
    rw [ledger_snoc]
    have earlier : ∀ blockno ∈ (Ledger.of events).own thread, .loggedWrite thread blockno ∈ events ++ [event] :=
      fun blockno logged => List.mem_append_left _ (ih.2 blockno logged)
    cases event with
    | commit other => exact ⟨ih.1, earlier⟩
    | beginOp other =>
      by_cases same : thread = other
      · simp [Ledger.record, same]
      · simpa only [Ledger.record, Function.update_of_ne same] using And.intro ih.1 earlier
    | endOp other =>
      by_cases same : thread = other
      · simp [Ledger.record, same]
      · simpa only [Ledger.record, Function.update_of_ne same] using And.intro ih.1 earlier
    | loggedWrite other blockno =>
      by_cases same : thread = other
      · subst same
        simp only [Ledger.record, Function.update_self, Ledger.note]
        split
        · exact ⟨ih.1, earlier⟩
        next fresh =>
          refine ⟨List.nodup_append.mpr ⟨ih.1, by simp, ?_⟩, fun block logged => ?_⟩
          · rintro block inside other single rfl
            exact fresh (List.mem_singleton.mp single ▸ inside)
          · rcases List.mem_append.mp logged with logged | last
            · exact earlier block logged
            · rw [List.mem_singleton.mp last]
              simp
      · simpa only [Ledger.record, Function.update_of_ne same] using And.intro ih.1 earlier

/-- The `index`-th write: thread `index / 127` logs block `2000 + index`. -/
def fullWrite (index : Nat) : LogEvent Nat := .loggedWrite (index / MAXOPBLOCKS) (2000 + index)

def eightBegins : List (LogEvent Nat) := (List.range 8).map .beginOp

/-- The first `count` writes of eight operations. -/
def eightFull (count : Nat) : List (LogEvent Nat) := eightBegins ++ (List.range count).map fullWrite

theorem eightFull_keeps (count : Nat) : KeepsReservation (eightFull count) := by
  intro before after shape thread
  obtain ⟨distinct, logged⟩ := own_logged before thread
  have bounds : ∀ blockno ∈ (Ledger.of before).own thread,
      blockno ∈ Finset.Ico (2000 + thread * MAXOPBLOCKS) (2000 + thread * MAXOPBLOCKS + MAXOPBLOCKS) :=
    fun blockno member => by
      have inside : .loggedWrite thread blockno ∈ eightFull count := shape ▸ List.mem_append_left after (logged blockno member)
      obtain ⟨index, _, same⟩ : ∃ index, index < count ∧ fullWrite index = .loggedWrite thread blockno := by
        simpa [eightFull, eightBegins] using inside
      obtain ⟨rfl, rfl⟩ := LogEvent.loggedWrite.inj same
      rw [Finset.mem_Ico]
      simp only [MAXOPBLOCKS]
      omega
  calc ((Ledger.of before).own thread).length = ((Ledger.of before).own thread).toFinset.card :=
        (List.toFinset_card_of_nodup distinct).symm
    _ ≤ (Finset.Ico (2000 + thread * MAXOPBLOCKS) (2000 + thread * MAXOPBLOCKS + MAXOPBLOCKS)).card :=
        Finset.card_le_card fun blockno member => bounds blockno (List.mem_toFinset.mp member)
    _ = MAXOPBLOCKS := by rw [Nat.card_Ico, Nat.add_sub_cancel_left]

/-- `begun` operations inside, `count` blocks logged. -/
def filled (begun count : Nat) : LogThreads Nat :=
  { log := { Fslog.init 2 NLOG with outstanding := begun, block := (List.range count).map (2000 + ·) }
    phase := fun thread => if thread < begun then .inside else .outside
    pins := fun blockno => if 2000 ≤ blockno ∧ blockno < 2000 + count then 1 else 0
    exited := none }

theorem step_begin {begun : Nat} (few : begun < 8) : (filled begun 0).step (.beginOp begun) = some (filled (begun + 1) 0) := by
  have admitted : (filled begun 0).log.admits = true := by
    simp only [filled, Fslog.admits, Fslog.init, Fslog.n, NLOG, MAXOPBLOCKS]
    simp
    omega
  unfold step
  rw [if_neg (by simp [filled])]
  simp only
  rw [if_pos ⟨by simp [filled], admitted⟩, Option.some.injEq]
  unfold beginOp enter filled
  congr 1
  funext thread
  by_cases same : thread = begun
  · simp [same]
  · have below : thread < begun + 1 ↔ thread < begun := by omega
    simp [same, below]

theorem run_eightBegins {begun : Nat} (few : begun ≤ 8) :
    (start (initSuperBlock 4000)).run ((List.range begun).map .beginOp) = some (filled begun 0) := by
  induction begun with
  | zero =>
    have none : (fun blockno => if 2000 ≤ blockno ∧ blockno < 2000 + 0 then 1 else 0) = fun _ => 0 :=
      funext fun blockno => if_neg (by omega)
    unfold filled
    rw [none]
    rfl
  | succ begun ih =>
    rw [List.range_succ, List.map_append, List.map_singleton, run_snoc, ih (by omega), Option.bind_some,
      step_begin (by omega)]

theorem filled_tooBig (count : Nat) : (filled 8 count).log.tooBig = decide (NLOG - 1 ≤ count) := by
  have init : (Fslog.init 2 NLOG).size = NLOG := by decide
  have size : (filled 8 count).log.size = NLOG := init
  rw [Bool.eq_iff_iff, Fslog.tooBig, Bool.or_eq_true, decide_eq_true_iff, decide_eq_true_iff, decide_eq_true_iff, size]
  simp only [filled, Fslog.n, List.length_map, List.length_range, NLOG, MAXOPBLOCKS]
  omega

theorem step_fullWrite_inside {count : Nat} (room : count < NLOG) :
    (filled 8 count).step (fullWrite count) = some ((filled 8 count).loggedWrite (2000 + count)) := by
  have inside : (filled 8 count).phase (count / MAXOPBLOCKS) = .inside := by
    refine if_pos ?_
    simp only [NLOG, MAXOPBLOCKS] at room ⊢
    omega
  unfold step
  rw [if_neg (by simp [filled]), fullWrite]
  simp only
  rw [if_pos inside]

theorem step_fullWrite {count : Nat} (room : count < NLOG - 1) :
    (filled 8 count).step (fullWrite count) = some (filled 8 (count + 1)) := by
  have fresh : 2000 + count ∉ (filled 8 count).log.block := by simp [filled]
  rw [step_fullWrite_inside (by omega), loggedWrite, filled_tooBig, if_neg (by simp only [decide_eq_true_iff]; omega),
    if_neg (by simp [filled]), if_neg fresh, Fslog.absorb, if_neg fresh, Option.some.injEq]
  unfold filled
  congr 1
  · rw [List.range_succ, List.map_append, List.map_singleton]
  · funext blockno
    by_cases same : blockno = 2000 + count
    · simp [same]
    · have below : blockno < 2000 + (count + 1) ↔ blockno < 2000 + count := by omega
      simp [same, below]

theorem run_eightFull {count : Nat} (room : count ≤ NLOG - 1) :
    (start (initSuperBlock 4000)).run (eightFull count) = some (filled 8 count) := by
  induction count with
  | zero => rw [eightFull, List.range_zero, List.map_nil, List.append_nil, eightBegins, run_eightBegins (Nat.le_refl 8)]
  | succ count ih =>
    rw [eightFull, List.range_succ, List.map_append, ← List.append_assoc, List.map_singleton, run_snoc, ← eightFull,
      ih (by omega), Option.bind_some, step_fullWrite (by omega)]

/-- The last of eight operations that keep their reservation finds the log full. -/
theorem admission_unsound : ∃ state, (start (initSuperBlock 4000)).run (eightFull NLOG) = some state ∧
    KeepsReservation (eightFull NLOG) ∧ state.exited = some .tooBigTransaction := by
  refine ⟨(filled 8 (NLOG - 1)).loggedWrite (2000 + (NLOG - 1)), ?_, eightFull_keeps NLOG, ?_⟩
  · have last : eightFull NLOG = eightFull (NLOG - 1 + 1) := by simp [NLOG, MAXOPBLOCKS]
    rw [last, eightFull, List.range_succ, List.map_append, ← List.append_assoc, List.map_singleton, run_snoc, ← eightFull,
      run_eightFull (Nat.le_refl _), Option.bind_some, step_fullWrite_inside (by simp [NLOG, MAXOPBLOCKS])]
  · rw [loggedWrite, filled_tooBig, if_pos (by simp)]

theorem admission_sound_iff_full :
    (((filled 8 (NLOG - 1)).exited ≠ some .tooBigTransaction ↔
      ∀ before thread blockno after, eightFull (NLOG - 1) = before ++ .loggedWrite thread blockno :: after →
        (Ledger.of before).group.length < NLOG - 1) ∧
    (ReservesBelowHeader (eightFull (NLOG - 1)) → (filled 8 (NLOG - 1)).exited ≠ some .tooBigTransaction)) :=
  admission_sound_iff (eightFull_keeps (NLOG - 1)) (run_eightFull (Nat.le_refl (NLOG - 1)))

end LogThreads
end Myfuse
