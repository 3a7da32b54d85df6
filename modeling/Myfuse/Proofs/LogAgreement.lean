import Mathlib.Data.Finset.Card
import Myfuse.LogThreads

/-! The log's counters and flag agree with its threads and with the ledger of the
run, over any threads and any order of their steps. -/

namespace Myfuse
variable {Thread : Type}

namespace LogThreads

/-- The threads inside an operation. -/
def Inside (state : LogThreads Thread) (open_ : Finset Thread) : Prop :=
  ∀ thread, state.phase thread = .inside ↔ thread ∈ open_

/-- The log and the ledger tell the same story. -/
structure Agrees (state : LogThreads Thread) (ledger : Ledger Thread) (open_ : Finset Thread) : Prop where
  inside : state.Inside open_
  outstanding : state.log.outstanding = open_.card
  depth : ledger.depth = open_.card
  committing : state.log.committing = true → open_ = ∅ ∧ ledger.group = []
  group : state.log.committing = false → state.log.block = ledger.group
  committer : ∀ thread phase, state.phase thread = .committing phase → state.log.committing = true
  lone : ∀ first second firstPhase secondPhase, state.phase first = .committing firstPhase →
    state.phase second = .committing secondPhase → first = second
  cleared : ∀ thread phase, state.phase thread = .committing phase → phase = .emptyHeader ∨ phase = .done →
    state.log.block = []

variable {state after : LogThreads Thread} {ledger : Ledger Thread} {open_ : Finset Thread}

theorem agrees_start (sb : Superblock) : (start sb : LogThreads Thread).Agrees .start ∅ where
  inside := by simp [Inside, start]
  outstanding := rfl
  depth := rfl
  committing := by simp [start, Fslog.init]
  group := fun _ => rfl
  committer := by simp [start]
  lone := by simp [start]
  cleared := by simp [start]

/-- While a thread is inside an operation, nobody commits. -/
theorem Agrees.idle (agrees : state.Agrees ledger open_) {thread : Thread} (inside : state.phase thread = .inside) :
    state.log.committing = false := by
  by_contra busy
  have none := (agrees.committing (Bool.not_eq_false _ ▸ busy)).1
  have member := (agrees.inside thread).mp inside
  simp [none] at member

theorem Agrees.no_committer (agrees : state.Agrees ledger open_) (idle : state.log.committing = false) (thread : Thread)
    (phase : CommitPhase) : state.phase thread ≠ .committing phase := fun found => by
  have := agrees.committer thread phase found
  simp [idle] at this

variable [DecidableEq Thread]

@[simp] theorem phase_enter (state : LogThreads Thread) (thread : Thread) (phase : ThreadPhase) :
    (state.enter thread phase).phase = Function.update state.phase thread phase := rfl

@[simp] theorem log_enter (state : LogThreads Thread) (thread : Thread) (phase : ThreadPhase) :
    (state.enter thread phase).log = state.log := rfl

@[simp] theorem exited_enter (state : LogThreads Thread) (thread : Thread) (phase : ThreadPhase) :
    (state.enter thread phase).exited = state.exited := rfl

theorem Agrees.beginOp (agrees : state.Agrees ledger open_) {thread : Thread} (outside : state.phase thread = .outside)
    (admitted : state.log.admits = true) :
    (state.beginOp thread).Agrees (ledger.record (.beginOp thread)) (insert thread open_) := by
  have absent : thread ∉ open_ := fun member => by
    have := (agrees.inside thread).mpr member
    simp [outside] at this
  have idle : state.log.committing = false := by
    simp only [Fslog.admits, Bool.and_eq_true, Bool.not_eq_true'] at admitted
    exact admitted.1
  have card : (insert thread open_).card = open_.card + 1 := Finset.card_insert_of_notMem absent
  have others : ∀ other phase, (state.beginOp thread).phase other = .committing phase →
      state.phase other = .committing phase := fun other phase found => by
    by_cases same : other = thread
    · simp [LogThreads.beginOp, same] at found
    · simpa [LogThreads.beginOp, same] using found
  constructor
  case inside =>
    intro other
    by_cases same : other = thread
    · simp [LogThreads.beginOp, same]
    · simpa [LogThreads.beginOp, same] using agrees.inside other
  case outstanding =>
    have := agrees.outstanding
    simp only [LogThreads.beginOp, log_enter, card]
    omega
  case depth =>
    have := agrees.depth
    simp only [Ledger.record, card]
    omega
  case committing => simp [LogThreads.beginOp, idle]
  case group => exact agrees.group
  case committer => exact fun other phase found => agrees.committer other phase (others other phase found)
  case lone =>
    exact fun first second _ _ one two => agrees.lone first second _ _ (others _ _ one) (others _ _ two)
  case cleared => exact fun other phase found => agrees.cleared other phase (others other phase found)

theorem Agrees.loggedWrite (agrees : state.Agrees ledger open_) {thread : Thread} (inside : state.phase thread = .inside)
    (blockno : Nat) (lives : (state.loggedWrite blockno).exited = none) :
    (state.loggedWrite blockno).Agrees (ledger.record (.loggedWrite thread blockno)) open_ := by
  have idle := agrees.idle inside
  unfold LogThreads.loggedWrite at lives ⊢
  split at lives
  · cases lives
  split at lives
  · cases lives
  next room under =>
    rw [if_neg room, if_neg under]
    constructor
    case inside => exact agrees.inside
    case outstanding => rw [Fslog.absorb_outstanding]; exact agrees.outstanding
    case depth => exact agrees.depth
    case committing => simp [idle]
    case group =>
      intro _
      simp only [Ledger.record, ← agrees.group idle, Fslog.absorb, Ledger.note]
      split <;> rfl
    case committer => exact fun other phase found => absurd found (agrees.no_committer idle other phase)
    case lone => exact fun first second _ _ found _ => absurd found (agrees.no_committer idle first _)
    case cleared => exact fun other phase found => absurd found (agrees.no_committer idle other phase)

theorem Agrees.endOp (agrees : state.Agrees ledger open_) {thread : Thread} (inside : state.phase thread = .inside) :
    (state.endOp thread).Agrees (ledger.record (.endOp thread)) (open_.erase thread) := by
  have idle := agrees.idle inside
  have member := (agrees.inside thread).mp inside
  have card : (open_.erase thread).card = open_.card - 1 := Finset.card_erase_of_mem member
  have some : 0 < open_.card := Finset.card_pos.mpr ⟨thread, member⟩
  have outstanding := agrees.outstanding
  have depth := agrees.depth
  have stillInside : ∀ phase : ThreadPhase, phase ≠ .inside → ∀ other,
      Function.update state.phase thread phase other = .inside ↔ other ∈ open_.erase thread := fun phase apart other => by
    by_cases same : other = thread
    · simp [same, apart]
    · simpa [same] using agrees.inside other
  unfold LogThreads.endOp
  rw [if_neg (by simp [idle])]
  split
  next last =>
    have zero : state.log.outstanding - 1 = 0 := last
    have last : open_.card = 1 := by omega
    have none : open_.erase thread = ∅ := Finset.card_eq_zero.mp (by omega)
    have committer : ∀ other phase, Function.update state.phase thread (.committing .start) other = .committing phase →
        other = thread ∧ phase = .start := fun other phase found => by
      by_cases same : other = thread
      · subst same
        rw [Function.update_self] at found
        cases found
        exact ⟨rfl, rfl⟩
      · rw [Function.update_of_ne same] at found
        exact absurd found (agrees.no_committer idle other phase)
    constructor
    case inside => exact stillInside (.committing .start) (by simp)
    case outstanding => rw [card]; simp only [log_enter]; omega
    case depth => rw [card]; simp only [Ledger.record]; omega
    case committing => exact fun _ => ⟨none, by simp only [Ledger.record]; rw [if_pos (by omega)]⟩
    case group => simp
    case committer => simp
    case lone =>
      exact fun first second _ _ one two => (committer _ _ one).1.trans (committer _ _ two).1.symm
    case cleared =>
      intro other phase found late
      rw [(committer other phase found).2] at late
      simp at late
  next more =>
    have others : ∀ other phase, Function.update state.phase thread .outside other ≠ .committing phase :=
      fun other phase found => by
        by_cases same : other = thread
        · simp [same] at found
        · rw [Function.update_of_ne same] at found
          exact agrees.no_committer idle other phase found
    have more : open_.card ≠ 1 := fun one => more (show state.log.outstanding - 1 = 0 by omega)
    constructor
    case inside => exact stillInside .outside (by simp)
    case outstanding => rw [card]; simp only [log_enter]; omega
    case depth => rw [card]; simp only [Ledger.record]; omega
    case committing => simp [idle]
    case group =>
      intro _
      simp only [log_enter, Ledger.record]
      rw [if_neg (by omega)]
      exact agrees.group idle
    case committer => exact fun other phase found => absurd found (others other phase)
    case lone => exact fun first second _ _ found _ => absurd found (others first _)
    case cleared => exact fun other phase found => absurd found (others other phase)

/-- The committing thread moves on. -/
private theorem Agrees.moves (agrees : state.Agrees ledger open_) {thread : Thread} {phase next : CommitPhase}
    (found : state.phase thread = .committing phase) (phases : after.phase = Function.update state.phase thread (.committing next))
    (outstanding : after.log.outstanding = state.log.outstanding)
    (busy : after.log.committing = true) (cleared : next = .emptyHeader ∨ next = .done → after.log.block = []) :
    after.Agrees ledger open_ := by
  have wasBusy := agrees.committer thread phase found
  have only : ∀ other phase, after.phase other = .committing phase → other = thread := fun other phase here => by
    by_contra apart
    rw [phases, Function.update_of_ne apart] at here
    exact apart (agrees.lone other thread _ _ here found)
  constructor
  case inside =>
    intro other
    rw [phases]
    by_cases same : other = thread
    · subst same
      have := agrees.inside other
      simpa [found] using this
    · simpa [same] using agrees.inside other
  case outstanding => rw [outstanding]; exact agrees.outstanding
  case depth => exact agrees.depth
  case committing => exact fun _ => agrees.committing wasBusy
  case group => simp [busy]
  case committer => exact fun _ _ _ => busy
  case lone => exact fun first second _ _ one two => (only first _ one).trans (only second _ two).symm
  case cleared =>
    intro other phase here late
    obtain rfl := only other phase here
    rw [phases, Function.update_self] at here
    cases here
    exact cleared late

/-- The committing thread leaves. -/
private theorem Agrees.finishes (agrees : state.Agrees ledger open_) {thread : Thread}
    (found : state.phase thread = .committing .done) : (state.commitStep thread .done).Agrees ledger open_ := by
  have none := agrees.committing (agrees.committer thread _ found)
  have others : ∀ other phase, Function.update state.phase thread .outside other ≠ .committing phase :=
    fun other phase here => by
      by_cases same : other = thread
      · simp [same] at here
      · rw [Function.update_of_ne same] at here
        exact same (agrees.lone other thread _ _ here found)
  constructor
  case inside =>
    intro other
    rw [none.1]
    by_cases same : other = thread
    · simp [LogThreads.commitStep, same]
    · have := agrees.inside other
      simpa [LogThreads.commitStep, same, none.1] using this
  case outstanding => exact agrees.outstanding
  case depth => exact agrees.depth
  case committing => simp [LogThreads.commitStep]
  case group => exact fun _ => (agrees.cleared thread _ found (.inr rfl)).trans none.2.symm
  case committer => exact fun other phase here => absurd here (others other phase)
  case lone => exact fun first second _ _ here _ => absurd here (others first _)
  case cleared => exact fun other phase here => absurd here (others other phase)

/-- A step of `commit` changes no operation and no count. -/
theorem Agrees.commitStep (agrees : state.Agrees ledger open_) {thread : Thread} {phase : CommitPhase}
    (found : state.phase thread = .committing phase) :
    (state.commitStep thread phase).Agrees ledger open_ := by
  have busy := agrees.committer thread phase found
  match phase with
  | .start =>
    refine agrees.moves found rfl rfl busy fun late => ?_
    split at late
    · simp at late
    next none => exact List.length_eq_zero_iff.mp (Nat.le_zero.mp (Nat.not_lt.mp none))
  | .copying tail =>
    refine agrees.moves found rfl rfl busy fun late => ?_
    split at late <;> simp at late
  | .header => exact agrees.moves found rfl rfl busy (by simp)
  | .installing tail =>
    simp only [LogThreads.commitStep]
    split
    · exact agrees.moves found rfl rfl busy (by simp)
    · exact agrees.moves found rfl rfl busy (by simp)
  | .clearing => exact agrees.moves found rfl rfl busy fun _ => rfl
  | .emptyHeader => exact agrees.moves found rfl rfl busy fun _ => agrees.cleared thread _ found (.inl rfl)
  | .done => exact agrees.finishes found

/-! Whole runs. -/

theorem run_snoc (state : LogThreads Thread) (events : List (LogEvent Thread)) (event : LogEvent Thread) :
    state.run (events ++ [event]) = (state.run events).bind (step · event) := by
  simp [run, List.foldlM_append]

theorem ledger_snoc (events : List (LogEvent Thread)) (event : LogEvent Thread) :
    Ledger.of (events ++ [event]) = (Ledger.of events).record event := by
  simp [Ledger.of]

/-- All that a step can be. -/
theorem step_cases {event : LogEvent Thread} (stepped : state.step event = some after) : state.exited = none ∧
    ((∃ thread, event = .beginOp thread ∧ state.phase thread = .outside ∧ state.log.admits = true ∧
        after = state.beginOp thread) ∨
      (∃ thread blockno, event = .loggedWrite thread blockno ∧ state.phase thread = .inside ∧
        after = state.loggedWrite blockno) ∨
      (∃ thread, event = .endOp thread ∧ state.phase thread = .inside ∧ after = state.endOp thread) ∨
      ∃ thread phase, event = .commit thread ∧ state.phase thread = .committing phase ∧
        after = state.commitStep thread phase) := by
  unfold step at stepped
  split at stepped
  · cases stepped
  next alive =>
    refine ⟨Option.not_isSome_iff_eq_none.mp alive, ?_⟩
    cases event with
    | beginOp thread =>
      obtain ⟨allowed, same⟩ := Option.ite_none_right_eq_some.mp stepped
      exact .inl ⟨thread, rfl, allowed.1, allowed.2, (Option.some.inj same).symm⟩
    | loggedWrite thread blockno =>
      obtain ⟨inside, same⟩ := Option.ite_none_right_eq_some.mp stepped
      exact .inr (.inl ⟨thread, blockno, rfl, inside, (Option.some.inj same).symm⟩)
    | endOp thread =>
      obtain ⟨inside, same⟩ := Option.ite_none_right_eq_some.mp stepped
      exact .inr (.inr (.inl ⟨thread, rfl, inside, (Option.some.inj same).symm⟩))
    | commit thread =>
      simp only at stepped
      split at stepped
      next phase found => exact .inr (.inr (.inr ⟨thread, phase, rfl, found, (Option.some.inj stepped).symm⟩))
      next => cases stepped

/-- What one step does to the agreement. -/
theorem Agrees.step (agrees : state.Agrees ledger open_) {event : LogEvent Thread} (stepped : state.step event = some after)
    (lives : after.exited = none) : ∃ open_', after.Agrees (ledger.record event) open_' := by
  obtain ⟨_, ⟨thread, rfl, outside, admitted, rfl⟩ | ⟨thread, blockno, rfl, inside, rfl⟩ | ⟨thread, rfl, inside, rfl⟩ |
    ⟨thread, phase, rfl, found, rfl⟩⟩ := step_cases stepped
  · exact ⟨_, agrees.beginOp outside admitted⟩
  · exact ⟨_, agrees.loggedWrite inside blockno lives⟩
  · exact ⟨_, agrees.endOp inside⟩
  · exact ⟨_, agrees.commitStep found⟩

/-- A live run agrees with its ledger. -/
theorem run_agrees {sb : Superblock} {events : List (LogEvent Thread)}
    (ran : (start sb).run events = some state) (lives : state.exited = none) :
    ∃ open_, state.Agrees (Ledger.of events) open_ := by
  induction events using List.reverseRecOn generalizing state with
  | nil =>
    cases ran
    exact ⟨∅, agrees_start sb⟩
  | append_singleton events event ih =>
    rw [run_snoc] at ran
    obtain ⟨before, first, stepped⟩ := Option.bind_eq_some_iff.mp ran
    obtain ⟨open_, agrees⟩ := ih first (step_cases stepped).1
    rw [ledger_snoc]
    exact agrees.step stepped lives

/-- No step changes the size of the log. -/
theorem step_size {event : LogEvent Thread} (stepped : state.step event = some after) :
    after.log.size = state.log.size := by
  obtain ⟨_, ⟨thread, _, _, _, rfl⟩ | ⟨thread, blockno, _, _, rfl⟩ | ⟨thread, _, _, rfl⟩ | ⟨thread, phase, _, _, rfl⟩⟩ :=
    step_cases stepped
  · rfl
  · unfold loggedWrite
    split
    · rfl
    · split
      · rfl
      · exact Fslog.absorb_size _ _
  · unfold endOp
    dsimp only
    split
    · rfl
    · split <;> rfl
  · cases phase
    case installing tail =>
      unfold commitStep
      dsimp only
      split <;> rfl
    all_goals rfl

theorem run_size {sb : Superblock} {events : List (LogEvent Thread)} (ran : (start sb).run events = some state) :
    state.log.size = (start sb : LogThreads Thread).log.size := by
  induction events using List.reverseRecOn generalizing state with
  | nil => cases ran; rfl
  | append_singleton events event ih =>
    rw [run_snoc] at ran
    obtain ⟨before, first, stepped⟩ := Option.bind_eq_some_iff.mp ran
    exact (step_size stepped).trans (ih first)

end LogThreads
end Myfuse
