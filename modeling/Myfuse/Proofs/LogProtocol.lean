import Myfuse.Proofs.LogAgreement

/-! One committer at a time, a list that only it may empty, one log pin for each
listed block, and one commit for each logged update. -/

namespace Myfuse

/-- How many of the listed blocks the committing thread has unpinned. -/
def CommitPhase.unpinned (listed : Nat) : CommitPhase → Nat
  | .installing tail => tail
  | .clearing => listed
  | _ => 0

namespace LogThreads
variable {Thread : Type}

/-- Exactly one pin on each listed block from position `from_` on. -/
def PinnedFrom (state : LogThreads Thread) (from_ : Nat) : Prop :=
  ∀ blockno, state.pins blockno = if blockno ∈ state.log.block.drop from_ then 1 else 0

structure Protocol (state : LogThreads Thread) : Prop where
  distinct : state.log.block.Nodup
  busy : state.log.committing = true → ∃ thread phase, state.phase thread = .committing phase
  pinned : state.log.committing = false → state.PinnedFrom 0
  installed : ∀ thread phase, state.phase thread = .committing phase → state.PinnedFrom (phase.unpinned state.log.n)
  atRest : state.log.committing = false → state.log.outstanding = 0 → state.log.block = []

variable {state after : LogThreads Thread} {ledger : Ledger Thread} {open_ : Finset Thread}

theorem protocol_start (sb : Superblock) : (start sb : LogThreads Thread).Protocol where
  distinct := List.nodup_nil
  busy := by simp [start, Fslog.init]
  pinned := by simp [PinnedFrom, start, Fslog.init]
  installed := by simp [start]
  atRest := by simp [start, Fslog.init]

@[simp] theorem pins_enter [DecidableEq Thread] (state : LogThreads Thread) (thread : Thread) (phase : ThreadPhase) :
    (state.enter thread phase).pins = state.pins := rfl

theorem PinnedFrom.congr {from_ : Nat} (pinned : state.PinnedFrom from_) (pins : after.pins = state.pins)
    (block : after.log.block = state.log.block) : after.PinnedFrom from_ := by
  intro blockno
  rw [pins, block]
  exact pinned blockno

/-- Unpinning the next listed block. -/
theorem PinnedFrom.unpin {tail : Nat} (pinned : state.PinnedFrom tail) (distinct : state.log.block.Nodup)
    (inside : tail < state.log.n) (pins : after.pins = Function.update state.pins (state.log.block.getD tail 0)
      (state.pins (state.log.block.getD tail 0) - 1)) (block : after.log.block = state.log.block) :
    after.PinnedFrom (tail + 1) := by
  have inside : tail < state.log.block.length := inside
  have here : state.log.block.drop tail = state.log.block.getD tail 0 :: state.log.block.drop (tail + 1) := by
    rw [List.drop_eq_getElem_cons inside, List.getD_eq_getElem?_getD, List.getElem?_eq_getElem inside, Option.getD_some]
  have fresh : state.log.block.getD tail 0 ∉ state.log.block.drop (tail + 1) := by
    have kept := distinct.sublist (List.drop_sublist tail state.log.block)
    rw [here, List.nodup_cons] at kept
    exact kept.1
  intro blockno
  rw [pins, block]
  have before := pinned blockno
  rw [here] at before
  by_cases same : blockno = state.log.block.getD tail 0
  · subst same
    rw [Function.update_self, if_neg fresh, before, if_pos List.mem_cons_self]
  · rw [Function.update_of_ne same, before]
    simp only [List.mem_cons, same, false_or]

variable [DecidableEq Thread]

theorem Protocol.beginOp (protocol : state.Protocol) (agrees : state.Agrees ledger open_) (thread : Thread)
    (admitted : state.log.admits = true) : (state.beginOp thread).Protocol := by
  have idle : state.log.committing = false := by
    simp only [Fslog.admits, Bool.and_eq_true, Bool.not_eq_true'] at admitted
    exact admitted.1
  have others : ∀ other phase, (state.beginOp thread).phase other ≠ .committing phase := fun other phase found => by
    by_cases same : other = thread
    · simp [LogThreads.beginOp, same] at found
    · exact agrees.no_committer idle other phase (by simpa [LogThreads.beginOp, same] using found)
  constructor
  case distinct => exact protocol.distinct
  case busy => simp [LogThreads.beginOp, idle]
  case pinned => exact fun _ => (protocol.pinned idle).congr rfl rfl
  case installed => exact fun other phase found => absurd found (others other phase)
  case atRest =>
    intro _ none
    have outstanding := agrees.outstanding
    simp only [LogThreads.beginOp, log_enter] at none
    omega

omit [DecidableEq Thread] in
theorem Protocol.loggedWrite (protocol : state.Protocol) (agrees : state.Agrees ledger open_) {thread : Thread}
    (inside : state.phase thread = .inside) (blockno : Nat) : (state.loggedWrite blockno).Protocol := by
  have idle := agrees.idle inside
  have one : state.log.outstanding ≠ 0 := by
    have := Finset.card_pos.mpr ⟨thread, (agrees.inside thread).mp inside⟩
    have := agrees.outstanding
    omega
  unfold LogThreads.loggedWrite
  split
  · exact { protocol with }
  split
  · exact { protocol with }
  constructor
  case distinct => exact Fslog.absorb_nodup protocol.distinct blockno
  case busy => simp [idle]
  case pinned =>
    intro _ other
    have before := protocol.pinned idle other
    simp only [List.drop_zero, Fslog.mem_absorb] at before ⊢
    split
    next listed =>
      rw [before]
      by_cases same : other = blockno
      · simp [same, listed]
      · simp [same]
    next absent =>
      by_cases same : other = blockno
      · subst same
        simp [before, absent]
      · rw [Function.update_of_ne same, before]
        simp [same]
  case installed => exact fun other phase found => absurd found (agrees.no_committer idle other phase)
  case atRest =>
    intro _ none
    rw [Fslog.absorb_outstanding] at none
    exact absurd none one

theorem Protocol.endOp (protocol : state.Protocol) (agrees : state.Agrees ledger open_) {thread : Thread}
    (inside : state.phase thread = .inside) : (state.endOp thread).Protocol := by
  have idle := agrees.idle inside
  unfold LogThreads.endOp
  rw [if_neg (by simp [idle])]
  split
  next last =>
    constructor
    case distinct => exact protocol.distinct
    case busy => exact fun _ => ⟨thread, .start, by simp⟩
    case pinned => simp
    case installed =>
      intro other phase found
      by_cases same : other = thread
      · subst same
        simp only [phase_enter, Function.update_self, ThreadPhase.committing.injEq] at found
        subst found
        exact (protocol.pinned idle).congr rfl rfl
      · exact absurd (by simpa [same] using found) (agrees.no_committer idle other phase)
    case atRest => simp
  next more =>
    constructor
    case distinct => exact protocol.distinct
    case busy => simp [idle]
    case pinned => exact fun _ => (protocol.pinned idle).congr rfl rfl
    case installed =>
      intro other phase found
      by_cases same : other = thread
      · simp [same] at found
      · exact absurd (by simpa [same] using found) (agrees.no_committer idle other phase)
    case atRest => exact fun _ none => absurd none more

/-- The committing thread moves on, having unpinned so much of the list. -/
private theorem Protocol.moves (agrees : state.Agrees ledger open_) {thread : Thread}
    {phase next : CommitPhase} (found : state.phase thread = .committing phase)
    (phases : after.phase = Function.update state.phase thread (.committing next))
    (busy : after.log.committing = true) (distinct : after.log.block.Nodup)
    (pinned : after.PinnedFrom (next.unpinned after.log.n)) : after.Protocol := by
  constructor
  case distinct => exact distinct
  case busy => exact fun _ => ⟨thread, next, by rw [phases, Function.update_self]⟩
  case pinned => simp [busy]
  case installed =>
    intro other otherPhase here
    by_cases same : other = thread
    · subst same
      rw [phases, Function.update_self, ThreadPhase.committing.injEq] at here
      subst here
      exact pinned
    · rw [phases, Function.update_of_ne same] at here
      exact absurd (agrees.lone other thread _ _ here found) same
  case atRest => simp [busy]

theorem Protocol.commitStep (protocol : state.Protocol) (agrees : state.Agrees ledger open_) {thread : Thread}
    {phase : CommitPhase} (found : state.phase thread = .committing phase) :
    (state.commitStep thread phase).Protocol := by
  have busy := agrees.committer thread phase found
  have pinned := protocol.installed thread phase found
  match phase with
  | .start =>
    refine Protocol.moves agrees found rfl busy protocol.distinct ?_
    split <;> exact pinned.congr rfl rfl
  | .copying tail =>
    refine Protocol.moves agrees found rfl busy protocol.distinct ?_
    split <;> exact pinned.congr rfl rfl
  | .header => exact Protocol.moves agrees found rfl busy protocol.distinct (pinned.congr rfl rfl)
  | .installing tail =>
    simp only [LogThreads.commitStep]
    split
    next more =>
      exact Protocol.moves agrees found rfl busy protocol.distinct (pinned.unpin protocol.distinct more rfl rfl)
    next beyond =>
      refine Protocol.moves agrees found rfl busy protocol.distinct fun blockno => ?_
      have all := pinned blockno
      have none : state.log.block.drop tail = [] := List.drop_of_length_le (Nat.not_lt.mp beyond)
      simpa [CommitPhase.unpinned, Fslog.n, none] using all
  | .clearing =>
    refine Protocol.moves agrees found rfl busy List.nodup_nil fun blockno => ?_
    have none := pinned blockno
    simp only [CommitPhase.unpinned, Fslog.n, List.drop_length] at none
    simpa [LogThreads.commitStep, CommitPhase.unpinned] using none
  | .emptyHeader => exact Protocol.moves agrees found rfl busy protocol.distinct (pinned.congr rfl rfl)
  | .done =>
    have others : ∀ other phase, Function.update state.phase thread .outside other ≠ .committing phase :=
      fun other phase here => by
        by_cases same : other = thread
        · simp [same] at here
        · rw [Function.update_of_ne same] at here
          exact same (agrees.lone other thread _ _ here found)
    constructor
    case distinct => exact protocol.distinct
    case busy => simp [LogThreads.commitStep]
    case pinned => exact fun _ => pinned.congr rfl rfl
    case installed => exact fun other phase here => absurd here (others other phase)
    case atRest => exact fun _ _ => agrees.cleared thread _ found (.inr rfl)

/-- What one step does to the protocol. -/
theorem Protocol.step (protocol : state.Protocol) (agrees : state.Agrees ledger open_) {event : LogEvent Thread}
    (stepped : state.step event = some after) : after.Protocol := by
  obtain ⟨_, ⟨thread, rfl, _, admitted, rfl⟩ | ⟨thread, blockno, rfl, inside, rfl⟩ | ⟨thread, rfl, inside, rfl⟩ |
    ⟨thread, phase, rfl, found, rfl⟩⟩ := step_cases stepped
  · exact protocol.beginOp agrees thread admitted
  · exact protocol.loggedWrite agrees inside blockno
  · exact protocol.endOp agrees inside
  · exact protocol.commitStep agrees found

/-- Even a step that exits leaves counters that agree with some ledger. -/
theorem Agrees.step_any (agrees : state.Agrees ledger open_) {event : LogEvent Thread}
    (stepped : state.step event = some after) : ∃ ledger' open_', after.Agrees ledger' open_' := by
  by_cases lives : after.exited = none
  · obtain ⟨open_', next⟩ := agrees.step stepped lives
    exact ⟨_, open_', next⟩
  obtain ⟨alive, ⟨thread, rfl, _, _, rfl⟩ | ⟨thread, blockno, rfl, inside, rfl⟩ | ⟨thread, rfl, inside, rfl⟩ |
    ⟨thread, phase, rfl, found, rfl⟩⟩ := step_cases stepped
  · exact absurd alive lives
  · unfold LogThreads.loggedWrite at lives ⊢
    split
    · exact ⟨ledger, open_, { agrees with }⟩
    split
    · exact ⟨ledger, open_, { agrees with }⟩
    next small under =>
      rw [if_neg small, if_neg under] at lives
      exact absurd alive lives
  · exact ⟨_, _, agrees.endOp inside⟩
  · exact ⟨_, _, agrees.commitStep found⟩

theorem run_protocol {sb : Superblock} {events : List (LogEvent Thread)} (ran : (start sb).run events = some state) :
    state.Protocol ∧ ∃ ledger open_, state.Agrees ledger open_ := by
  induction events using List.reverseRecOn generalizing state with
  | nil =>
    cases ran
    exact ⟨protocol_start sb, _, ∅, agrees_start sb⟩
  | append_singleton events event ih =>
    rw [run_snoc] at ran
    obtain ⟨before, first, stepped⟩ := Option.bind_eq_some_iff.mp ran
    obtain ⟨protocol, _, _, agrees⟩ := ih first
    exact ⟨protocol.step agrees stepped, agrees.step_any stepped⟩

/-- While a thread commits, the list changes only when that thread empties it. -/
theorem Agrees.frozen (agrees : state.Agrees ledger open_) {event : LogEvent Thread}
    (busy : state.log.committing = true) (stepped : state.step event = some after) :
    after.log.block = state.log.block ∨
      ∃ thread, event = .commit thread ∧ state.phase thread = .committing .clearing := by
  have nobody : ∀ thread, state.phase thread ≠ .inside := fun thread inside => by
    have := agrees.idle inside
    simp [busy] at this
  obtain ⟨_, ⟨thread, rfl, _, admitted, rfl⟩ | ⟨thread, blockno, rfl, inside, rfl⟩ | ⟨thread, rfl, inside, rfl⟩ |
    ⟨thread, phase, rfl, found, rfl⟩⟩ := step_cases stepped
  · simp [Fslog.admits, busy] at admitted
  · exact absurd inside (nobody thread)
  · exact absurd inside (nobody thread)
  · cases phase
    case clearing => exact .inr ⟨thread, rfl, found⟩
    case installing tail =>
      refine .inl ?_
      simp only [LogThreads.commitStep]
      split <;> rfl
    all_goals exact .inl rfl

/-! Each logged update goes into one commit. -/

/-- The state before event number `index`. -/
def stateAt (sb : Superblock) (events : List (LogEvent Thread)) (index : Nat) : Option (LogThreads Thread) :=
  (start sb).run (events.take index)

/-- Event number `index` makes its thread the committer. -/
def StartsCommit (sb : Superblock) (events : List (LogEvent Thread)) (index : Nat) : Prop :=
  index < events.length ∧ (∃ state, stateAt sb events index = some state ∧ state.log.committing = false) ∧
    ∃ state, stateAt sb events (index + 1) = some state ∧ state.log.committing = true

/-- The commit started by event number `commit` takes in the block logged by event number
`write`: the block is listed from that write until the commit has begun. -/
def TakesIn (sb : Superblock) (events : List (LogEvent Thread)) (blockno write commit : Nat) : Prop :=
  write < commit ∧ StartsCommit sb events commit ∧ ∀ index, write < index → index ≤ commit + 1 →
    ∃ state, stateAt sb events index = some state ∧ blockno ∈ state.log.block

variable {sb : Superblock} {events : List (LogEvent Thread)}

theorem stateAt_succ (sb : Superblock) {events : List (LogEvent Thread)} (index : Nat) (inside : index < events.length) :
    stateAt sb events (index + 1) = (stateAt sb events index).bind (step · events[index]) := by
  unfold stateAt
  rw [List.take_succ_eq_append_getElem inside, run_snoc]

theorem stateAt_length : stateAt sb events events.length = (start sb).run events := by
  unfold stateAt
  rw [List.take_length]

/-- A run passes through a state at every index. -/
theorem stateAt_some (ran : (start sb).run events = some state) (index : Nat) :
    ∃ middle, stateAt sb events index = some middle := by
  rw [← List.take_append_drop index events, run, List.foldlM_append] at ran
  obtain ⟨middle, first, _⟩ := Option.bind_eq_some_iff.mp ran
  exact ⟨middle, first⟩

/-- A listed block stays listed until a commit empties the list. -/
theorem Agrees.stays_listed (agrees : state.Agrees ledger open_) (idle : state.log.committing = false)
    {event : LogEvent Thread} (stepped : state.step event = some after) {blockno : Nat}
    (listed : blockno ∈ state.log.block) : blockno ∈ after.log.block := by
  obtain ⟨_, ⟨thread, rfl, _, _, rfl⟩ | ⟨thread, other, rfl, _, rfl⟩ | ⟨thread, rfl, _, rfl⟩ |
    ⟨thread, phase, rfl, found, rfl⟩⟩ := step_cases stepped
  · exact listed
  · unfold LogThreads.loggedWrite
    split
    · exact listed
    split
    · exact listed
    · exact (Fslog.mem_absorb _ _ _).mpr (.inl listed)
  · unfold LogThreads.endOp
    rw [if_neg (by simp [idle])]
    split <;> exact listed
  · exact absurd found (agrees.no_committer idle thread phase)

/-- A commit ends with an empty list. -/
theorem Agrees.stays_busy (agrees : state.Agrees ledger open_) (busy : state.log.committing = true)
    {event : LogEvent Thread} (stepped : state.step event = some after) {blockno : Nat}
    (listed : blockno ∈ after.log.block) : after.log.committing = true := by
  have nobody : ∀ thread, state.phase thread ≠ .inside := fun thread inside => by
    have := agrees.idle inside
    simp [busy] at this
  obtain ⟨_, ⟨thread, rfl, _, admitted, rfl⟩ | ⟨thread, other, rfl, inside, rfl⟩ | ⟨thread, rfl, inside, rfl⟩ |
    ⟨thread, phase, rfl, found, rfl⟩⟩ := step_cases stepped
  · exact busy
  · exact absurd inside (nobody thread)
  · exact absurd inside (nobody thread)
  · cases phase
    case done =>
      have empty := agrees.cleared thread _ found (.inr rfl)
      simp only [LogThreads.commitStep, log_enter, empty] at listed
      cases listed
    case installing tail =>
      simp only [LogThreads.commitStep]
      split <;> exact busy
    all_goals exact busy

/-- No second commit takes in the same update. -/
theorem takesIn_unique {blockno write first second : Nat} (one : TakesIn sb events blockno write first)
    (two : TakesIn sb events blockno write second) : ¬ first < second := by
  intro earlier
  obtain ⟨_, ⟨_, _, began, atBegan, busy⟩, _⟩ := one
  obtain ⟨_, ⟨inside, ⟨last, atLast, idle⟩, _⟩, listed⟩ := two
  have still : ∀ index, first + 1 ≤ index → index ≤ second →
      ∃ current, stateAt sb events index = some current ∧ current.log.committing = true := by
    intro index after
    induction index, after using Nat.le_induction with
    | base => exact fun _ => ⟨began, atBegan, busy⟩
    | succ index after ih =>
      intro before
      obtain ⟨current, reached, busy⟩ := ih (by omega)
      obtain ⟨next, atNext, here⟩ := listed (index + 1) (by omega) (by omega)
      have stepped := stateAt_succ sb index (by omega : index < events.length)
      rw [atNext, reached, Option.bind_some] at stepped
      obtain ⟨_, _, _, agrees⟩ := run_protocol reached
      exact ⟨next, atNext, agrees.stays_busy busy stepped.symm here⟩
  obtain ⟨current, reached, busy⟩ := still second earlier (Nat.le_refl _)
  rw [atLast] at reached
  cases reached
  simp [idle] at busy

/-- An update is in the open group, or a commit has taken it in. -/
theorem pending_or_taken {thread : Thread} {blockno write : Nat} (ran : (start sb).run events = some state)
    (logged : events[write]? = some (.loggedWrite thread blockno)) {last : Nat} (after : write + 1 ≤ last)
    (inside : last ≤ events.length) (lives : ∃ next, stateAt sb events (write + 1) = some next ∧ next.exited = none) :
    (∀ index, write < index → index ≤ last →
      ∃ current, stateAt sb events index = some current ∧ blockno ∈ current.log.block ∧ current.log.committing = false) ∨
    ∃ commit, commit < last ∧ TakesIn sb events blockno write commit := by
  induction last, after using Nat.le_induction with
  | base =>
    refine .inl fun index above below => ?_
    obtain rfl : index = write + 1 := by omega
    obtain ⟨found, event⟩ := List.getElem?_eq_some_iff.mp logged
    obtain ⟨next, atNext, alive⟩ := lives
    obtain ⟨before, reached⟩ := stateAt_some ran write
    have stepped := stateAt_succ sb write found
    rw [atNext, reached, Option.bind_some, event] at stepped
    obtain ⟨_, _, _, agrees⟩ := run_protocol reached
    obtain ⟨_, ⟨_, same, _⟩ | ⟨_, _, same, held, rfl⟩ | ⟨_, same, _⟩ | ⟨_, _, same, _⟩⟩ := step_cases stepped.symm
    all_goals cases same
    refine ⟨_, atNext, ?_, ?_⟩
    all_goals
      unfold loggedWrite at alive ⊢
      split at alive
      · cases alive
      split at alive
      · cases alive
      next small under =>
        rw [if_neg small, if_neg under]
        first
        | exact (Fslog.mem_absorb _ _ _).mpr (.inr rfl)
        | exact (Fslog.absorb_committing _ _).trans (agrees.idle held)
  | succ last after ih =>
    rcases ih (by omega) with listed | ⟨commit, early, taken⟩
    · obtain ⟨current, reached, here, idle⟩ := listed last (by omega) (Nat.le_refl _)
      obtain ⟨next, atNext⟩ := stateAt_some ran (last + 1)
      have stepped := stateAt_succ sb last (by omega : last < events.length)
      rw [atNext, reached, Option.bind_some] at stepped
      obtain ⟨_, _, _, agrees⟩ := run_protocol reached
      have stays := agrees.stays_listed idle stepped.symm here
      cases busy : next.log.committing
      · refine .inl fun index above below => ?_
        by_cases final : index = last + 1
        · exact ⟨next, final ▸ atNext, stays, busy⟩
        · exact listed index above (by omega)
      · refine .inr ⟨last, by omega, by omega, ⟨by omega, ⟨current, reached, idle⟩, next, atNext, busy⟩, ?_⟩
        intro index above below
        by_cases final : index = last + 1
        · exact ⟨next, final ▸ atNext, stays⟩
        · obtain ⟨middle, found, member, _⟩ := listed index above (by omega)
          exact ⟨middle, found, member⟩
    · exact .inr ⟨commit, by omega, taken⟩

/-- The writes of an ended operation are in the open group or in one commit. -/
theorem ended_taken {thread : Thread} {blockno write ended : Nat} (ran : (start sb).run events = some state)
    (logged : events[write]? = some (.loggedWrite thread blockno)) (later : write < ended)
    (closed : events[ended]? = some (.endOp thread)) :
    (∃! commit, TakesIn sb events blockno write commit) ∨
      (0 < state.log.outstanding ∧ blockno ∈ state.log.block ∧ ∀ commit, ¬ TakesIn sb events blockno write commit) := by
  have inside : ended < events.length := (List.getElem?_eq_some_iff.mp closed).1
  obtain ⟨next, atNext⟩ := stateAt_some ran (write + 1)
  obtain ⟨following, atFollowing⟩ := stateAt_some ran (write + 1 + 1)
  have stepped := stateAt_succ sb (write + 1) (by omega : write + 1 < events.length)
  rw [atFollowing, atNext, Option.bind_some] at stepped
  have lives : ∃ next, stateAt sb events (write + 1) = some next ∧ next.exited = none :=
    ⟨next, atNext, (step_cases stepped.symm).1⟩
  have unique : ∀ first second, TakesIn sb events blockno write first → TakesIn sb events blockno write second →
      first = second := fun first second one two =>
    Nat.le_antisymm (Nat.not_lt.mp (takesIn_unique two one)) (Nat.not_lt.mp (takesIn_unique one two))
  rcases pending_or_taken ran logged (by omega : write + 1 ≤ events.length) (Nat.le_refl _) lives with
    listed | ⟨commit, _, taken⟩
  · obtain ⟨current, reached, here, idle⟩ := listed events.length (by omega) (Nat.le_refl _)
    rw [stateAt_length, ran] at reached
    cases reached
    obtain ⟨protocol, _, _, agrees⟩ := run_protocol ran
    refine .inr ⟨?_, here, fun commit taken => ?_⟩
    · have outstanding := agrees.outstanding
      have some : state.log.outstanding ≠ 0 := fun none => by
        rw [protocol.atRest idle none] at here
        cases here
      omega
    · obtain ⟨early, ⟨below, _, began, atBegan, busy⟩, _⟩ := taken
      obtain ⟨current, reached, _, idle⟩ := listed (commit + 1) (by omega) (by omega)
      rw [atBegan] at reached
      cases reached
      simp [busy] at idle
  · exact .inl ⟨commit, taken, fun other also => unique other commit also taken⟩

/-- The log protocol, in every state that any threads reach in any order of their steps. From the
start of the install to the reset of the list that follows it, the pins left are those of the blocks
not yet installed. -/
theorem log_protocol (ran : (start sb).run events = some state) :
    (∀ first second firstPhase secondPhase, state.phase first = .committing firstPhase →
      state.phase second = .committing secondPhase → first = second) ∧
    (state.log.committing = true ↔ ∃ thread phase, state.phase thread = .committing phase) ∧
    (state.log.committing = true → state.log.outstanding = 0 ∧ ∀ event after, state.step event = some after →
      after.log.block = state.log.block ∨
        ∃ thread, event = .commit thread ∧ state.phase thread = .committing .clearing) ∧
    state.log.block.Nodup ∧
    (∀ thread tail, state.phase thread = .committing (.installing tail) → ∀ blockno,
      state.pins blockno = if blockno ∈ state.log.block.drop tail then 1 else 0) ∧
    (∀ thread, state.phase thread = .committing .clearing → ∀ blockno, state.pins blockno = 0) ∧
    ((∀ thread tail, state.phase thread ≠ .committing (.installing tail)) →
      (∀ thread, state.phase thread ≠ .committing .clearing) →
      ∀ blockno, state.pins blockno = if blockno ∈ state.log.block then 1 else 0) ∧
    (state.log.outstanding = 0 → state.log.committing = false → state.log.n = 0 ∧ ∀ blockno, state.pins blockno = 0) ∧
    ∀ thread blockno write ended, events[write]? = some (.loggedWrite thread blockno) → write < ended →
      events[ended]? = some (.endOp thread) → (∃! commit, TakesIn sb events blockno write commit) ∨
        (0 < state.log.outstanding ∧ blockno ∈ state.log.block ∧
          ∀ commit, ¬ TakesIn sb events blockno write commit) := by
  obtain ⟨protocol, ledger, open_, agrees⟩ := run_protocol ran
  refine ⟨agrees.lone, ⟨protocol.busy, ?_⟩, ?_, protocol.distinct, ?_, ?_, ?_, ?_, ?_⟩
  · rintro ⟨thread, phase, found⟩
    exact agrees.committer thread phase found
  · intro busy
    refine ⟨?_, fun event after stepped => agrees.frozen busy stepped⟩
    rw [agrees.outstanding, (agrees.committing busy).1]
    rfl
  · exact fun thread tail found => protocol.installed thread _ found
  · intro thread found blockno
    have none := protocol.installed thread _ found blockno
    simpa [CommitPhase.unpinned, Fslog.n] using none
  · intro notInstalling notClearing blockno
    cases busy : state.log.committing
    · exact protocol.pinned busy blockno
    · obtain ⟨thread, phase, found⟩ := protocol.busy busy
      have pinned := protocol.installed thread phase found blockno
      cases phase
      case installing tail => exact absurd found (notInstalling thread tail)
      case clearing => exact absurd found (notClearing thread)
      all_goals exact pinned
  · intro none idle
    have empty := protocol.atRest idle none
    refine ⟨by rw [Fslog.n, empty, List.length_nil], fun blockno => ?_⟩
    have pinned := protocol.pinned idle blockno
    simpa [empty] using pinned
  · exact fun thread blockno write ended logged later closed => ended_taken ran logged later closed

/-- One operation logs block 2000 and its `end_op` commits, up to the return of `install_transaction`. -/
def installedOnce : List (LogEvent Unit) :=
  [.beginOp (), .loggedWrite () 2000, .endOp (), .commit (), .commit (), .commit (), .commit (), .commit (), .commit ()]

/-- Before the list is reset, its blocks have no pin any more. -/
theorem installed_unpinned : ∃ state, (start (initSuperBlock 4000)).run installedOnce = some state ∧
    (∀ thread tail, state.phase thread ≠ .committing (.installing tail)) ∧
    2000 ∈ state.log.block ∧ state.pins 2000 = 0 := by
  have reached : ((start (initSuperBlock 4000)).run installedOnce).map
      (fun state => (state.phase (), state.log.block, state.pins 2000)) = some (.committing .clearing, [2000], 0) := by
    decide
  obtain ⟨state, ran, found⟩ := Option.map_eq_some_iff.mp reached
  obtain ⟨phase, block, pins⟩ : _ ∧ _ ∧ _ := by simpa only [Prod.mk.injEq] using found
  refine ⟨state, ran, fun thread tail installing => ?_, by simp [block], pins⟩
  rw [phase] at installing
  cases installing

/-- At that point the protocol holds with no pin at all. -/
theorem log_protocol_installed : ∃ state, (start (initSuperBlock 4000)).run installedOnce = some state ∧
    ∀ blockno, state.pins blockno = 0 := by
  have reached : ((start (initSuperBlock 4000)).run installedOnce).map (·.phase ()) = some (.committing .clearing) := by
    decide
  obtain ⟨state, ran, phase⟩ := Option.map_eq_some_iff.mp reached
  exact ⟨state, ran, (log_protocol ran).2.2.2.2.2.1 () phase⟩

end LogThreads
end Myfuse
