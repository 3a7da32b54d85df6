import Myfuse.CacheThreads
import Myfuse.Proofs.LinkedCache
import Myfuse.Proofs.LogAdmission
import Myfuse.Proofs.LogProtocol

/-! The buffers in use are those of the blocks that the log pins or a thread holds, so a
search for a buffer ends exactly when those blocks are fewer than the buffers. -/

namespace Myfuse
open Library

namespace Bcache
variable {c : Bcache}

/-- The cache as `log_init` leaves it. -/
structure Resting (c : Bcache) : Prop where
  kept : c.Kept
  free : ∀ b < NCACHE_BUF, (c.buf b).refcnt = 0

theorem init_resting : Bcache.init.Resting := ⟨init_kept, fun _ _ => rfl⟩

end Bcache

/-- Every count of a buffer is a pin of the log on its block or a thread that has it. -/
structure Accounts {Thread : Type} (pins : Nat → Nat) (c : Bcache) (held : List (Thread × Handle)) : Prop where
  kept : c.Kept
  given : ∀ entry ∈ held, c.cached (c.buf entry.2).blockno = some entry.2
  pinned : ∀ blockno, pins blockno ≠ 0 → (c.cached blockno).isSome = true
  counted : ∀ b < NCACHE_BUF, (c.buf b).refcnt =
    (if c.cached (c.buf b).blockno = some b then pins (c.buf b).blockno else 0) + held.countP (·.2 = b)

namespace Accounts
variable {Thread : Type} {pins pins' : Nat → Nat} {c after : Bcache} {held held' : List (Thread × Handle)} {b blockno : Nat}

theorem start (resting : c.Resting) : Accounts (fun _ => 0) c ([] : List (Thread × Handle)) where
  kept := resting.kept
  given _ inside := absurd inside List.not_mem_nil
  pinned _ pinned := absurd rfl pinned
  counted b small := by
    rw [resting.free b small]
    simp

/-- A call that leaves every buffer its block, and changes the count of one. -/
theorem setBuf (accounts : Accounts pins c held) (found : c.cached blockno = some b) {change : BcacheBuf → BcacheBuf}
    (named : (change (c.buf b)).blockno = (c.buf b).blockno) (heldOnly : ∀ entry ∈ held', entry ∈ held ∨ entry.2 = b)
    (heldElse : ∀ other, other ≠ b → held'.countP (·.2 = other) = held.countP (·.2 = other))
    (pinsElse : ∀ other, other ≠ blockno → pins' other = pins other)
    (count : (change (c.buf b)).refcnt = pins' blockno + held'.countP (·.2 = b)) :
    Accounts pins' (c.setBuf b change) held' := by
  have own : (c.buf b).blockno = blockno := (Bcache.cached_some found).2
  have lists : ∀ block, (c.setBuf b change).cached block = c.cached block := Bcache.cached_setBuf named
  have blocks : ∀ other, ((c.setBuf b change).buf other).blockno = (c.buf other).blockno := by
    intro other
    by_cases same : other = b
    · rw [same, Bcache.setBuf_buf, named]
    · rw [show (c.setBuf b change).buf other = c.buf other from Function.update_of_ne same _ _]
  constructor
  case kept => exact accounts.kept.setBuf named
  case given =>
    intro entry inside
    rw [lists, blocks]
    cases heldOnly entry inside with
    | inl before => exact accounts.given entry before
    | inr same => rw [same, own, found]
  case pinned =>
    intro block pinned
    rw [lists]
    by_cases same : block = blockno
    · rw [same, found, Option.isSome_some]
    · rw [pinsElse block same] at pinned
      exact accounts.pinned block pinned
  case counted =>
    intro other small
    rw [lists, blocks]
    by_cases same : other = b
    · subst same
      rw [Bcache.setBuf_buf, own, if_pos found, count]
    · rw [show (c.setBuf b change).buf other = c.buf other from Function.update_of_ne same _ _, accounts.counted other small,
        heldElse other same]
      by_cases cached : c.cached (c.buf other).blockno = some other
      · have apart : (c.buf other).blockno ≠ blockno := by
          intro equal
          rw [equal, found] at cached
          exact same (Option.some.inj cached).symm
        rw [if_pos cached, if_pos cached, pinsElse _ apart]
      · rw [if_neg cached, if_neg cached]

/-- A free buffer becomes the buffer of a block that has none. -/
theorem claim (accounts : Accounts pins c held) (missing : c.cached blockno = none) (claimed : Bcache.Claimed c after blockno b)
    (thread : Thread) : Accounts pins after ((thread, b) :: held) := by
  have rekeyed := claimed.rekeyed
  obtain ⟨from_, listed, free⟩ := claimed.free
  have small := accounts.kept.inside from_ b listed
  have count := accounts.counted b small
  rw [free] at count
  have nobody : held.countP (·.2 = b) = 0 := by omega
  have absent : ∀ entry ∈ held, entry.2 ≠ b := by
    intro entry inside
    have none := List.countP_eq_zero.mp nobody entry inside
    simpa using none
  have unpinned : pins blockno = 0 := by
    by_contra pinned
    have found := accounts.pinned blockno pinned
    rw [missing] at found
    cases found
  have own := rekeyed.self accounts.kept.listed missing
  -- A buffer in use stays the buffer of its block.
  have stays : ∀ other block, c.cached block = some other → other ≠ b → after.cached block = some other := by
    intro other block found apart
    apply rekeyed.stays _ found apart
    intro same
    rw [same, missing] at found
    cases found
  have lasts : ∀ block, pins block ≠ 0 → ∃ other, c.cached block = some other ∧ after.cached block = some other := by
    intro block pinned
    obtain ⟨other, found⟩ := Option.isSome_iff_exists.mp (accounts.pinned block pinned)
    refine ⟨other, found, stays other block found ?_⟩
    rintro rfl
    rw [(Bcache.cached_some found).2, if_pos found] at count
    omega
  constructor
  case kept => exact accounts.kept.claimed missing claimed
  case given =>
    intro entry inside
    cases inside with
    | head => rw [rekeyed.named, own]
    | tail _ before =>
      have apart := absent entry before
      rw [rekeyed.elsewhere entry.2 apart]
      exact stays entry.2 _ (accounts.given entry before) apart
  case pinned =>
    intro block pinned
    obtain ⟨other, -, found⟩ := lasts block pinned
    rw [found, Option.isSome_some]
  case counted =>
    intro other inside
    by_cases same : other = b
    · subst same
      rw [claimed.here, if_pos own, unpinned, List.countP_cons, nobody]
      simp
    · have elsewhere : decide (b = other) = false := decide_eq_false (Ne.symm same)
      rw [rekeyed.elsewhere other same, accounts.counted other inside, List.countP_cons]
      simp only [elsewhere, Bool.false_eq_true, if_false, Nat.add_zero]
      by_cases pinned : pins (c.buf other).blockno = 0
      · rw [pinned, ite_self, ite_self]
      · obtain ⟨owner, before, found⟩ := lasts _ pinned
        rw [before, found]

/-- `bget` counts the buffer that it returns. -/
theorem bget (accounts : Accounts pins c held) (found : c.bget blockno = some (b, after)) (thread : Thread) :
    Accounts pins after ((thread, b) :: held) := by
  obtain ⟨-, small, way⟩ := accounts.kept.bget found
  cases way with
  | inl hit =>
    obtain ⟨cached, rfl⟩ := hit
    have count := accounts.counted b small
    rw [(Bcache.cached_some cached).2, if_pos cached] at count
    apply accounts.setBuf cached rfl
    · intro entry inside
      cases inside with
      | head => exact .inr rfl
      | tail _ before => exact .inl before
    · intro other apart
      simp [Ne.symm apart]
    · exact fun _ _ => rfl
    · rw [List.countP_cons, BcacheBuf.pin, count]
      simp
      omega
  | inr miss => exact accounts.claim miss.1 miss.2 thread

/-- A thread that has a buffer gives it back. -/
theorem brelse [DecidableEq Thread] (accounts : Accounts pins c held) {thread : Thread} (inside : (thread, b) ∈ held)
    (now : BitVec 64) :
    Accounts pins (c.setBuf b fun buf => { buf.release now with locked := false }) (held.erase (thread, b)) := by
  have found := accounts.given _ inside
  have count := accounts.counted b (accounts.kept.inside _ b (Bcache.cached_some found).1)
  rw [if_pos found] at count
  have split : ∀ other, held.countP (·.2 = other) = (held.erase (thread, b)).countP (·.2 = other) + if b = other then 1 else 0 := by
    intro other
    rw [(List.perm_cons_erase inside).countP_eq, List.countP_cons]
    simp
  apply accounts.setBuf found rfl
  · exact fun entry rest => .inl (List.mem_of_mem_erase rest)
  · intro other apart
    rw [split other, if_neg (Ne.symm apart), Nat.add_zero]
  · exact fun _ _ => rfl
  · have one := split b
    rw [if_pos rfl] at one
    simp only [BcacheBuf.release]
    omega

/-- The log's pin on a block counts on the buffer that a thread has of it. -/
theorem pin (accounts : Accounts pins c held) {thread : Thread} (inside : (thread, b) ∈ held) :
    Accounts (Function.update pins (c.buf b).blockno (pins (c.buf b).blockno + 1)) (c.setBuf b BcacheBuf.pin) held := by
  have found := accounts.given _ inside
  have count := accounts.counted b (accounts.kept.inside _ b (Bcache.cached_some found).1)
  rw [if_pos found] at count
  apply accounts.setBuf found rfl
  · exact fun _ before => .inl before
  · exact fun _ _ => rfl
  · exact fun _ apart => Function.update_of_ne apart _ _
  · rw [Function.update_self, BcacheBuf.pin]
    simp only
    omega

theorem unpin (accounts : Accounts pins c held) {thread : Thread} (inside : (thread, b) ∈ held)
    (pinned : pins (c.buf b).blockno ≠ 0) :
    Accounts (Function.update pins (c.buf b).blockno (pins (c.buf b).blockno - 1)) (c.setBuf b BcacheBuf.unpin) held := by
  have found := accounts.given _ inside
  have count := accounts.counted b (accounts.kept.inside _ b (Bcache.cached_some found).1)
  rw [if_pos found] at count
  apply accounts.setBuf found rfl
  · exact fun _ before => .inl before
  · exact fun _ _ => rfl
  · exact fun _ apart => Function.update_of_ne apart _ _
  · rw [Function.update_self, BcacheBuf.unpin]
    simp only
    omega

/-- Taking the lock of a buffer changes no count. -/
theorem lock (accounts : Accounts pins c held) (b : Handle) (locked : Bool) :
    Accounts pins (c.setBuf b fun buf => { buf with locked }) held := by
  have same : ∀ other, ((c.setBuf b fun buf => { buf with locked }).buf other).blockno = (c.buf other).blockno ∧
      ((c.setBuf b fun buf => { buf with locked }).buf other).refcnt = (c.buf other).refcnt := by
    intro other
    by_cases here : other = b
    · rw [here, Bcache.setBuf_buf]
      exact ⟨rfl, rfl⟩
    · rw [show (c.setBuf b fun buf => { buf with locked }).buf other = c.buf other from Function.update_of_ne here _ _]
      exact ⟨rfl, rfl⟩
  have lists : ∀ block, (c.setBuf b fun buf => { buf with locked }).cached block = c.cached block :=
    Bcache.cached_setBuf rfl
  constructor
  case kept => exact accounts.kept.setBuf rfl
  case given =>
    intro entry inside
    rw [lists, (same _).1]
    exact accounts.given entry inside
  case pinned =>
    intro block pinned
    rw [lists]
    exact accounts.pinned block pinned
  case counted =>
    intro other small
    rw [lists, (same other).1, (same other).2]
    exact accounts.counted other small

end Accounts

namespace CacheThreads
variable {Thread : Type} [DecidableEq Thread] {sb : Superblock} {state after : CacheThreads Thread} {thread : Thread} {b blockno : Nat}

/-- The counts are right, and the log is one that its threads can reach. -/
structure Sound (sb : Superblock) (state : CacheThreads Thread) : Prop where
  accounts : Accounts state.threads.pins state.bcache state.held
  reached : ∃ events, (LogThreads.start sb).run events = some state.threads

theorem sound_start {bcache : Bcache} (resting : bcache.Resting) : (start sb bcache : CacheThreads Thread).Sound sb :=
  ⟨.start resting, [], rfl⟩

theorem Sound.protocol (sound : state.Sound sb) : state.threads.Protocol := by
  obtain ⟨events, ran⟩ := sound.reached
  exact (LogThreads.run_protocol ran).1

theorem Sound.moves (sound : state.Sound sb) {event : LogEvent Thread} {threads : LogThreads Thread}
    (stepped : state.threads.step event = some threads) : ∃ events, (LogThreads.start sb).run events = some threads := by
  obtain ⟨events, ran⟩ := sound.reached
  refine ⟨events ++ [event], ?_⟩
  rw [LogThreads.run_snoc, ran, Option.bind_some, stepped]

theorem handle_some (found : state.handle thread blockno = some b) :
    (thread, b) ∈ state.held ∧ (state.bcache.buf b).blockno = blockno := by
  obtain ⟨entry, search, rfl⟩ := Option.map_eq_some_iff.mp found
  have hit := List.find?_some search
  simp only [decide_eq_true_iff] at hit
  obtain ⟨rfl, named⟩ := hit
  exact ⟨List.mem_of_find?_eq_some search, named⟩

theorem Sound.bget (sound : state.Sound sb) (stepped : state.bget thread blockno = some after) : after.Sound sb := by
  obtain ⟨⟨b, bcache⟩, found, rfl⟩ := Option.map_eq_some_iff.mp stepped
  exact ⟨sound.accounts.bget found thread, sound.reached⟩

theorem Sound.lock (sound : state.Sound sb) (stepped : state.lock thread = some after) : after.Sound sb := by
  obtain ⟨b, -, taken⟩ := Option.bind_eq_some_iff.mp stepped
  obtain ⟨-, same⟩ := Option.ite_none_left_eq_some.mp taken
  obtain rfl := Option.some.inj same
  exact ⟨sound.accounts.lock b true, sound.reached⟩

theorem Sound.brelse (sound : state.Sound sb) {now : BitVec 64} (stepped : state.brelse thread blockno now = some after) :
    after.Sound sb := by
  obtain ⟨b, found, rfl⟩ := Option.map_eq_some_iff.mp stepped
  exact ⟨sound.accounts.brelse (handle_some found).1 now, sound.reached⟩

theorem Sound.loggedWrite (sound : state.Sound sb) (stepped : state.loggedWrite thread blockno = some after) : after.Sound sb := by
  obtain ⟨b, found, logs⟩ := Option.bind_eq_some_iff.mp stepped
  obtain ⟨threads, moved, rfl⟩ := Option.map_eq_some_iff.mp logs
  obtain ⟨inside, named⟩ := handle_some found
  refine ⟨?_, sound.moves moved⟩
  obtain ⟨alive, ⟨_, other, _⟩ | ⟨_, _, same, _, rfl⟩ | ⟨_, other, _⟩ | ⟨_, _, other, _⟩⟩ := LogThreads.step_cases moved
  · cases other
  · cases same
    simp only
    unfold LogThreads.loggedWrite
    split
    · exact sound.accounts
    split
    · exact sound.accounts
    split
    next listed => simpa [alive, listed] using sound.accounts
    next absent =>
      have pinned := sound.accounts.pin inside
      rw [named] at pinned
      simpa [alive, absent] using pinned
  · cases other
  · cases other

theorem Sound.advance (sound : state.Sound sb) {phase : CommitPhase} {bcache : Bcache} {threads : LogThreads Thread}
    (found : state.threads.phase thread = .committing phase) (unpinned : state.unpinned thread phase = some bcache)
    (moved : state.threads.step (.commit thread) = some threads) : Accounts threads.pins bcache state.held := by
  have pinned := sound.protocol.installed thread phase found
  obtain ⟨-, ⟨_, other, _⟩ | ⟨_, _, other, _⟩ | ⟨_, other, _⟩ | ⟨_, _, same, here, rfl⟩⟩ := LogThreads.step_cases moved
  · cases other
  · cases other
  · cases other
  · cases same
    rw [found] at here
    cases here
    cases phase with
    | installing tail =>
      simp only [CacheThreads.unpinned] at unpinned
      simp only [LogThreads.commitStep]
      split at unpinned
      next more =>
        obtain ⟨b, handed, rfl⟩ := Option.map_eq_some_iff.mp unpinned
        obtain ⟨inside, named⟩ := handle_some handed
        have more' : tail < state.threads.log.block.length := more
        have listed : state.threads.log.block.getD tail 0 ∈ state.threads.log.block.drop tail := by
          rw [List.drop_eq_getElem_cons more', List.getD_eq_getElem?_getD, List.getElem?_eq_getElem more', Option.getD_some]
          exact List.mem_cons_self
        have one : state.threads.pins (state.threads.log.block.getD tail 0) = 1 := by
          rw [pinned, CommitPhase.unpinned, if_pos listed]
        have unpinned := sound.accounts.unpin inside (by rw [named, one]; exact Nat.one_ne_zero)
        rw [named] at unpinned
        rw [if_pos more]
        exact unpinned
      next beyond =>
        obtain rfl := Option.some.inj unpinned
        rw [if_neg beyond]
        exact sound.accounts
    | start | copying tail | header | clearing | emptyHeader | done =>
      obtain rfl := Option.some.inj unpinned
      exact sound.accounts

theorem Sound.commitStep (sound : state.Sound sb) {phase : CommitPhase} {now : BitVec 64}
    (found : state.threads.phase thread = .committing phase) (stepped : state.commitStep thread phase now = some after) :
    after.Sound sb := by
  unfold CacheThreads.commitStep at stepped
  split at stepped
  next =>
    obtain rfl := Option.some.inj stepped
    exact ⟨sound.accounts, sound.reached⟩
  next call rest _ =>
    have sound : ({ state with round := assign state.round thread rest } : CacheThreads Thread).Sound sb :=
      ⟨sound.accounts, sound.reached⟩
    cases call with
    | bread blockno => exact sound.bget stepped
    | brelse blockno => exact sound.brelse stepped
    | advance =>
      obtain ⟨bcache, unpinned, moves⟩ := Option.bind_eq_some_iff.mp stepped
      obtain ⟨threads, moved, rfl⟩ := Option.map_eq_some_iff.mp moves
      exact ⟨sound.advance found unpinned moved, sound.moves moved⟩

/-- What one step of any thread does. -/
theorem Sound.step (sound : state.Sound sb) {event : CacheThreadsEvent Thread} (stepped : state.step event = some after) :
    after.Sound sb := by
  unfold CacheThreads.step at stepped
  obtain ⟨-, stepped⟩ := Option.ite_none_left_eq_some.mp stepped
  cases event with
  | lock thread => exact sound.lock stepped
  | beginOp thread =>
    obtain ⟨-, moves⟩ := Option.ite_none_right_eq_some.mp stepped
    obtain ⟨threads, moved, rfl⟩ := Option.map_eq_some_iff.mp moves
    refine ⟨?_, sound.moves moved⟩
    obtain ⟨-, ⟨_, _, _, _, rfl⟩ | ⟨_, _, other, _⟩ | ⟨_, other, _⟩ | ⟨_, _, other, _⟩⟩ := LogThreads.step_cases moved
    · exact sound.accounts
    all_goals cases other
  | loggedRead thread blockno =>
    obtain ⟨-, got⟩ := Option.ite_none_right_eq_some.mp stepped
    exact sound.bget got
  | loggedWrite thread blockno =>
    obtain ⟨-, wrote⟩ := Option.ite_none_right_eq_some.mp stepped
    exact sound.loggedWrite wrote
  | loggedRelse thread blockno now =>
    obtain ⟨-, released⟩ := Option.ite_none_right_eq_some.mp stepped
    exact sound.brelse released
  | endOp thread =>
    obtain ⟨-, moves⟩ := Option.ite_none_right_eq_some.mp stepped
    obtain ⟨threads, moved, rfl⟩ := Option.map_eq_some_iff.mp moves
    refine ⟨?_, sound.moves moved⟩
    obtain ⟨-, ⟨_, other, _⟩ | ⟨_, _, other, _⟩ | ⟨_, _, _, rfl⟩ | ⟨_, _, other, _⟩⟩ := LogThreads.step_cases moved
    · cases other
    · cases other
    · simp only [LogThreads.endOp]
      split
      · exact sound.accounts
      · split <;> exact sound.accounts
    · cases other
  | commit thread now =>
    simp only at stepped
    split at stepped
    next phase found =>
      obtain ⟨-, committed⟩ := Option.ite_none_right_eq_some.mp stepped
      exact sound.commitStep found committed
    next => cases stepped

theorem run_snoc (state : CacheThreads Thread) (events : List (CacheThreadsEvent Thread)) (event : CacheThreadsEvent Thread) :
    state.run (events ++ [event]) = (state.run events).bind (CacheThreads.step · event) := by
  simp [run, List.foldlM_append]

theorem run_sound {bcache : Bcache} (resting : bcache.Resting) {events : List (CacheThreadsEvent Thread)}
    (ran : (start sb bcache).run events = some state) : state.Sound sb := by
  induction events using List.reverseRecOn generalizing state with
  | nil =>
    cases ran
    exact sound_start resting
  | append_singleton events event ih =>
    rw [run_snoc] at ran
    obtain ⟨before, first, stepped⟩ := Option.bind_eq_some_iff.mp ran
    exact (ih first).step stepped

/-! What is in use, and what a search finds. -/

/-- The blocks that the log still pins and those that a thread has a buffer of. -/
def inUse (state : CacheThreads Thread) : List Nat :=
  ((state.threads.log.block.filter fun blockno => state.threads.pins blockno != 0) ++
    state.held.map fun entry => (state.bcache.buf entry.2).blockno).dedup

omit [DecidableEq Thread] in
theorem inUse_length_le (state : CacheThreads Thread) : state.inUse.length ≤ state.threads.log.n + state.held.length := by
  have few := (List.dedup_sublist ((state.threads.log.block.filter fun blockno => state.threads.pins blockno != 0) ++
    state.held.map fun entry => (state.bcache.buf entry.2).blockno)).length_le
  have listed := List.length_filter_le (fun blockno => state.threads.pins blockno != 0) state.threads.log.block
  rw [List.length_append, List.length_map] at few
  unfold inUse Fslog.n
  omega

/-- The log pins listed blocks only. -/
theorem Sound.mem_inUse (sound : state.Sound sb) : blockno ∈ state.inUse ↔
    state.threads.pins blockno ≠ 0 ∨ ∃ entry ∈ state.held, (state.bcache.buf entry.2).blockno = blockno := by
  have listed : state.threads.pins blockno ≠ 0 → blockno ∈ state.threads.log.block := by
    intro pinned
    have protocol := sound.protocol
    have some : ∃ from_, state.threads.PinnedFrom from_ := by
      by_cases busy : state.threads.log.committing = true
      · obtain ⟨thread, phase, found⟩ := protocol.busy busy
        exact ⟨_, protocol.installed thread phase found⟩
      · exact ⟨0, protocol.pinned (Bool.not_eq_true _ ▸ busy)⟩
    obtain ⟨from_, pins⟩ := some
    rw [pins blockno] at pinned
    by_contra absent
    exact pinned (if_neg fun member => absent (List.mem_of_mem_drop member))
  simp only [inUse, List.mem_dedup, List.mem_append, List.mem_filter, bne_iff_ne, List.mem_map]
  constructor
  · intro used
    cases used with
    | inl pinned => exact .inl pinned.2
    | inr held => exact .inr held
  · intro used
    cases used with
    | inl pinned => exact .inl ⟨listed pinned, pinned⟩
    | inr held => exact .inr held

/-- A buffer with a count is the buffer of a block in use. -/
theorem Sound.counted_used (sound : state.Sound sb) (small : b < NCACHE_BUF) (used : (state.bcache.buf b).refcnt ≠ 0) :
    (state.bcache.buf b).blockno ∈ state.inUse ∧ state.bcache.cached (state.bcache.buf b).blockno = some b := by
  have count := sound.accounts.counted b small
  by_cases found : state.bcache.cached (state.bcache.buf b).blockno = some b
  · refine ⟨sound.mem_inUse.mpr ?_, found⟩
    rw [if_pos found] at count
    by_cases pinned : state.threads.pins (state.bcache.buf b).blockno = 0
    · have given : 0 < state.held.countP (·.2 = b) := by omega
      obtain ⟨entry, inside, same⟩ := List.countP_pos_iff.mp given
      exact .inr ⟨entry, inside, by rw [of_decide_eq_true same]⟩
    · exact .inl pinned
  · rw [if_neg found] at count
    have given : 0 < state.held.countP (·.2 = b) := by omega
    obtain ⟨entry, inside, same⟩ := List.countP_pos_iff.mp given
    obtain rfl := of_decide_eq_true same
    exact absurd (sound.accounts.given entry inside) found

/-- A block in use has a buffer with a count. -/
theorem Sound.used_counted (sound : state.Sound sb) (used : blockno ∈ state.inUse) :
    ∃ b < NCACHE_BUF, (state.bcache.buf b).blockno = blockno ∧ (state.bcache.buf b).refcnt ≠ 0 := by
  cases sound.mem_inUse.mp used with
  | inl pinned =>
    obtain ⟨b, found⟩ := Option.isSome_iff_exists.mp (sound.accounts.pinned blockno pinned)
    obtain ⟨member, named⟩ := Bcache.cached_some found
    have small := sound.accounts.kept.inside _ b member
    have count := sound.accounts.counted b small
    rw [named, if_pos found] at count
    exact ⟨b, small, named, by omega⟩
  | inr held =>
    obtain ⟨entry, inside, named⟩ := held
    have small := sound.accounts.kept.inside _ entry.2 (Bcache.cached_some (sound.accounts.given entry inside)).1
    have count := sound.accounts.counted entry.2 small
    have given : 0 < state.held.countP (·.2 = entry.2) := List.countP_pos_iff.mpr ⟨entry, inside, decide_eq_true rfl⟩
    exact ⟨entry.2, small, named, by omega⟩

/-- As many buffers are in use as blocks. -/
theorem Sound.card_used (sound : state.Sound sb) :
    ((Finset.range NCACHE_BUF).filter fun b => (state.bcache.buf b).refcnt ≠ 0).card = state.inUse.length := by
  have blocks : (((Finset.range NCACHE_BUF).filter fun b => (state.bcache.buf b).refcnt ≠ 0).image
      fun b => (state.bcache.buf b).blockno) = state.inUse.toFinset := by
    ext blockno
    simp only [Finset.mem_image, Finset.mem_filter, Finset.mem_range, List.mem_toFinset]
    constructor
    · rintro ⟨b, ⟨small, used⟩, rfl⟩
      exact (sound.counted_used small used).1
    · intro used
      obtain ⟨b, small, named, counted⟩ := sound.used_counted used
      exact ⟨b, ⟨small, counted⟩, named⟩
  have distinct : state.inUse.Nodup := List.nodup_dedup _
  rw [← List.toFinset_card_of_nodup distinct, ← blocks, Finset.card_image_of_injOn]
  intro first one second two same
  simp only [Finset.coe_filter, Finset.mem_range, Set.mem_ofPred_eq] at one two
  have here := (sound.counted_used one.1 one.2).2
  have there := (sound.counted_used two.1 two.2).2
  simp only at same
  rw [same, there] at here
  exact (Option.some.inj here).symm

theorem Sound.free_iff (sound : state.Sound sb) :
    (∃ b < NCACHE_BUF, (state.bcache.buf b).refcnt = 0) ↔ state.inUse.length < NCACHE_BUF := by
  have card := sound.card_used
  have all : (Finset.range NCACHE_BUF).card = NCACHE_BUF := Finset.card_range _
  constructor
  · rintro ⟨b, small, free⟩
    have fewer : ((Finset.range NCACHE_BUF).filter fun b => (state.bcache.buf b).refcnt ≠ 0).card < (Finset.range NCACHE_BUF).card := by
      apply Finset.card_lt_card
      apply Finset.filter_ssubset.mpr
      exact ⟨b, Finset.mem_range.mpr small, fun used => used free⟩
    omega
  · intro fewer
    by_contra none
    have every : ((Finset.range NCACHE_BUF).filter fun b => (state.bcache.buf b).refcnt ≠ 0) = Finset.range NCACHE_BUF := by
      apply Finset.filter_true_of_mem
      intro b small free
      exact none ⟨b, Finset.mem_range.mp small, free⟩
    rw [every] at card
    omega

/-- A thread calls `bget` for a block that is not cached. -/
def Searches (state : CacheThreads Thread) (thread : Thread) (blockno : Nat) : Prop :=
  state.threads.exited = none ∧ state.waiting thread = none ∧ state.bcache.cached blockno = none ∧
    (state.threads.phase thread = .inside ∨
      ∃ phase rest, state.threads.phase thread = .committing phase ∧ state.round thread = .bread blockno :: rest)

/-- In every state that any threads reach, a search for a buffer finds a free one, and ends, exactly
when the blocks that the log pins or threads hold are fewer than the buffers. -/
theorem search_finds_iff {bcache : Bcache} (resting : bcache.Resting) {events : List (CacheThreadsEvent Thread)}
    (ran : (start sb bcache).run events = some state) (searches : state.Searches thread blockno) :
    ((∃ b < NCACHE_BUF, (state.bcache.buf b).refcnt = 0) ↔ state.inUse.length < NCACHE_BUF) ∧
      ((state.bcache.bget blockno).isSome = true ↔ state.inUse.length < NCACHE_BUF) := by
  have sound := run_sound resting ran
  refine ⟨sound.free_iff, ?_⟩
  rw [← sound.free_iff]
  constructor
  · intro ends
    obtain ⟨⟨b, after⟩, found⟩ := Option.isSome_iff_exists.mp ends
    obtain ⟨-, small, way⟩ := sound.accounts.kept.bget found
    cases way with
    | inl hit =>
      rw [searches.2.2.1] at hit
      cases hit.1
    | inr miss =>
      obtain ⟨-, -, free⟩ := miss.2.free
      exact ⟨b, small, free⟩
  · rintro ⟨b, small, free⟩
    by_contra never
    rw [Option.not_isSome_iff_eq_none] at never
    have used := sound.accounts.kept.listed.bget_none never b small
    omega

/-! Eight operations that keep to their reservation and to few buffers use all buffers. -/

/-- No thread ever has more than four buffers. -/
def HoldsFour (sb : Superblock) (bcache : Bcache) (events : List (CacheThreadsEvent Thread)) : Prop :=
  ∀ before rest, events = before ++ rest → ∀ state, (start sb bcache).run before = some state →
    ∀ thread, state.held.countP (·.1 = thread) ≤ 4

theorem HoldsFour.snoc {bcache : Bcache} {events : List (CacheThreadsEvent Thread)} {event : CacheThreadsEvent Thread}
    (four : HoldsFour sb bcache events) (ran : (start sb bcache).run (events ++ [event]) = some state)
    (few : state.held.length ≤ 4) : HoldsFour sb bcache (events ++ [event]) := by
  intro before rest shape middle reached thread
  cases rest using List.reverseRecOn with
  | nil =>
    rw [List.append_nil] at shape
    rw [← shape, ran] at reached
    cases reached
    exact Nat.le_trans List.countP_le_length few
  | append_singleton rest last =>
    rw [← List.append_assoc] at shape
    exact four before rest (List.append_inj' shape rfl).1 middle reached thread

/-- A run of eight operations after `count` blocks, with no buffer held. -/
structure Fills (count : Nat) (events : List (CacheThreadsEvent Nat)) (state : CacheThreads Nat) : Prop where
  ran : (start (initSuperBlock 4000) Bcache.init).run events = some state
  four : HoldsFour (initSuperBlock 4000) Bcache.init events
  logged : events.filterMap CacheThreadsEvent.logged = LogThreads.eightFull count
  threads : state.threads = LogThreads.filled 8 count
  held : state.held = []
  waiting : state.waiting = fun _ => none
  unlocked : ∀ b < NCACHE_BUF, (state.bcache.buf b).locked = false

theorem Fills.sound {count : Nat} {events : List (CacheThreadsEvent Nat)} {state : CacheThreads Nat} (fills : Fills count events state) :
    state.Sound (initSuperBlock 4000) := run_sound Bcache.init_resting fills.ran

theorem run_begins {begun : Nat} (few : begun ≤ 8) :
    (start (initSuperBlock 4000) Bcache.init).run ((List.range begun).map CacheThreadsEvent.beginOp) =
      some { start (initSuperBlock 4000) Bcache.init with threads := LogThreads.filled begun 0 } ∧
    HoldsFour (initSuperBlock 4000) Bcache.init ((List.range begun).map CacheThreadsEvent.beginOp) := by
  induction begun with
  | zero =>
    have none := LogThreads.run_eightBegins (Nat.zero_le 8)
    simp only [List.range_zero, List.map_nil] at none ⊢
    rw [LogThreads.run, List.foldlM_nil] at none
    have same : (start (initSuperBlock 4000) Bcache.init : CacheThreads Nat).threads = LogThreads.filled 0 0 := Option.some.inj none
    refine ⟨by rw [← same]; rfl, ?_⟩
    intro before rest shape state reached thread
    obtain ⟨rfl, -⟩ := List.append_eq_nil_iff.mp shape.symm
    cases reached
    exact Nat.zero_le 4
  | succ begun ih =>
    obtain ⟨ran, four⟩ := ih (by omega)
    have began := LogThreads.step_begin (by omega : begun < 8)
    have next : (start (initSuperBlock 4000) Bcache.init).run ((List.range (begun + 1)).map CacheThreadsEvent.beginOp) =
        some { start (initSuperBlock 4000) Bcache.init with threads := LogThreads.filled (begun + 1) 0 } := by
      rw [List.range_succ, List.map_append, List.map_singleton, run_snoc, ran, Option.bind_some, step]
      rw [if_neg (by simp [LogThreads.filled])]
      simp only [start, if_true, began, Option.map_some]
    refine ⟨next, ?_⟩
    rw [List.range_succ, List.map_append, List.map_singleton] at next ⊢
    exact four.snoc next (Nat.zero_le 4)

/-- A search with a free buffer ends, and keeps every lock. -/
theorem Sound.finds (sound : state.Sound sb) (fewer : state.inUse.length < NCACHE_BUF) (blockno : Nat) :
    ∃ b bcache, state.bcache.bget blockno = some (b, bcache) ∧ b < NCACHE_BUF ∧ (bcache.buf b).blockno = blockno ∧
      ∀ other, (bcache.buf other).locked = (state.bcache.buf other).locked := by
  obtain ⟨free, small, unused⟩ := sound.free_iff.mpr fewer
  cases found : state.bcache.bget blockno with
  | none =>
    have used := sound.accounts.kept.listed.bget_none found free small
    omega
  | some pair =>
    obtain ⟨b, bcache⟩ := pair
    obtain ⟨-, inside, way⟩ := sound.accounts.kept.bget found
    refine ⟨b, bcache, rfl, inside, ?_⟩
    cases way with
    | inl hit =>
      obtain ⟨cached, rfl⟩ := hit
      refine ⟨by rw [Bcache.setBuf_buf]; exact (Bcache.cached_some cached).2, fun other => ?_⟩
      by_cases same : other = b
      · rw [same, Bcache.setBuf_buf, BcacheBuf.pin]
      · rw [show (state.bcache.setBuf b BcacheBuf.pin).buf other = state.bcache.buf other from Function.update_of_ne same _ _]
    | inr miss =>
      refine ⟨by rw [miss.2.here], fun other => ?_⟩
      by_cases same : other = b
      · rw [same, miss.2.here]
      · rw [miss.2.elsewhere other same]

/-- One of the threads reads a block and has its buffer. -/
theorem Fills.reads {count : Nat} {events : List (CacheThreadsEvent Nat)} {state : CacheThreads Nat} (fills : Fills count events state)
    (room : count < NCACHE_BUF) {thread : Nat} (inside : thread < 8) (blockno : Nat) : ∃ b bcache, b < NCACHE_BUF ∧
      (bcache.buf b).blockno = blockno ∧ (∀ other < NCACHE_BUF, other ≠ b → (bcache.buf other).locked = false) ∧
      (start (initSuperBlock 4000) Bcache.init).run (events ++ [.loggedRead thread blockno] ++ [.lock thread]) =
        some { state with bcache, held := [(thread, b)] } ∧
      HoldsFour (initSuperBlock 4000) Bcache.init (events ++ [.loggedRead thread blockno] ++ [.lock thread]) := by
  have fewer : state.inUse.length < NCACHE_BUF := by
    have few := inUse_length_le state
    rw [fills.held, fills.threads] at few
    simp only [Fslog.n, LogThreads.filled, List.length_map, List.length_range, List.length_nil] at few
    omega
  obtain ⟨b, bcache, found, small, named, locks⟩ := fills.sound.finds fewer blockno
  have open_ : (bcache.buf b).locked = false := (locks b).trans (fills.unlocked b small)
  have alive : state.threads.exited = none := by rw [fills.threads, LogThreads.filled]
  have phase : state.threads.phase thread = .inside := by
    rw [fills.threads, LogThreads.filled]
    exact if_pos inside
  have read : (start (initSuperBlock 4000) Bcache.init).run (events ++ [.loggedRead thread blockno]) =
      some { state with bcache, held := [(thread, b)], waiting := assign state.waiting thread (some b) } := by
    rw [run_snoc, fills.ran, Option.bind_some, step, alive, Option.isSome_none, if_neg Bool.false_ne_true,
      if_pos ⟨by rw [fills.waiting], phase⟩, CacheThreads.bget, found, fills.held]
    rfl
  have taken : (start (initSuperBlock 4000) Bcache.init).run (events ++ [.loggedRead thread blockno] ++ [.lock thread]) =
      some { state with bcache := bcache.setBuf b fun buf => { buf with locked := true }, held := [(thread, b)] } := by
    have waits : assign (assign state.waiting thread (some b)) thread none = state.waiting := by
      funext other
      by_cases same : other = thread
      · rw [same, assign_self, fills.waiting]
      · rw [assign_of_ne same, assign_of_ne same]
    rw [run_snoc, read, Option.bind_some, step]
    rw [if_neg (by rw [alive]; exact Bool.false_ne_true)]
    simp only [CacheThreads.lock, assign_self, Option.bind_some, open_, Bool.false_eq_true, if_false, waits]
  refine ⟨b, _, small, ?_, fun other below apart => ?_, taken, (fills.four.snoc read (by simp)).snoc taken (by simp)⟩
  · rw [Bcache.setBuf_buf]
    exact named
  · rw [show ((bcache.setBuf b fun buf => { buf with locked := true }).buf other) = bcache.buf other from Function.update_of_ne apart _ _,
      locks other]
    exact fills.unlocked other below

/-- The next block of the group is read, logged and released. -/
theorem Fills.next {count : Nat} {events : List (CacheThreadsEvent Nat)} {state : CacheThreads Nat} (fills : Fills count events state)
    (room : count < NLOG - 1) : ∃ events state, Fills (count + 1) events state := by
  have bound : NLOG = NCACHE_BUF := rfl
  have inside : count / MAXOPBLOCKS < 8 := by
    simp only [NLOG, MAXOPBLOCKS] at room ⊢
    omega
  obtain ⟨b, bcache, small, named, unlocked, taken, four⟩ := fills.reads (by omega) inside (2000 + count)
  have alive : state.threads.exited = none := by rw [fills.threads, LogThreads.filled]
  have here : ∀ cache : Bcache, (cache.buf b).blockno = 2000 + count →
      ({ state with bcache := cache, held := [(count / MAXOPBLOCKS, b)] } : CacheThreads Nat).handle (count / MAXOPBLOCKS) (2000 + count) =
        some b := by
    intro cache names
    simp [CacheThreads.handle, names]
  have logs : (LogThreads.filled 8 count).step (.loggedWrite (count / MAXOPBLOCKS) (2000 + count)) =
      some (LogThreads.filled 8 (count + 1)) := LogThreads.step_fullWrite room
  have fresh : 2000 + count ∉ (LogThreads.filled 8 count).log.block := by simp [LogThreads.filled]
  have lives : (LogThreads.filled 8 (count + 1)).exited = none := rfl
  have wrote : (start (initSuperBlock 4000) Bcache.init).run (events ++ [.loggedRead (count / MAXOPBLOCKS) (2000 + count)] ++
        [.lock (count / MAXOPBLOCKS)] ++ [.loggedWrite (count / MAXOPBLOCKS) (2000 + count)]) =
      some { state with
        threads := LogThreads.filled 8 (count + 1)
        bcache := bcache.setBuf b BcacheBuf.pin
        held := [(count / MAXOPBLOCKS, b)] } := by
    rw [run_snoc, taken, Option.bind_some, step, if_neg (by rw [alive]; exact Bool.false_ne_true)]
    simp only
    rw [if_pos (by rw [fills.waiting]), CacheThreads.loggedWrite, here bcache named, Option.bind_some]
    simp only [fills.threads, logs, Option.map_some, lives, Option.isSome_none, Bool.false_eq_true, false_or, if_neg fresh]
  have released : (start (initSuperBlock 4000) Bcache.init).run (events ++ [.loggedRead (count / MAXOPBLOCKS) (2000 + count)] ++
        [.lock (count / MAXOPBLOCKS)] ++ [.loggedWrite (count / MAXOPBLOCKS) (2000 + count)] ++
        [.loggedRelse (count / MAXOPBLOCKS) (2000 + count) 0]) =
      some { state with
        threads := LogThreads.filled 8 (count + 1)
        bcache := (bcache.setBuf b BcacheBuf.pin).setBuf b fun buf => { buf.release 0 with locked := false }
        held := [] } := by
    have phase : (LogThreads.filled 8 (count + 1)).phase (count / MAXOPBLOCKS) = .inside := if_pos inside
    have names : ((bcache.setBuf b BcacheBuf.pin).buf b).blockno = 2000 + count := by
      rw [Bcache.setBuf_buf]
      exact named
    have gave := here _ names
    rw [run_snoc, wrote, Option.bind_some, step, if_neg (by rw [lives]; exact Bool.false_ne_true)]
    simp only
    rw [if_pos ⟨by rw [fills.waiting], phase⟩, CacheThreads.brelse]
    unfold CacheThreads.handle at gave ⊢
    rw [gave]
    simp
  refine ⟨_, _, released, ?_, ?_, rfl, rfl, fills.waiting, ?_⟩
  · exact (four.snoc wrote (by simp)).snoc released (Nat.zero_le 4)
  · simp only [List.filterMap_append, fills.logged, LogThreads.eightFull, List.range_succ, List.map_append, List.append_assoc]
    rfl
  · intro other below
    by_cases same : other = b
    · rw [same, Bcache.setBuf_buf]
    · rw [Bcache.setBuf_setBuf, show ((bcache.setBuf b _).buf other) = bcache.buf other from Function.update_of_ne same _ _]
      exact unlocked other below same

theorem fills {count : Nat} (room : count ≤ NLOG - 1) : ∃ events state, Fills count events state := by
  induction count with
  | zero =>
    obtain ⟨ran, four⟩ := run_begins (Nat.le_refl 8)
    exact ⟨_, _, ran, four, by decide, rfl, rfl, rfl, fun _ _ => rfl⟩
  | succ count ih =>
    obtain ⟨events, state, fills⟩ := ih (by omega)
    exact fills.next (by omega)

/-- The first thread of a fresh system looks for the super block. -/
theorem search_finds_iff_first : ∃ state, (start (initSuperBlock 4000) Bcache.init).run [.beginOp 0] = some state ∧
    state.Searches 0 1 ∧ ((∃ b < NCACHE_BUF, (state.bcache.buf b).refcnt = 0) ↔ state.inUse.length < NCACHE_BUF) ∧
      ((state.bcache.bget 1).isSome = true ↔ state.inUse.length < NCACHE_BUF) := by
  have ran : (start (initSuperBlock 4000) Bcache.init).run [.beginOp 0] =
      some { start (initSuperBlock 4000) Bcache.init with threads := LogThreads.filled 1 0 } := (run_begins (by decide : 1 ≤ 8)).1
  have searches : ({ start (initSuperBlock 4000) Bcache.init with threads := LogThreads.filled 1 0 } : CacheThreads Nat).Searches 0 1 :=
    ⟨rfl, rfl, rfl, .inl rfl⟩
  exact ⟨_, ran, searches, search_finds_iff Bcache.init_resting ran searches⟩

/-- The log pins all buffers but one, a thread holds that one, and the search for another never ends. -/
theorem search_never_ends : ∃ events state, (start (initSuperBlock 4000) Bcache.init).run events = some state ∧
    KeepsReservation (events.filterMap CacheThreadsEvent.logged) ∧ HoldsFour (initSuperBlock 4000) Bcache.init events ∧
    state.Searches 0 3501 ∧ (∀ b < NCACHE_BUF, (state.bcache.buf b).refcnt ≠ 0) ∧ state.bcache.bget 3501 = none := by
  obtain ⟨events, state, fills⟩ := fills (Nat.le_refl (NLOG - 1))
  obtain ⟨b, bcache, small, named, -, ran, four⟩ := fills.reads (by decide) (by decide : 0 < 8) 3500
  have sound := run_sound Bcache.init_resting ran
  have used : ({ state with bcache, held := [(0, b)] } : CacheThreads Nat).inUse =
      (List.range (NLOG - 1)).map (2000 + ·) ++ [3500] := by
    have pinned : ((List.range (NLOG - 1)).map (2000 + ·)).filter
        (fun blockno => (LogThreads.filled 8 (NLOG - 1)).pins blockno != 0) = (List.range (NLOG - 1)).map (2000 + ·) := by
      apply List.filter_eq_self.mpr
      intro blockno listed
      obtain ⟨index, below, rfl⟩ := List.mem_map.mp listed
      have below := List.mem_range.mp below
      simp [LogThreads.filled, below]
    have distinct : ((List.range (NLOG - 1)).map (2000 + ·) ++ [3500]).Nodup := by
      apply List.nodup_append.mpr
      refine ⟨List.nodup_range.map (fun first second same => by simpa using same), List.nodup_singleton _, ?_⟩
      intro blockno listed other single
      obtain ⟨index, below, rfl⟩ := List.mem_map.mp listed
      have below := List.mem_range.mp below
      rw [List.mem_singleton.mp single]
      simp only [NLOG, MAXOPBLOCKS] at below
      omega
    simp only [inUse, fills.threads, List.map_cons, List.map_nil, named]
    simp only [LogThreads.filled] at pinned ⊢
    rw [pinned]
    exact List.dedup_eq_self.mpr distinct
  have full : ¬ ∃ b < NCACHE_BUF, (bcache.buf b).refcnt = 0 := by
    intro free
    have fewer := sound.free_iff.mp free
    rw [used, List.length_append, List.length_map, List.length_range, List.length_singleton] at fewer
    simp only [NLOG, NCACHE_BUF, MAXOPBLOCKS] at fewer
    omega
  have missing : bcache.cached 3501 = none := by
    cases found : bcache.cached 3501 with
    | none => rfl
    | some other =>
      obtain ⟨member, names⟩ := Bcache.cached_some found
      have below := sound.accounts.kept.inside _ other member
      have listed := (sound.counted_used below fun free => full ⟨other, below, free⟩).1
      simp only [names] at listed
      rw [used] at listed
      simp [NLOG, MAXOPBLOCKS] at listed
      omega
  have searches : ({ state with bcache, held := [(0, b)] } : CacheThreads Nat).Searches 0 3501 := by
    refine ⟨by rw [fills.threads]; rfl, by rw [fills.waiting], missing, .inl ?_⟩
    rw [fills.threads]
    rfl
  refine ⟨_, _, ran, ?_, four, searches, fun b small free => full ⟨b, small, free⟩, ?_⟩
  · rw [List.filterMap_append, List.filterMap_append, fills.logged]
    simp only [List.filterMap_cons, List.filterMap_nil, CacheThreadsEvent.logged, List.append_nil]
    exact LogThreads.eightFull_keeps _
  · cases found : bcache.bget 3501 with
    | none => rfl
    | some pair =>
      obtain ⟨-, -, way⟩ := sound.accounts.kept.bget found
      cases way with
      | inl hit =>
        have hit := hit.1
        simp only [missing] at hit
        cases hit
      | inr miss =>
        obtain ⟨from_, listed, free⟩ := miss.2.free
        exact absurd ⟨pair.1, sound.accounts.kept.inside from_ _ listed, free⟩ full

end CacheThreads
end Myfuse
