import Myfuse.Proofs.HashedCache
import Myfuse.Proofs.LogCommit

/-! The log over the real buffer cache does what the log over the crash model's cache
does for some recycling, unless no buffer is free. -/

namespace Myfuse
open Library Library.Exec

/-- The machines agree; `handed` is the buffers given out and not yet released. -/
structure Sim (s : CacheMachine) (m : Machine) (handed : Nat → Option Handle) : Prop where
  serves : s.bcache.Serves m.cache handed
  disk : s.disk = m.disk
  log : s.log = m.log
  written : s.written = m.written

/-- Every buffer is referenced. -/
def NoneFree (s : CacheMachine) : Prop := ∀ b < NCACHE_BUF, 0 < (s.bcache.buf b).refcnt

/-- The one way not to return. -/
def Stuck (reason : CacheStop) (s : CacheMachine) : Prop := reason = .noBuffer ∧ NoneFree s

variable {s : CacheMachine} {m : Machine} {handed : Nat → Option Handle} {blockno : Nat} {b : Handle}

theorem Sim.boot (logstart nlog : Nat) (disk : Nat → Block) :
    Sim (CacheMachine.boot logstart nlog disk) (Machine.boot logstart nlog disk) fun _ => none :=
  ⟨Bcache.init_serves, rfl, rfl, rfl⟩

theorem Sim.handed_cache (sim : Sim s m handed) (out : handed blockno = some b) :
    m.cache blockno = some { data := (s.bcache.buf b).data, refcnt := (s.bcache.buf b).refcnt } := by
  obtain ⟨found, valid, _⟩ := sim.serves.given blockno b out
  exact sim.serves.cache_of_cached found valid

theorem Sim.handed_blockno (sim : Sim s m handed) (out : handed blockno = some b) :
    (s.bcache.buf b).blockno = blockno :=
  (Bcache.cached_some (sim.serves.given blockno b out).1).2

/-- Changing a buffer that is given out, and keeping it. -/
theorem Sim.setBuf (sim : Sim s m handed) (out : handed blockno = some b) (change : BcacheBuf → BcacheBuf)
    (named : ∀ buf, (change buf).blockno = buf.blockno) (valid : ∀ buf, (change buf).valid = buf.valid)
    (locked : ∀ buf, (change buf).locked = buf.locked) (held : 0 < (change (s.bcache.buf b)).refcnt) :
    Sim { s with bcache := s.bcache.setBuf b change }
      (m.setCache blockno { data := (change (s.bcache.buf b)).data, refcnt := (change (s.bcache.buf b)).refcnt }) handed := by
  obtain ⟨found, isValid, _⟩ := sim.serves.given blockno b out
  have same : Function.update handed blockno (some b) = handed := by rw [← out, Function.update_eq_self]
  have isLocked : (s.bcache.buf b).locked = true := by
    refine (sim.serves.locked _ b (Bcache.cached_some found).1).mpr ?_
    rw [sim.handed_blockno out, out]
  refine ⟨?_, sim.disk, sim.log, sim.written⟩
  rw [← same]
  exact sim.serves.setBuf found ((named _).trans (sim.handed_blockno out)) ((valid _).trans isValid)
    (by simp [locked, isLocked]) (fun other given => (Option.some.inj given).symm) fun _ => held

/-- `brelse` before the time stamp: the buffer is nobody's any more. -/
theorem Sim.release (sim : Sim s m handed) (out : handed blockno = some b) (change : BcacheBuf → BcacheBuf)
    (named : ∀ buf, (change buf).blockno = buf.blockno) (valid : ∀ buf, (change buf).valid = buf.valid)
    (unlocked : ∀ buf, (change buf).locked = false) :
    Sim { s with bcache := s.bcache.setBuf b change }
      (m.setCache blockno { data := (change (s.bcache.buf b)).data, refcnt := (change (s.bcache.buf b)).refcnt })
      (Function.update handed blockno none) := by
  obtain ⟨found, isValid, _⟩ := sim.serves.given blockno b out
  refine ⟨?_, sim.disk, sim.log, sim.written⟩
  exact sim.serves.setBuf found ((named _).trans (sim.handed_blockno out)) ((valid _).trans isValid)
    (by simp [unlocked]) (fun other given => by cases given) fun given => by cases given

/-- What `bread` leaves: the block's buffer is given out, after the recycling of at most one other. -/
def Bread (after : CacheMachine) (m : Machine) (handed : Nat → Option Handle) (blockno : Nat) (b : Handle) : Prop :=
  ∃ gone : Nat → Bool, Sim after ((m.recycle fun _ => gone).hold blockno) (Function.update handed blockno (some b))

private theorem recycle_nothing (m : Machine) : (m.recycle fun _ _ => false).cache = m.cache := by
  funext other
  simp only [Machine.recycle, Bool.and_false, Bool.not_false]
  cases m.cache other <;> rfl

theorem hold_cache (m : Machine) (blockno : Nat) : (m.hold blockno).cache =
    Function.update m.cache blockno (some { data := m.contents blockno, refcnt := m.refs blockno + 1 }) := by
  unfold Machine.hold Machine.contents Machine.refs
  cases m.cache blockno <;> rfl

theorem hold_disk (m : Machine) (blockno : Nat) : (m.hold blockno).disk = m.disk := by
  unfold Machine.hold
  cases m.cache blockno <;> rfl

theorem hold_log (m : Machine) (blockno : Nat) : (m.hold blockno).log = m.log := by
  unfold Machine.hold
  cases m.cache blockno <;> rfl

theorem hold_written (m : Machine) (blockno : Nat) : (m.hold blockno).written = m.written := by
  unfold Machine.hold
  cases m.cache blockno <;> rfl

/-- The buffer after `bread`, as one change of it. -/
private def filled (disk : Nat → Block) (blockno : Nat) (buf : BcacheBuf) : BcacheBuf :=
  { buf with locked := true, data := if buf.valid then buf.data else disk blockno, valid := true }

private theorem bread_eq {after : Bcache} (found : s.bcache.bget blockno = some (b, after)) (free : (after.buf b).locked = false) :
    BufCache.bread blockno s = (.ok b, { s with bcache := after.setBuf b (filled s.disk blockno) }) := by
  have got : BufCache.bget blockno s =
      (.ok b, { s with bcache := after.setBuf b fun buf => { buf with locked := true } }) := by
    unfold BufCache.bget
    rw [bind_ok get_apply, found]
    simp [free, bind_apply]
  unfold BufCache.bread
  rw [bind_ok got, bind_ok get_apply]
  cases valid : (after.buf b).valid with
  | true =>
    simp only [Bcache.setBuf_buf, valid, if_true, pure_apply]
    simp [Bcache.setBuf, filled, valid]
  | false =>
    simp [BufCache.setBuf, valid, bind_apply, Bcache.setBuf, filled]

theorem bread_sim (sim : Sim s m handed) (free : handed blockno = none) :
    Ensures (BufCache.bread blockno) s (fun b after => Bread after m handed blockno b) Stuck := by
  cases found : s.bcache.bget blockno with
  | none =>
    have stuck : BufCache.bread blockno s = (.error .noBuffer, s) := by
      unfold BufCache.bread BufCache.bget
      rw [bind_stop]
      rw [bind_ok get_apply, found]
      rfl
    rw [ensures_of_stop stuck]
    exact ⟨rfl, sim.serves.listed.bget_none found⟩
  | some pair =>
    obtain ⟨b, after⟩ := pair
    rcases sim.serves.listed.bget_some found with ⟨hit, rfl⟩ | ⟨missing, claimed⟩
    · obtain ⟨member, named⟩ := Bcache.cached_some hit
      have unlocked : (s.bcache.buf b).locked = false := by
        by_contra held
        have := (sim.serves.locked _ b member).mp (Bool.not_eq_false _ ▸ held)
        rw [named, free] at this
        cases this
      rw [ensures_of_ok (bread_eq found (by simpa using unlocked))]
      refine ⟨fun _ => false, ?_, ?_, ?_, ?_⟩
      · rw [hold_cache, recycle_nothing, Bcache.setBuf_setBuf]
        have served : m.cache blockno = if (s.bcache.buf b).valid then
            some { data := (s.bcache.buf b).data, refcnt := (s.bcache.buf b).refcnt } else none := by
          rw [sim.serves.served, Bcache.lookup, hit, Option.bind_some]
        have contents : (m.recycle fun _ _ => false).contents blockno =
            (filled s.disk blockno { s.bcache.buf b with refcnt := (s.bcache.buf b).refcnt + 1 }).data := by
          rw [Machine.contents, recycle_nothing, served]
          cases valid : (s.bcache.buf b).valid
          · simp [filled, valid, sim.disk, Machine.recycle]
          · simp [filled, valid]
        have refs : (m.recycle fun _ _ => false).refs blockno = (s.bcache.buf b).refcnt := by
          rw [Machine.refs, recycle_nothing, served]
          cases valid : (s.bcache.buf b).valid
          · simp [sim.serves.idle _ b member valid]
          · simp
        rw [contents, refs]
        let change := fun buf : BcacheBuf => filled s.disk blockno { buf with refcnt := buf.refcnt + 1 }
        have locked : (change (s.bcache.buf b)).locked = true ↔ some b = some b := by simp [change, filled]
        exact sim.serves.setBuf hit named rfl locked (fun other given => (Option.some.inj given).symm)
          fun _ => Nat.succ_pos _
      · rw [hold_disk]
        exact sim.disk
      · rw [hold_log]
        exact sim.log
      · rw [hold_written]
        exact sim.written
    · obtain ⟨hashid, member, zero⟩ := claimed.free
      have unlocked := sim.serves.unlocked member zero
      rw [ensures_of_ok (bread_eq found (by rw [claimed.here]; exact unlocked))]
      refine ⟨fun block => block == (s.bcache.buf b).blockno && (s.bcache.buf b).valid, ?_, ?_, ?_, ?_⟩
      · have takeover : (after.setBuf b (filled s.disk blockno)).Serves _ _ := sim.serves.takeover missing member zero
          (by simp [claimed.here, filled]) (by simp [filled]) (by simp [filled]) (by simp [claimed.here, filled])
          (fun other apart => (Function.update_of_ne apart _ _).trans (claimed.elsewhere other apart))
          claimed.lists claimed.placed claimed.distinct
        have absent : m.cache blockno = none := by rw [sim.serves.served, Bcache.lookup, missing, Option.bind_none]
        have gone : (m.recycle fun _ block => block == (s.bcache.buf b).blockno && (s.bcache.buf b).valid).cache blockno =
            none := by
          simp [Machine.recycle, absent]
        rw [hold_cache, Machine.contents, Machine.refs, gone]
        rw [Bcache.setBuf_buf, claimed.here] at takeover
        have data : (filled s.disk blockno
            { s.bcache.buf b with blockno, refcnt := 1, valid := false }).data = m.disk blockno := by
          simp [filled, sim.disk]
        rw [data] at takeover
        exact takeover
      · rw [hold_disk]
        exact sim.disk
      · rw [hold_log]
        exact sim.log
      · rw [hold_written]
        exact sim.written

/-! Programs. -/

/-- From `s` the program over the real cache returns as the other one does from `m` with the recycling that
the real cache went through, or it finds no free buffer. -/
def Refines {α β : Type} (real : CacheM α) (s : CacheMachine) (spec : (Nat → Nat → Bool) → LogM β) (m : Machine)
    (post : α → β → CacheMachine → Machine → Prop) : Prop :=
  Ensures real s (fun value after => ∃ (drops : Nat → Nat → Bool) (result : β) (next : Machine),
    m.tick ≤ next.tick ∧ post value result after next ∧ ∀ recycled : Nat → Nat → Bool, (∀ tick, m.tick ≤ tick → tick < next.tick → recycled tick = drops tick) →
      spec recycled m = (.ok result, next)) Stuck

section
variable {α β γ δ : Type} {real : CacheM α} {spec : (Nat → Nat → Bool) → LogM β}
  {post : α → β → CacheMachine → Machine → Prop}

theorem Refines.mono {post' : α → β → CacheMachine → Machine → Prop} (refines : Refines real s spec m post)
    (weaker : ∀ value result after next, post value result after next → post' value result after next) :
    Refines real s spec m post' := by
  refine refines.weaken fun value after returned => ?_
  obtain ⟨drops, result, next, later, holds, ran⟩ := returned
  exact ⟨drops, result, next, later, weaker _ _ _ _ holds, ran⟩

/-- The sequencing rule: the recycling of the two halves is spliced at the tick between them. -/
theorem Refines.bind {real' : α → CacheM γ} {spec' : (Nat → Nat → Bool) → β → LogM δ}
    {final : γ → δ → CacheMachine → Machine → Prop} (first : Refines real s spec m post)
    (rest : ∀ value result after next, post value result after next →
      Refines (real' value) after (fun recycled => spec' recycled result) next final) :
    Refines (real >>= real') s (fun recycled => spec recycled >>= spec' recycled) m final := by
  refine Ensures.bind first fun value after returned => ?_
  obtain ⟨drops, result, next, later, holds, ran⟩ := returned
  refine (rest value result after next holds).weaken fun value' after' returned' => ?_
  obtain ⟨drops', result', next', later', holds', ran'⟩ := returned'
  refine ⟨fun tick => if tick < next.tick then drops tick else drops' tick, result', next', Nat.le_trans later later',
    holds', fun recycled agrees => ?_⟩
  have head := ran recycled fun tick low high => (agrees tick low (by omega)).trans (if_pos high)
  have tail := ran' recycled fun tick low high => (agrees tick (by omega) high).trans (if_neg (by omega))
  exact (bind_ok head).trans tail

theorem Refines.pure {value : α} {result : β} (holds : post value result s m) :
    Refines (pure value) s (fun _ => Pure.pure result) m post :=
  (ensures_pure value).mpr ⟨fun _ _ => false, result, m, Nat.le_refl _, holds, fun _ _ => rfl⟩

/-- A step of the real program alone. -/
theorem Refines.step {real' : α → CacheM γ} {final : γ → β → CacheMachine → Machine → Prop} {value : α} {after : CacheMachine}
    (ran : real s = (.ok value, after)) (rest : Refines (real' value) after spec m final) :
    Refines (real >>= real') s spec m final := by
  unfold Refines
  rw [ensures_bind, ensures_of_ok ran]
  exact rest

/-- Both programs take one step that recycles nothing. -/
theorem Refines.both {value : α} {result : β} {after : CacheMachine} {next : Machine} (ran : real s = (.ok value, after))
    (also : ∀ recycled, spec recycled m = (.ok result, next)) (tick : next.tick = m.tick)
    (holds : post value result after next) : Refines real s spec m post := by
  unfold Refines
  rw [ensures_of_ok ran]
  exact ⟨fun _ _ => false, result, next, Nat.le_of_eq tick.symm, holds, fun recycled _ => also recycled⟩

theorem Refines.get {real' : CacheMachine → CacheM γ} {spec' : (Nat → Nat → Bool) → Machine → LogM δ}
    {final : γ → δ → CacheMachine → Machine → Prop}
    (rest : Refines (real' s) s (fun recycled => spec' recycled m) m final) :
    Refines (Exec.get >>= real') s (fun recycled => Exec.get >>= spec' recycled) m final := by
  unfold Refines
  rw [ensures_bind, ensures_get]
  exact rest

theorem Refines.forRange {body : Nat → CacheM Unit} {body' : (Nat → Nat → Bool) → Nat → LogM Unit}
    (invariant : Nat → CacheMachine → Machine → Prop) :
    ∀ {lo count : Nat} {s : CacheMachine} {m : Machine}, invariant lo s m →
      (∀ i s m, lo ≤ i → i < lo + count → invariant i s m →
        Refines (body i) s (fun recycled => body' recycled i) m fun _ _ after next => invariant (i + 1) after next) →
      Refines (Exec.forRange lo count body) s (fun recycled => Exec.forRange lo count (body' recycled)) m
        fun _ _ after next => invariant (lo + count) after next
  | lo, 0, s, m, start, _ => Refines.pure start
  | lo, count + 1, s, m, start, step => by
    refine Refines.bind (step lo s m (Nat.le_refl _) (by omega) start) fun _ _ after next reached => ?_
    rw [show lo + (count + 1) = lo + 1 + count by omega]
    exact Refines.forRange invariant reached fun i s m low high => step i s m (by omega) (by omega)

end

/-! The cache operations. -/

theorem refs_hold (m : Machine) (blockno : Nat) :
    (m.hold blockno).refs = Function.update m.refs blockno (m.refs blockno + 1) := by
  funext other
  rw [Machine.refs, hold_cache]
  by_cases same : other = blockno <;> simp [same, Machine.refs]

theorem refs_setCache (m : Machine) (blockno : Nat) (buf : Buf) :
    (m.setCache blockno buf).refs = Function.update m.refs blockno buf.refcnt := by
  funext other
  by_cases same : other = blockno <;> simp [Machine.refs, Machine.setCache, same]

theorem Sim.handed_refs (sim : Sim s m handed) (out : handed blockno = some b) :
    m.refs blockno = (s.bcache.buf b).refcnt := by
  simp [Machine.refs, sim.handed_cache out]

theorem bread_refines (sim : Sim s m handed) (free : handed blockno = none) :
    Refines (BufCache.bread blockno) s (Myfuse.bread · blockno) m fun b found after next =>
      Sim after next (Function.update handed blockno (some b)) ∧ found = (after.bcache.buf b).data ∧
        next.refs = Function.update m.refs blockno (m.refs blockno + 1) ∧ next.log = m.log ∧
        (∀ other, other ≠ blockno → 0 < m.refs other → next.cache other = m.cache other) ∧
        (m.view.Clean → found = m.contents blockno) := by
  refine (bread_sim sim free).weaken fun b after returned => ?_
  obtain ⟨gone, sim'⟩ := returned
  set next := (m.recycle fun _ => gone).hold blockno with at_
  have out : Function.update handed blockno (some b) blockno = some b := Function.update_self _ _ _
  have tick : next.tick = m.tick + 1 := by
    rw [at_]
    unfold Machine.hold
    cases (m.recycle fun _ => gone).cache blockno <;> rfl
  refine ⟨fun _ => gone, _, next, by omega, ⟨sim', rfl, ?_, hold_log _ _, fun other apart referenced => ?_, fun clean => ?_⟩,
    fun recycled agrees => ?_⟩
  · rw [at_, refs_hold]
    have same : (m.recycle fun _ => gone).refs = m.refs := funext (Machine.refs_recycle _ m)
    rw [same]
  · obtain ⟨buf, found⟩ := Machine.refs_pos referenced
    have held : buf.refcnt ≠ 0 := by
      simp only [Machine.refs, found] at referenced
      omega
    rw [at_, hold_cache, Function.update_of_ne apart]
    simp [Machine.recycle, found, held]
  · have contents : (after.bcache.buf b).data = next.contents blockno := by
      simp [Machine.contents, sim'.handed_cache out]
    have seen : next.view = m.view.hold blockno := by rw [at_, Machine.view_hold, Machine.view_recycle _ clean]
    rw [contents]
    exact congrFun (congrArg CacheView.contents seen) blockno
  · have same : m.recycle recycled = m.recycle fun _ => gone := by
      simp only [Machine.recycle, agrees m.tick (Nat.le_refl _) (by omega)]
    have contents : next.contents blockno = (after.bcache.buf b).data := by
      simp [Machine.contents, sim'.handed_cache out]
    rw [← contents, at_, ← same]
    rfl

theorem setData_refines (sim : Sim s m handed) (out : handed blockno = some b) (data : Block) :
    Refines (BufCache.setData b data) s (fun _ => Myfuse.setData blockno data) m fun _ _ after next =>
      Sim after next handed ∧ (after.bcache.buf b).data = data ∧ next.refs = m.refs ∧ next.log = m.log := by
  obtain ⟨_, _, held⟩ := sim.serves.given blockno b out
  have cached := sim.handed_cache out
  let change := fun buf : BcacheBuf => { buf with data }
  have sim' := sim.setBuf out change (fun _ => rfl) (fun _ => rfl) (fun _ => rfl) held
  have also : Myfuse.setData blockno data m =
      (.ok (), m.setCache blockno { data, refcnt := (s.bcache.buf b).refcnt }) := by
    simp [Myfuse.setData, bind_apply, cached]
  refine Refines.both rfl (fun _ => also) rfl ⟨sim', ?_, ?_, rfl⟩
  · simp
  · rw [refs_setCache, ← sim.handed_refs out, Function.update_eq_self]

theorem bwrite_refines (sim : Sim s m handed) (out : handed blockno = some b) :
    Refines (BufCache.bwrite b) s (fun _ => Myfuse.bwrite blockno) m fun _ _ after next =>
      Sim after next handed ∧ next.refs = m.refs ∧ next.log = m.log := by
  have cached := sim.handed_cache out
  have named := sim.handed_blockno out
  let data := (s.bcache.buf b).data
  have also : Myfuse.bwrite blockno m = (.ok (), { m with
      disk := Function.update m.disk blockno data
      written := m.written ++ [(blockno, data)] }) := by
    simp [Myfuse.bwrite, bind_apply, cached, data]
  refine Refines.both rfl (fun _ => also) rfl ⟨⟨sim.serves, ?_, sim.log, ?_⟩, rfl, rfl⟩
  · simp [sim.disk, named, data]
  · simp [sim.written, named, data]

theorem bunpin_refines (sim : Sim s m handed) (out : handed blockno = some b) (pinned : 1 < m.refs blockno) :
    Refines (BufCache.bunpin b) s (fun _ => Myfuse.bunpin blockno) m fun _ _ after next =>
      Sim after next handed ∧ next.refs = Function.update m.refs blockno (m.refs blockno - 1) ∧ next.log = m.log := by
  have cached := sim.handed_cache out
  have count := sim.handed_refs out
  let change := fun buf : BcacheBuf => { buf with refcnt := buf.refcnt - 1 }
  have sim' := sim.setBuf out change (fun _ => rfl) (fun _ => rfl) (fun _ => rfl)
    (by simp only [change]; omega)
  have also : Myfuse.bunpin blockno m =
      (.ok (), m.setCache blockno { data := (s.bcache.buf b).data, refcnt := (s.bcache.buf b).refcnt - 1 }) := by
    simp [Myfuse.bunpin, bind_apply, cached]
  exact Refines.both rfl (fun _ => also) rfl ⟨sim', by rw [refs_setCache, count], rfl⟩

theorem bpin_refines (sim : Sim s m handed) (out : handed blockno = some b) :
    Refines (BufCache.bpin b) s (fun _ => Myfuse.bpin blockno) m fun _ _ after next =>
      Sim after next handed ∧ next.refs = Function.update m.refs blockno (m.refs blockno + 1) ∧ next.log = m.log := by
  have cached := sim.handed_cache out
  have count := sim.handed_refs out
  let change := fun buf : BcacheBuf => { buf with refcnt := buf.refcnt + 1 }
  have sim' := sim.setBuf out change (fun _ => rfl) (fun _ => rfl) (fun _ => rfl) (Nat.succ_pos _)
  have also : Myfuse.bpin blockno m =
      (.ok (), m.setCache blockno { data := (s.bcache.buf b).data, refcnt := (s.bcache.buf b).refcnt + 1 }) := by
    simp [Myfuse.bpin, bind_apply, cached]
  exact Refines.both rfl (fun _ => also) rfl ⟨sim', by rw [refs_setCache, count], rfl⟩

theorem brelse_refines (clock : Nat → BitVec 64) (sim : Sim s m handed) (out : handed blockno = some b) :
    Refines (BufCache.brelse clock b) s (fun _ => Myfuse.brelse blockno) m fun _ _ after next =>
      Sim after next (Function.update handed blockno none) ∧
        next.refs = Function.update m.refs blockno (m.refs blockno - 1) ∧ next.log = m.log := by
  have cached := sim.handed_cache out
  have count := sim.handed_refs out
  have spec : ∀ buf : Buf, buf = { data := (s.bcache.buf b).data, refcnt := (s.bcache.buf b).refcnt - 1 } →
      Myfuse.brelse blockno m = (.ok (), m.setCache blockno buf) := by
    rintro _ rfl
    simp [Myfuse.brelse, Myfuse.bunpin, bind_apply, cached]
  by_cases last : (s.bcache.buf b).refcnt - 1 = 0
  · let change := fun buf : BcacheBuf =>
      { buf with locked := false, refcnt := (s.bcache.buf b).refcnt - 1, timestamp := clock s.now }
    have sim' := sim.release out change (fun _ => rfl) (fun _ => rfl) (fun _ => rfl)
    have ran : BufCache.brelse clock b s =
        (.ok (), { s with bcache := s.bcache.setBuf b change, now := s.now + 1 }) := by
      simp [BufCache.brelse, BufCache.setBuf, bind_apply, last, change]
    exact Refines.both ran (fun _ => spec _ rfl) rfl
      ⟨⟨sim'.serves, sim'.disk, sim'.log, sim'.written⟩, by rw [refs_setCache, count], rfl⟩
  · let change := fun buf : BcacheBuf => { buf with locked := false, refcnt := (s.bcache.buf b).refcnt - 1 }
    have sim' := sim.release out change (fun _ => rfl) (fun _ => rfl) (fun _ => rfl)
    have ran : BufCache.brelse clock b s = (.ok (), { s with bcache := s.bcache.setBuf b change }) := by
      simp [BufCache.brelse, BufCache.setBuf, bind_apply, last, change]
    exact Refines.both ran (fun _ => spec _ rfl) rfl ⟨sim', by rw [refs_setCache, count], rfl⟩

end Myfuse
