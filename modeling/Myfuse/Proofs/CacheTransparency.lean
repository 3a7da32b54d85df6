import Myfuse.Proofs.CachedLog
import Myfuse.Proofs.CrashAtomicity

/-! Callers of the log see plain memory: whatever the cache recycles, a read returns
what was last written. -/

namespace Myfuse
open Library Library.Exec

section
variable {α β : Type} {real : CacheM α} {s : CacheMachine} {spec : (Nat → Nat → Bool) → LogM β} {m : Machine}
  {post : α → β → CacheMachine → Machine → Prop} {value : β} {v : CacheView}

/-- What every recycling leads to, the real cache reaches. -/
theorem Refines.leads (refines : Refines real s spec m post) (leads : ∀ recycled, Leads (spec recycled) m value v) :
    Ensures real s (fun result after => ∃ next, post result value after next ∧ next.view = v) Stuck := by
  refine refines.weaken fun result after returned => ?_
  obtain ⟨drops, found, next, _, holds, ran⟩ := returned
  obtain ⟨rfl, seen⟩ := (leads drops).returned (ran drops fun _ _ _ => rfl)
  exact ⟨next, holds, seen⟩

end

/-! `end_op` and `logged_write` on the view. -/

/-- `end_op` before it looks for work to commit. -/
def Fslog.ended (log : Fslog) : Fslog := { log with outstanding := log.outstanding - 1 }

theorem CacheView.setLog_writes (v : CacheView) (log : Fslog) (ws : List (Nat × Block)) :
    { v with log := log }.writes ws = { v.writes ws with log := log } := rfl

theorem CacheView.setLog_releaseAll (v : CacheView) (log : Fslog) (blocks : List Nat) :
    { v with log := log }.releaseAll blocks = { v.releaseAll blocks with log := log } := by
  induction blocks generalizing v with
  | nil => rfl
  | cons block blocks ih => exact ih (v.release block)

section
variable {m : Machine} {v : CacheView} (recycled : Nat → Nat → Bool)

theorem endOp_leads_other (seen : m.view = v) (idle : v.log.committing = false) (more : v.log.ended.outstanding ≠ 0) :
    Leads (endOp recycled) m () { v with log := v.log.ended } := by
  have log : m.log = v.log := congrArg CacheView.log seen
  unfold endOp
  refine Leads.bind (modifyLog_leads Fslog.ended seen) fun after moved => Leads.get ?_
  have now : after.log = v.log.ended := congrArg CacheView.log moved
  rw [now, if_neg (by simp [Fslog.ended, idle]), if_neg more]
  exact (ensures_pure _).mpr ⟨rfl, moved⟩

/-- The last `end_op` of a group that wrote nothing. -/
theorem endOp_leads_empty (seen : m.view = v) (idle : v.log.committing = false) (last : v.log.ended.outstanding = 0)
    (nothing : v.log.block = []) : Leads (endOp recycled) m () { v with log := v.log.ended } := by
  unfold endOp
  refine Leads.bind (modifyLog_leads Fslog.ended seen) fun m₁ seen₁ => Leads.get ?_
  have now : m₁.log = v.log.ended := congrArg CacheView.log seen₁
  rw [now, if_neg (by simp [Fslog.ended, idle]), if_pos last]
  refine Leads.bind (modifyLog_leads (fun log => { log with committing := true }) seen₁) fun m₂ seen₂ => ?_
  have skipped : Leads (commit recycled) m₂ () m₂.view := by
    have none : m₂.log.n = 0 := by
      rw [show m₂.log = _ from congrArg CacheView.log seen₂]
      simp [Fslog.n, Fslog.ended, nothing]
    unfold commit
    refine Leads.get ?_
    rw [if_neg (by omega)]
    exact (ensures_pure _).mpr ⟨rfl, rfl⟩
  refine Leads.bind skipped fun m₃ seen₃ => ?_
  have final := modifyLog_leads (fun log => { log with committing := false }) (seen₃.trans seen₂)
  simpa [Fslog.ended, idle] using final

/-- The last `end_op` of a group that wrote. -/
theorem endOp_leads_commit (seen : m.view = v) (clean : v.Clean) (idle : v.log.committing = false)
    (last : v.log.ended.outstanding = 0) (listed : v.log.block ≠ [])
    (outside : ∀ blockno ∈ v.log.block, OutsideLog v.log.start (v.log.n + 1) blockno) (distinct : v.log.block.Nodup)
    (pinned : ∀ blockno ∈ v.log.block, 0 < v.refs blockno) :
    Leads (endOp recycled) m () { (v.writes (commitWrites v.log.start v.log.block v.contents)).releaseAll v.log.block with
      log := { v.log.ended with block := [] } } := by
  unfold endOp
  refine Leads.bind (modifyLog_leads Fslog.ended seen) fun m₁ seen₁ => Leads.get ?_
  have now : m₁.log = v.log.ended := congrArg CacheView.log seen₁
  rw [now, if_neg (by simp [Fslog.ended, idle]), if_pos last]
  refine Leads.bind (modifyLog_leads (fun log => { log with committing := true }) seen₁) fun m₂ seen₂ => ?_
  refine Leads.bind (commit_leads recycled seen₂ clean listed outside distinct pinned) fun m₃ seen₃ => ?_
  have final := modifyLog_leads (fun log => { log with committing := false }) seen₃
  simp only [CacheView.setLog_writes, CacheView.setLog_releaseAll] at final
  simpa [CacheView.withLog, Fslog.ended, idle] using final

theorem loggedWrite_leads {blockno : Nat} (seen : m.view = v) (held : 0 < v.refs blockno)
    (room : v.log.tooBig = false) (inside : ¬ v.log.outstanding < 1) :
    Leads (loggedWrite blockno) m ()
      { (if blockno ∈ v.log.block then v else v.hold blockno) with log := v.log.absorb blockno } := by
  have log : m.log = v.log := congrArg CacheView.log seen
  unfold loggedWrite
  refine Leads.get ?_
  rw [log, if_neg (by simp [room]), if_neg inside]
  by_cases listed : blockno ∈ v.log.block
  · simp only [if_pos listed]
    exact modifyLog_leads (Fslog.absorb · blockno) seen
  · simp only [if_neg listed]
    have referenced : 0 < m.view.refs blockno := by
      rw [seen]
      exact held
    have pinned := bpin_leads referenced
    rw [seen] at pinned
    refine Leads.bind pinned fun after moved => ?_
    exact modifyLog_leads (Fslog.absorb · blockno) moved

end

theorem endOp_refines (clock : Nat → BitVec 64) {s : CacheMachine} {m : Machine} {handed : Nat → Option Handle}
    (sim : Sim s m handed) (idle : m.log.committing = false)
    (ready : m.log.ended.outstanding = 0 → m.log.n > 0 → Committable m handed) :
    Refines (BufCache.endOp clock) s (endOp ·) m fun _ _ after next => Sim after next handed := by
  unfold BufCache.endOp endOp
  refine Refines.bind (setLog_refines sim Fslog.ended) fun _ _ s₁ m₁ ⟨sim₁, refs₁, log₁⟩ => Refines.get ?_
  rw [sim₁.log, log₁]
  have quiet : ¬ (m.log.ended.committing = true) := by simp [Fslog.ended, idle]
  simp only [if_neg quiet]
  by_cases last : m.log.ended.outstanding = 0
  case neg =>
    simp only [if_neg last]
    exact Refines.pure sim₁
  simp only [if_pos last]
  refine Refines.bind (setLog_refines sim₁ fun log => { log with committing := true })
    fun _ _ s₂ m₂ ⟨sim₂, refs₂, log₂⟩ => ?_
  have refs : m₂.refs = m.refs := refs₂.trans refs₁
  have block : m₂.log.block = m.log.block := by rw [log₂, log₁]; rfl
  have start : m₂.log.start = m.log.start := by rw [log₂, log₁]; rfl
  refine Refines.bind (commit_refines clock sim₂ fun some => ?_) fun _ _ s₃ m₃ sim₃ => ?_
  · have count : m₂.log.n = m.log.n := congrArg List.length block
    obtain ⟨apart, distinct, pinned, free, freeLog⟩ := ready last (count ▸ some)
    constructor
    · rw [block, start, count]
      exact apart
    · rw [block]
      exact distinct
    · rw [block, refs]
      exact pinned
    · rw [block]
      exact free
    · rw [start, count]
      exact freeLog
  · exact (setLog_refines sim₃ fun log => { log with committing := false }).mono fun _ _ _ _ done => done.1

/-! Plain memory and the view. -/

/-- The references of a block outside the log: the pin of the log and the caller's hold. -/
def Plain.refs (p : Plain) (blockno : Nat) : Nat :=
  (if blockno ∈ p.logged then 1 else 0) + (if blockno ∈ p.held then 1 else 0)

/-- The view shows the plain memory outside the log region. -/
structure Shows (logstart nlog : Nat) (p : Plain) (v : CacheView) : Prop where
  settled : ∀ blockno ∉ p.logged, v.contents blockno = v.disk blockno
  log : v.log = p.log logstart nlog
  contents : ∀ blockno, OutsideLog logstart nlog blockno → v.contents blockno = p.memory blockno
  refs : ∀ blockno, OutsideLog logstart nlog blockno → v.refs blockno = p.refs blockno
  distinct : p.logged.Nodup
  logged : ∀ blockno ∈ p.logged, OutsideLog logstart nlog blockno
  held : ∀ blockno ∈ p.held, OutsideLog logstart nlog blockno
  room : p.logged ≠ [] → p.logged.length < nlog

variable {logstart nlog : Nat} {p : Plain} {v : CacheView}

theorem Shows.clean (shows : Shows logstart nlog p v) : v.Clean := by
  intro blockno unreferenced
  refine shows.settled blockno fun listed => ?_
  have pinned := shows.refs blockno (shows.logged blockno listed)
  rw [Plain.refs, if_pos listed] at pinned
  omega

/-- A change of the log alone. -/
theorem Shows.setOutstanding (shows : Shows logstart nlog p v) (outstanding : Nat) :
    Shows logstart nlog { p with outstanding := outstanding }
      { v with log := { v.log with outstanding := outstanding } } := by
  refine { shows with log := ?_ }
  rw [shows.log]
  rfl

/-- A commit leaves what it wrote home as it was. -/
theorem commitWrites_outside {blocks : List Nat} {contents : Nat → Block} {blockno : Nat} (room : blocks.length < nlog)
    (outside : OutsideLog logstart nlog blockno) :
    applyWrites contents (commitWrites logstart blocks contents) blockno = contents blockno := by
  refine applyWrites_same contents fun write inside named => ?_
  simp only [commitWrites, List.mem_append, List.mem_cons, List.mem_map, List.not_mem_nil, or_false] at inside
  have away := outside_start (by omega) outside
  rcases inside with copy | rfl | ⟨home, _, rfl⟩ | rfl
  · have := copies_inside room copy
    simp only [OutsideLog] at outside
    omega
  · exact absurd named.symm away
  · exact congrArg contents named
  · exact absurd named.symm away

theorem Shows.commit (shows : Shows logstart nlog p v) (some : p.logged ≠ []) :
    Shows logstart nlog { p with outstanding := 0, logged := [] }
      { (v.writes (commitWrites v.log.start v.log.block v.contents)).releaseAll v.log.block with
        log := { v.log with outstanding := 0, block := [] } } := by
  have room := shows.room some
  have block : v.log.block = p.logged := by rw [shows.log]; rfl
  have start : v.log.start = logstart := by rw [shows.log]; rfl
  have outside : ∀ blockno, OutsideLog logstart nlog blockno →
      ((v.writes (commitWrites logstart p.logged v.contents)).releaseAll p.logged).refs blockno =
        if blockno ∈ p.held then 1 else 0 := fun blockno away => by
    have before := shows.refs blockno away
    rw [Plain.refs] at before
    by_cases listed : blockno ∈ p.logged
    · rw [CacheView.releaseAll_refs_mem shows.distinct listed, CacheView.writes_refs, before, if_pos listed]
      omega
    · rw [CacheView.releaseAll_refs_other listed, CacheView.writes_refs, before, if_neg listed]
      omega
  rw [block, start]
  constructor
  case settled =>
    intro blockno _
    rw [CacheView.releaseAll_contents, CacheView.releaseAll_disk]
    by_cases listed : blockno ∈ p.logged
    · refine applyWrites_congr (.inl ?_)
      simp only [commitWrites, List.map_append, List.map_cons, List.map_map, List.mem_append, List.mem_cons]
      exact .inr (.inr (.inl (by simpa [Function.comp_def] using listed)))
    · exact applyWrites_congr (.inr (shows.settled blockno listed))
  case log =>
    rw [shows.log]
    rfl
  case contents =>
    intro blockno away
    rw [CacheView.releaseAll_contents]
    exact (commitWrites_outside room away).trans (shows.contents blockno away)
  case refs => exact fun blockno away => by simpa [Plain.refs] using outside blockno away
  case distinct => exact List.nodup_nil
  case logged => simp
  case held => exact shows.held
  case room => simp

/-- A buffer is read and kept. -/
theorem Shows.hold (shows : Shows logstart nlog p v) {blockno : Nat} (outside : OutsideLog logstart nlog blockno)
    (free : blockno ∉ p.held) : Shows logstart nlog { p with held := blockno :: p.held } (v.hold blockno) := by
  refine { shows with refs := fun other away => ?_, held := ?_ }
  · have before := shows.refs other away
    by_cases same : other = blockno
    · subst same
      simp [Plain.refs, CacheView.hold, free] at before ⊢
      omega
    · simpa [Plain.refs, CacheView.hold, same, Function.update_of_ne same] using before
  · intro other inside
    rcases List.mem_cons.mp inside with rfl | inside
    · exact outside
    · exact shows.held other inside

/-- A held buffer is given back. -/
theorem Shows.release (shows : Shows logstart nlog p v) {blockno : Nat} (held : blockno ∈ p.held) :
    Shows logstart nlog { p with held := p.held.filter (· != blockno) } (v.release blockno) := by
  refine { shows with refs := fun other away => ?_, held := fun other inside => ?_ }
  · have before := shows.refs other away
    by_cases same : other = blockno
    · subst same
      simp [Plain.refs, CacheView.release, held] at before ⊢
      omega
    · simpa [Plain.refs, CacheView.release, same, Function.update_of_ne same] using before
  · exact shows.held other (List.mem_of_mem_filter inside)

/-- A held buffer is changed and logged. -/
theorem Shows.write (shows : Shows logstart nlog p v) {blockno : Nat} (held : blockno ∈ p.held)
    (room : (p.log logstart nlog).tooBig = false) (data : Block) :
    let changed := v.setData blockno data
    Shows logstart nlog { p with
        memory := Function.update p.memory blockno data
        logged := ((p.log logstart nlog).absorb blockno).block }
      { (if blockno ∈ changed.log.block then changed else changed.hold blockno) with log := changed.log.absorb blockno } := by
  intro changed
  have outside := shows.held blockno held
  have log : changed.log = p.log logstart nlog := shows.log
  have size : (p.log logstart nlog).size = (Fslog.init logstart nlog).size := rfl
  have fits := (Fslog.room_of_not_tooBig size room).2
  have member := Fslog.mem_absorb (p.log logstart nlog) blockno
  have kept : ∀ other, other ≠ blockno → changed.contents other = v.contents other :=
    fun other apart => Function.update_of_ne apart _ _
  rw [log]
  have contents : (if blockno ∈ (p.log logstart nlog).block then changed else changed.hold blockno).contents =
      changed.contents := by split <;> rfl
  have disk : (if blockno ∈ (p.log logstart nlog).block then changed else changed.hold blockno).disk = v.disk := by
    split <;> rfl
  constructor
  case settled =>
    intro other absent
    rw [member, not_or] at absent
    rw [contents, disk, kept other absent.2]
    exact shows.settled other absent.1
  case log =>
    by_cases listed : blockno ∈ p.logged <;> simp [Plain.log, Fslog.absorb, listed]
  case contents =>
    intro other away
    rw [contents]
    by_cases same : other = blockno
    · subst same
      simp [changed, CacheView.setData]
    · rw [kept other same, shows.contents other away]
      exact (Function.update_of_ne same _ _).symm
  case refs =>
    intro other away
    have before := shows.refs other away
    have block : (p.log logstart nlog).block = p.logged := rfl
    rw [block]
    by_cases same : other = blockno
    · subst same
      by_cases listed : other ∈ p.logged
      · simpa [Plain.refs, changed, CacheView.setData, listed, member, block] using before
      · simp [Plain.refs, changed, CacheView.setData, CacheView.hold, listed, member] at before ⊢
        omega
    · have still : (if blockno ∈ p.logged then changed else changed.hold blockno).refs other = v.refs other := by
        split
        · rfl
        · simp [changed, CacheView.hold, CacheView.setData, Function.update_of_ne same]
      rw [still, before]
      simp [Plain.refs, member, block, same]
  case distinct => exact Fslog.absorb_nodup shows.distinct blockno
  case logged =>
    intro other inside
    rcases (member other).mp inside with inside | rfl
    · exact shows.logged other inside
    · exact outside
  case held => exact shows.held
  case room =>
    intro _
    have count := ((p.log logstart nlog).absorb_n_le blockno).2
    simp only [Fslog.n] at count fits
    show ((p.log logstart nlog).absorb blockno).block.length < nlog
    omega

/-- Plain memory after the calls. -/
def Plain.after (logstart nlog : Nat) : Plain → List BufCache.Call → Plain
  | p, [] => p
  | p, call :: rest =>
    match p.step logstart nlog call with
    | none => p
    | some (_, next) => next.after logstart nlog rest

/-! The real machine and plain memory. -/

/-- The machine holds what plain memory shows, and `held` names the buffers of the held blocks. -/
def Follows (logstart nlog : Nat) (p : Plain) (held : List (Nat × Handle)) (s : CacheMachine) : Prop :=
  ∃ m, Sim s m (held.lookup ·) ∧ Shows logstart nlog p m.view ∧ ∀ blockno, blockno ∈ p.held ↔ ∃ b, held.lookup blockno = some b

section
variable {s : CacheMachine} {held : List (Nat × Handle)} {blockno : Nat} {b : Handle}

private theorem lookup_cons : (((blockno, b) :: held).lookup ·) = Function.update (held.lookup ·) blockno (some b) := by
  funext other
  by_cases same : other = blockno
  · subst same
    simp
  · have unlike : (other == blockno) = false := beq_false_of_ne same
    simp [List.lookup_cons, unlike, Function.update_of_ne same]

private theorem lookup_filter :
    ((held.filter (·.1 != blockno)).lookup ·) = Function.update (held.lookup ·) blockno none := by
  funext other
  induction held with
  | nil => simp [Function.update_apply]
  | cons pair held ih =>
    obtain ⟨key, value⟩ := pair
    by_cases gone : key = blockno
    · subst gone
      rw [List.filter_cons_of_neg (by simp), ih]
      by_cases same : other = key
      · subst same
        simp
      · simp [Function.update_of_ne same, List.lookup_cons, beq_false_of_ne same]
    · rw [List.filter_cons_of_pos (by simpa using gone), List.lookup_cons, ih]
      by_cases same : other = blockno
      · subst same
        simp [beq_false_of_ne (Ne.symm gone)]
      · simp only [Function.update_of_ne same, List.lookup_cons]

theorem Follows.beginOp {returned : List Block} {next : Plain} (follows : Follows logstart nlog p held s)
    (step : p.step logstart nlog .beginOp = some (returned, next)) :
    returned = [] ∧ Ensures BufCache.beginOp s (fun _ after => Follows logstart nlog next held after) Stuck := by
  obtain ⟨m, sim, shows, named⟩ := follows
  simp only [Plain.step] at step
  split at step
  case isFalse => cases step
  case isTrue admits =>
    obtain ⟨rfl, rfl⟩ := Prod.mk.inj (Option.some.inj step)
    have log : s.log = p.log logstart nlog := sim.log.trans shows.log
    have ran : BufCache.beginOp s = (.ok (), { s with log := { s.log with outstanding := s.log.outstanding + 1 } }) := by
      simp [BufCache.beginOp, bind_apply, log, admits]
    refine ⟨rfl, (ensures_of_ok ran).mpr ?_⟩
    refine ⟨{ m with log := { m.log with outstanding := m.log.outstanding + 1 } }, ?_, ?_, named⟩
    · exact ⟨sim.serves, sim.disk, by rw [sim.log], sim.written⟩
    · have count : m.log.outstanding = p.outstanding := by
        rw [show m.log = _ from shows.log]
        rfl
      have moved := shows.setOutstanding (p.outstanding + 1)
      have seen : (m.log.outstanding + 1 : Int) = ((p.outstanding + 1 : Nat) : Int) := by omega
      rw [seen]
      exact moved

theorem Follows.endOp (clock : Nat → BitVec 64) {returned : List Block} {next : Plain} (follows : Follows logstart nlog p held s)
    (step : p.step logstart nlog .endOp = some (returned, next)) :
    returned = [] ∧ Ensures (BufCache.endOp clock) s (fun _ after => Follows logstart nlog next held after) Stuck := by
  obtain ⟨m, sim, shows, named⟩ := follows
  have log : m.log = p.log logstart nlog := shows.log
  have idle : m.view.log.committing = false := by rw [shows.log]; rfl
  have ended : ∀ {outstanding : Nat}, p.outstanding = outstanding + 1 →
      m.view.log.ended = { m.view.log with outstanding := outstanding } := fun count => by
    rw [shows.log]
    simp [Fslog.ended, Plain.log, count]
  simp only [Plain.step] at step
  split at step
  case isTrue => cases step
  case isFalse open_ =>
  split at step
  case isFalse more =>
    obtain ⟨rfl, rfl⟩ := Prod.mk.inj (Option.some.inj step)
    have count : p.outstanding = (p.outstanding - 1) + 1 := by omega
    have lasting : m.view.log.ended.outstanding ≠ 0 := by
      rw [ended count]
      show ((p.outstanding - 1 : Nat) : Int) ≠ 0
      omega
    have refines := endOp_refines clock sim idle fun last _ => absurd last lasting
    refine ⟨rfl, (refines.leads fun recycled => endOp_leads_other recycled rfl idle lasting).weaken ?_⟩
    rintro _ after ⟨m', sim', seen⟩
    refine ⟨m', sim', ?_, named⟩
    rw [seen, ended count]
    exact shows.setOutstanding _
  case isTrue last =>
    have closes : m.view.log.ended.outstanding = 0 := by rw [ended (by omega : p.outstanding = 0 + 1)]; rfl
    split at step
    case isFalse => cases step
    case isTrue free =>
    obtain ⟨rfl, rfl⟩ := Prod.mk.inj (Option.some.inj step)
    have block : m.view.log.block = p.logged := by rw [shows.log]; rfl
    have start : m.view.log.start = logstart := by rw [shows.log]; rfl
    have outside : p.logged ≠ [] → ∀ blockno ∈ m.view.log.block,
        OutsideLog m.view.log.start (m.view.log.n + 1) blockno := fun some => by
      rw [Fslog.n, block, start]
      exact fun blockno listed => (shows.logged blockno listed).mono (shows.room some)
    have distinct : m.view.log.block.Nodup := by rw [block]; exact shows.distinct
    have pinned : ∀ blockno ∈ m.view.log.block, 0 < m.view.refs blockno := by
      rw [block]
      intro blockno listed
      rw [shows.refs blockno (shows.logged blockno listed), Plain.refs, if_pos listed]
      omega
    have nobody : ∀ blockno, blockno ∉ p.held → held.lookup blockno = none := fun blockno away => by
      cases found : held.lookup blockno with
      | none => rfl
      | some b => exact absurd ((named blockno).mpr ⟨b, found⟩) away
    have refines := endOp_refines clock sim idle fun _ some => by
      have listed : p.logged ≠ [] := fun none => by simp [Fslog.n, log, Plain.log, none] at some
      refine ⟨outside listed, distinct, pinned, ?_, fun index low => nobody _ fun taken => ?_⟩
      · intro blockno inside
        refine nobody blockno fun taken => free blockno taken ?_
        rwa [← block]
      · have away := shows.held _ taken
        have room := shows.room listed
        have size : m.log.n = p.logged.length := congrArg List.length block
        rw [show m.log.start = logstart from start] at away
        simp only [OutsideLog] at away
        omega
    by_cases nothing : p.logged = []
    · refine ⟨rfl, (refines.leads fun recycled =>
        endOp_leads_empty recycled rfl idle closes (block.trans nothing)).weaken ?_⟩
      rintro _ after ⟨m', sim', seen⟩
      refine ⟨m', sim', ?_, named⟩
      have same : ({ p with outstanding := 0, logged := [] } : Plain) = { p with outstanding := 0 } := by rw [nothing]
      rw [seen, ended (by omega : p.outstanding = 0 + 1), same]
      exact shows.setOutstanding 0
    · refine ⟨rfl, (refines.leads fun recycled => endOp_leads_commit recycled rfl shows.clean idle closes
        (by rw [block]; exact nothing) (outside nothing) distinct pinned).weaken ?_⟩
      rintro _ after ⟨m', sim', seen⟩
      refine ⟨m', sim', ?_, named⟩
      rw [seen, ended (by omega : p.outstanding = 0 + 1)]
      exact shows.commit nothing

theorem Follows.loggedRead {returned : List Block} {next : Plain} (follows : Follows logstart nlog p held s)
    (step : p.step logstart nlog (.loggedRead blockno) = some (returned, next)) :
    Ensures (BufCache.bread blockno) s (fun b after =>
      Follows logstart nlog next ((blockno, b) :: held) after ∧ returned = [(after.bcache.buf b).data]) Stuck := by
  obtain ⟨m, sim, shows, named⟩ := follows
  simp only [Plain.step] at step
  split at step
  case isFalse => cases step
  case isTrue readable =>
  obtain ⟨outside, unheld⟩ := readable
  obtain ⟨rfl, rfl⟩ := Prod.mk.inj (Option.some.inj step)
  have free : held.lookup blockno = none := by
    cases found : held.lookup blockno with
    | none => rfl
    | some b => exact absurd ((named blockno).mpr ⟨b, found⟩) unheld
  refine ((bread_refines sim free).leads fun recycled => bread_leads recycled shows.clean blockno).weaken ?_
  rintro b after ⟨m', ⟨sim', read, _⟩, seen⟩
  refine ⟨⟨m', ?_, ?_, fun other => ?_⟩, ?_⟩
  · rw [lookup_cons]
    exact sim'
  · rw [seen]
    exact shows.hold outside unheld
  · have both := congrFun (@lookup_cons held blockno b) other
    rw [both]
    by_cases same : other = blockno
    · subst same
      simp
    · simp [same, named]
  · rw [← read, ← shows.contents blockno outside]

theorem Follows.loggedWrite {returned : List Block} {next : Plain} {data : Block} (follows : Follows logstart nlog p held s)
    (step : p.step logstart nlog (.loggedWrite blockno data) = some (returned, next)) :
    returned = [] ∧ ∃ b, held.lookup blockno = some b ∧ Ensures (do
        BufCache.setData b data
        BufCache.loggedWrite b) s (fun _ after => Follows logstart nlog next held after) Stuck := by
  obtain ⟨m, sim, shows, named⟩ := follows
  simp only [Plain.step] at step
  split at step
  case isFalse => cases step
  case isTrue writable =>
  obtain ⟨taken, inside, room⟩ := writable
  obtain ⟨rfl, rfl⟩ := Prod.mk.inj (Option.some.inj step)
  obtain ⟨b, out⟩ := (named blockno).mp taken
  refine ⟨rfl, b, out, ?_⟩
  have log : m.log = p.log logstart nlog := shows.log
  have roomy : m.log.tooBig = false := by rw [log]; exact room
  have begun : ¬ m.log.outstanding < 1 := by
    rw [log]
    show ¬ ((p.outstanding : Nat) : Int) < 1
    omega
  have counted : 0 < m.view.refs blockno := by
    rw [shows.refs blockno (shows.held blockno taken), Plain.refs, if_pos taken]
    omega
  have refines := Refines.bind (setData_refines sim out data) fun _ _ s₁ m₁ ⟨sim₁, _, _, log₁⟩ =>
    loggedWrite_refines sim₁ out (by rw [log₁]; exact roomy) (by rw [log₁]; exact begun)
  refine (refines.leads fun recycled => Leads.bind (setData_leads counted data) fun m₁ seen₁ =>
    loggedWrite_leads seen₁ counted roomy begun).weaken ?_
  rintro _ after ⟨m', sim', seen⟩
  refine ⟨m', sim', ?_, named⟩
  rw [seen]
  exact shows.write taken room data

theorem Follows.loggedRelse (clock : Nat → BitVec 64) {returned : List Block} {next : Plain}
    (follows : Follows logstart nlog p held s)
    (step : p.step logstart nlog (.loggedRelse blockno) = some (returned, next)) :
    returned = [] ∧ ∃ b, held.lookup blockno = some b ∧ Ensures (BufCache.brelse clock b) s
      (fun _ after => Follows logstart nlog next (held.filter (·.1 != blockno)) after) Stuck := by
  obtain ⟨m, sim, shows, named⟩ := follows
  simp only [Plain.step] at step
  split at step
  case isFalse => cases step
  case isTrue taken =>
  obtain ⟨rfl, rfl⟩ := Prod.mk.inj (Option.some.inj step)
  obtain ⟨b, out⟩ := (named blockno).mp taken
  refine ⟨rfl, b, out, ?_⟩
  have counted : 0 < m.view.refs blockno := by
    rw [shows.refs blockno (shows.held blockno taken), Plain.refs, if_pos taken]
    omega
  refine ((brelse_refines clock sim out).leads fun _ => bunpin_leads counted).weaken ?_
  rintro _ after ⟨m', ⟨sim', _⟩, seen⟩
  refine ⟨m', ?_, ?_, fun other => ?_⟩
  · rw [lookup_filter]
    exact sim'
  · rw [seen]
    exact shows.release taken
  · have both := congrFun (@lookup_filter held blockno) other
    rw [both]
    by_cases same : other = blockno
    · subst same
      simp
    · simp [same, named]

theorem run_follows (clock : Nat → BitVec 64) {calls : List BufCache.Call} {outputs : List Block}
    (follows : Follows logstart nlog p held s) (plain : p.run logstart nlog calls = some outputs) :
    Ensures (BufCache.run clock held calls) s
      (fun result after => result = outputs ∧ ∃ held', Follows logstart nlog (p.after logstart nlog calls) held' after) Stuck := by
  induction calls generalizing p held s outputs with
  | nil => exact (ensures_pure _).mpr ⟨Option.some.inj plain, held, follows⟩
  | cons call rest ih =>
    rw [Plain.run] at plain
    cases step : p.step logstart nlog call with
    | none => simp [step] at plain
    | some pair =>
      obtain ⟨returned, next⟩ := pair
      simp only [step] at plain
      obtain ⟨others, later, rfl⟩ := Option.map_eq_some_iff.mp plain
      simp only [Plain.after, step]
      cases call with
      | beginOp =>
        obtain ⟨rfl, ran⟩ := follows.beginOp step
        exact Ensures.bind ran fun _ after follows' => ih follows' later
      | endOp =>
        obtain ⟨rfl, ran⟩ := follows.endOp clock step
        exact Ensures.bind ran fun _ after follows' => ih follows' later
      | loggedRead blockno =>
        refine Ensures.bind (follows.loggedRead step) fun b after ⟨follows', read⟩ => ?_
        have found : BufCache.data b after = (.ok (after.bcache.buf b).data, after) := rfl
        rw [ensures_bind, ensures_of_ok found]
        refine Ensures.bind (ih follows' later) fun result after' ⟨same, final⟩ => ?_
        rw [ensures_pure, read, same]
        exact ⟨rfl, final⟩
      | loggedWrite blockno data =>
        obtain ⟨rfl, b, out, ran⟩ := follows.loggedWrite step
        simp only [BufCache.run, out]
        rw [ensures_bind] at ran ⊢
        exact ran.weaken fun _ after wrote => Ensures.bind wrote fun _ after' follows' => ih follows' later
      | loggedRelse blockno =>
        obtain ⟨rfl, b, out, ran⟩ := follows.loggedRelse clock step
        simp only [BufCache.run, out]
        exact Ensures.bind ran fun _ after follows' => ih follows' later

end

/-- What `log_init` shows of a device. -/
theorem recoverFromLog_follows (clock : Nat → BitVec 64) {disk image : Nat → Block} (room : 0 < nlog)
    (device : Recoverable logstart nlog disk image) :
    Ensures (BufCache.recoverFromLog clock) (CacheMachine.boot logstart nlog disk)
      (fun _ after => Follows logstart nlog (Plain.start image) [] after) Stuck := by
  let m := Machine.boot logstart nlog disk
  have view : m.view = { disk, contents := disk, refs := fun _ => 0, log := Fslog.init logstart nlog, written := [] } := rfl
  have clean : m.view.Clean := fun _ _ => rfl
  have outside : ∀ blockno ∈ headerBlocks (disk logstart),
      OutsideLog logstart ((headerBlocks (disk logstart)).length + 1) blockno :=
    fun blockno listed => (device.outside blockno listed).mono (device.room (List.ne_nil_of_mem listed))
  have refines := recoverFromLog_refines clock (Sim.boot logstart nlog disk) clean device.count outside device.distinct
  refine (refines.leads fun recycled => recoverFromLog_leads recycled rfl clean device.count outside device.distinct).weaken ?_
  rintro _ after ⟨m', sim', seen⟩
  refine ⟨m', sim', ?_, by simp [Plain.start]⟩
  rw [seen, view]
  constructor
  case settled => exact fun _ _ => rfl
  case log => rfl
  case contents =>
    intro blockno away
    have agrees := device.agrees blockno away
    have written : applyWrites disk (recoverWrites logstart disk) blockno = image blockno := by
      rw [recoverWrites, applyWrites_append, applyWrites_singleton, Function.update_of_ne (outside_start room away), agrees]
    simpa only [CacheView.withLog_contents, CacheView.writes, Fslog.init, Plain.start] using written
  case refs => exact fun blockno away => by simp [Plain.refs, Plain.start, CacheView.withLog]
  case distinct => exact List.nodup_nil
  case logged => simp [Plain.start]
  case held => simp [Plain.start]
  case room => simp [Plain.start]

/-- From mounting on, every read returns what plain memory returns, unless every buffer is referenced. -/
theorem cache_transparent (clock : Nat → BitVec 64) {disk image : Nat → Block} {calls : List BufCache.Call}
    {outputs : List Block} (room : 0 < nlog) (device : Recoverable logstart nlog disk image)
    (plain : (Plain.start image).run logstart nlog calls = some outputs) :
    Ensures (BufCache.mounted clock calls) (CacheMachine.boot logstart nlog disk) (fun result _ => result = outputs) Stuck :=
  Ensures.bind (recoverFromLog_follows clock room device) fun _ _ follows =>
    (run_follows clock follows plain).weaken fun _ _ done => done.1

/-- A block written and committed, another read, and the first one read again. -/
theorem cache_transparent_commit : 0 < 10 ∧ Recoverable 1 10 (fun _ => Bytes.zero) (fun _ => Bytes.zero) ∧
    (Plain.start fun _ => Bytes.zero).run 1 10
      [.beginOp, .loggedRead 40, .loggedWrite 40 (Bytes.zero.setField 0 1 7), .loggedRelse 40, .endOp,
        .loggedRead 69, .loggedRead 40] = some [Bytes.zero, Bytes.zero, Bytes.zero.setField 0 1 7] ∧
    Ensures (BufCache.mounted (fun now => BitVec.ofNat 64 now)
      [.beginOp, .loggedRead 40, .loggedWrite 40 (Bytes.zero.setField 0 1 7), .loggedRelse 40, .endOp,
        .loggedRead 69, .loggedRead 40]) (CacheMachine.boot 1 10 fun _ => Bytes.zero)
      (fun result _ => result = [Bytes.zero, Bytes.zero, Bytes.zero.setField 0 1 7]) Stuck := by
  have room : 0 < 10 := by decide
  have device : Recoverable 1 10 (fun _ => Bytes.zero) (fun _ => Bytes.zero) :=
    recoverable_of_empty (by decide) fun _ _ => rfl
  have plain : (Plain.start fun _ => Bytes.zero).run 1 10
      [.beginOp, .loggedRead 40, .loggedWrite 40 (Bytes.zero.setField 0 1 7), .loggedRelse 40, .endOp,
        .loggedRead 69, .loggedRead 40] = some [Bytes.zero, Bytes.zero, Bytes.zero.setField 0 1 7] := rfl
  exact ⟨room, device, plain, cache_transparent _ room device plain⟩

end Myfuse
