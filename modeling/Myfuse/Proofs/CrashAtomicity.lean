import Myfuse.Proofs.LogRecovery

/-! Crash atomicity of the log: over any run of its calls, a crash at any raw
write and any number of interrupted recoveries. -/

namespace Myfuse
open Library Library.Exec

/-! What the calls ask for, in terms of transactions alone. -/

/-- The finished group transactions, the writes of the open one and its depth. -/
structure Groups where
  closed : List (List (Nat × Block))
  current : List (Nat × Block)
  depth : Int

namespace Groups

def start : Groups := ⟨[], [], 0⟩

/-- The last `end_op` closes the group; a group without writes is no transaction. -/
def step (groups : Groups) : LogAction → Groups
  | .beginOp => { groups with depth := groups.depth + 1 }
  | .endOp =>
    if groups.depth - 1 = 0 ∧ groups.current ≠ [] then ⟨groups.closed ++ [groups.current], [], groups.depth - 1⟩
    else { groups with depth := groups.depth - 1 }
  | .read _ => groups
  | .write blockno data => { groups with current := groups.current ++ [(blockno, data)] }

def run (groups : Groups) (actions : List LogAction) : Groups := actions.foldl step groups

/-- The contents after the first `count` transactions. -/
def image (disk : Nat → Block) (groups : Groups) (count : Nat) : Nat → Block :=
  applyWrites disk (groups.closed.take count).flatten

/-- Later calls only add transactions. -/
theorem closed_run (groups : Groups) (actions : List LogAction) :
    groups.closed <+: (groups.run actions).closed := by
  induction actions generalizing groups with
  | nil => exact List.prefix_refl _
  | cons action actions ih =>
    refine List.IsPrefix.trans ?_ (ih (groups.step action))
    cases action with
    | endOp =>
      simp only [step]
      split
      · exact List.prefix_append _ _
      · exact List.prefix_refl _
    | _ => exact List.prefix_refl _

theorem image_run (disk : Nat → Block) (groups : Groups) (actions : List LogAction) {count : Nat}
    (early : count ≤ groups.closed.length) : (groups.run actions).image disk count = groups.image disk count := by
  obtain ⟨later, same⟩ := groups.closed_run actions
  rw [image, ← same, List.take_append_of_le_length early, image]

end Groups

/-! The invariant between two calls. -/

/-- Every crash so far leaves a disk that recovers to the transactions whose header is out. -/
structure CrashSafe (logstart nlog : Nat) (disk : Nat → Block) (groups : Groups) (written : List (Nat × Block)) :
    Prop where
  all : commits logstart written = groups.closed.length
  crash : ∀ count, Recoverable logstart nlog (applyWrites disk (written.take count))
    (groups.image disk (commits logstart (written.take count)))

/-- Where the log stands between two calls. -/
structure LogInvariant (logstart nlog : Nat) (disk : Nat → Block) (groups : Groups) (v : CacheView) : Prop where
  started : v.log.start = logstart
  sized : v.log.size = (Fslog.init logstart nlog).size
  idle : v.log.committing = false
  depth : v.log.outstanding = groups.depth
  clean : v.Clean
  distinct : v.log.block.Nodup
  outside : ∀ block ∈ v.log.block, OutsideLog logstart nlog block
  small : ∀ block ∈ v.log.block, block < 2 ^ 32
  fits : v.log.n ≤ NLOG
  room : v.log.block ≠ [] → v.log.n < nlog
  pinned : ∀ block ∈ v.log.block, 0 < v.refs block
  listed : ∀ block, block ∈ v.log.block ↔ block ∈ groups.current.map Prod.fst
  unlisted : ∀ block ∉ v.log.block, v.contents block = v.disk block
  empty : headerN (v.disk logstart) ≤ 0
  history : v.disk = applyWrites disk v.written
  settled : ∀ block, OutsideLog logstart nlog block →
    v.disk block = applyWrites disk groups.closed.flatten block
  pending : ∀ block, OutsideLog logstart nlog block →
    v.contents block = applyWrites (applyWrites disk groups.closed.flatten) groups.current block
  safe : CrashSafe logstart nlog disk groups v.written

variable {logstart nlog : Nat} {disk : Nat → Block} {groups : Groups} {v : CacheView}

/-- Nothing written, nothing lost. -/
theorem CrashSafe.of_closed {written : List (Nat × Block)} {other : Groups}
    (safe : CrashSafe logstart nlog disk groups written) (same : other.closed = groups.closed) :
    CrashSafe logstart nlog disk other written := by
  refine ⟨by rw [safe.all, same], fun count => ?_⟩
  have kept := safe.crash count
  rwa [Groups.image, ← same] at kept

section
variable {blocks : List Nat} {contents : Nat → Block} {written : List (Nat × Block)}

theorem image_all (disk : Nat → Block) (groups : Groups) :
    groups.image disk groups.closed.length = applyWrites disk groups.closed.flatten := by
  rw [Groups.image, List.take_length]

/-- A whole commit keeps the run crash safe, with one more transaction. -/
theorem CrashSafe.commit (safe : CrashSafe logstart nlog disk groups written)
    (some : blocks ≠ []) (room : blocks.length < nlog) (fits : blocks.length ≤ NLOG)
    (small : ∀ block ∈ blocks, block < 2 ^ 32) (distinct : blocks.Nodup)
    (outside : ∀ block ∈ blocks, OutsideLog logstart nlog block)
    (empty : headerN (applyWrites disk written logstart) ≤ 0) {next : Groups} {current : List (Nat × Block)}
    (closed : next.closed = groups.closed ++ [current])
    (settled : ∀ block, OutsideLog logstart nlog block →
      applyWrites disk written block = applyWrites disk groups.closed.flatten block)
    (installed : ∀ block, OutsideLog logstart nlog block →
      applyWrites (applyWrites disk written) (blocks.map fun block => (block, contents block)) block =
        applyWrites disk next.closed.flatten block) :
    CrashSafe logstart nlog disk next (written ++ commitWrites logstart blocks contents) := by
  have length : next.closed.length = groups.closed.length + 1 := by simp [closed]
  have earlier : ∀ count ≤ groups.closed.length, next.image disk count = groups.image disk count := by
    intro count early
    rw [Groups.image, closed, List.take_append_of_le_length early, Groups.image]
  constructor
  · have whole : commits logstart ((commitWrites logstart blocks contents).take _) = _ :=
      commits_commit room fits outside some (commitWrites logstart blocks contents).length
    rw [List.take_length, if_neg (by simp [commitWrites])] at whole
    rw [commits_append, safe.all, whole, length]
  · intro count
    rcases Nat.le_total count written.length with early | late
    · rw [List.take_append_of_le_length early]
      have before := safe.crash count
      rwa [← earlier _ (by rw [← safe.all]; exact (List.take_sublist _ _).countP_le)] at before
    · obtain ⟨crash, rfl⟩ : ∃ crash, count = written.length + crash := ⟨count - written.length, by omega⟩
      rw [List.take_length_add_append, applyWrites_append, commits_append, safe.all,
        commits_commit room fits outside some crash]
      have prefixed : Recoverable logstart nlog (applyWrites _ ((commitWrites logstart blocks contents).take crash)) _ :=
        recoverable_commit room fits small distinct outside empty crash
      refine ⟨prefixed.count, prefixed.distinct, prefixed.outside, prefixed.room, fun block apart => ?_⟩
      rw [prefixed.agrees block apart, commitImage]
      split
      · rw [Nat.add_zero, earlier _ (Nat.le_refl _), image_all]
        exact settled block apart
      · rw [← length, image_all]
        exact installed block apart

end

/-- Writing the listed blocks home leaves what the writes of the group leave. -/
theorem applyWrites_listed {current : List (Nat × Block)} {base contents : Nat → Block} {blocks : List Nat}
    (distinct : blocks.Nodup) (listed : ∀ block, block ∈ blocks ↔ block ∈ current.map Prod.fst) {block : Nat}
    (pending : contents block = applyWrites base current block) :
    applyWrites base (blocks.map fun block => (block, contents block)) block = applyWrites base current block := by
  by_cases inside : block ∈ blocks
  · rw [applyWrites_mem base (by simpa [Function.comp_def] using distinct) (List.mem_map.mpr ⟨block, inside, rfl⟩), pending]
  · rw [applyWrites_other _ fun write member same => ?_, applyWrites_other _ fun write member same => ?_]
    · exact inside ((listed block).mpr (List.mem_map.mpr ⟨write, member, same⟩))
    · obtain ⟨other, here, rfl⟩ := List.mem_map.mp member
      exact inside (same ▸ here)

/-! One call at a time. -/

/-- A call either returns with the invariant for the new groups, or it stops
without a raw write. -/
def Advances (logstart nlog : Nat) (disk : Nat → Block) (groups next : Groups) (program : LogM Unit) : Prop :=
  ∀ m, LogInvariant logstart nlog disk groups m.view →
    Ensures program m (fun _ after => LogInvariant logstart nlog disk next after.view)
      (fun _ after => after.written = m.written)

theorem beginOp_advances : Advances logstart nlog disk groups (groups.step .beginOp) beginOp := by
  intro m inv
  simp only [beginOp, ensures_bind, ensures_get]
  split
  · rw [ensures_modify]
    have depth : m.log.outstanding = groups.depth := inv.depth
    exact { inv with
      depth := congrArg (· + 1) depth
      safe := inv.safe.of_closed rfl }
  · exact (ensures_stop _).mpr rfl

section
variable (recycled : Nat → Nat → Bool)

theorem read_advances (blockno : Nat) :
    Advances logstart nlog disk groups (groups.step (.read blockno)) (act recycled (.read blockno)) := by
  intro m inv
  unfold act
  refine Leads.andThen (bread_leads recycled inv.clean blockno) fun after seen => ?_
  have held : 0 < after.view.refs blockno := by simp [seen, CacheView.hold]
  refine (bunpin_leads held).ensures ?_
  rw [seen, CacheView.release_hold]
  exact inv

/-- `end_op` of an operation that is not the last. -/
private theorem endOp_other (inv : LogInvariant logstart nlog disk groups v)
    (more : ¬ (groups.depth - 1 = 0 ∧ groups.current ≠ [])) :
    LogInvariant logstart nlog disk (groups.step .endOp)
      { v with log := { v.log with outstanding := v.log.outstanding - 1 } } := by
  simp only [Groups.step, if_neg more]
  have depth : v.log.outstanding = groups.depth := inv.depth
  exact { inv with
    depth := congrArg (· - 1) depth
    safe := inv.safe.of_closed rfl }

/-- The state a commit leaves. -/
private theorem committed (inv : LogInvariant logstart nlog disk groups v) (some : v.log.block ≠ []) {depth : Int}
    {after : CacheView} (diskIs : after.disk = applyWrites v.disk (commitWrites logstart v.log.block v.contents))
    (contentsAre : after.contents = applyWrites v.contents (commitWrites logstart v.log.block v.contents))
    (writtenIs : after.written = v.written ++ commitWrites logstart v.log.block v.contents)
    (logIs : after.log = { v.log with outstanding := depth, block := [] }) :
    LogInvariant logstart nlog disk ⟨groups.closed ++ [groups.current], [], depth⟩ after := by
  have room := inv.room some
  have started : 0 < nlog := by omega
  have base : ∀ block, OutsideLog logstart nlog block → v.contents block =
      applyWrites v.disk groups.current block := fun block apart => by
    rw [inv.pending block apart]
    exact applyWrites_congr (.inr (inv.settled block apart).symm)
  have homes : ∀ block, OutsideLog logstart nlog block →
      applyWrites v.disk (commitWrites logstart v.log.block v.contents) block =
        applyWrites disk (groups.closed ++ [groups.current]).flatten block := fun block apart => by
    have last : Recoverable logstart nlog (applyWrites v.disk ((commitWrites logstart v.log.block v.contents).take _)) _ :=
      recoverable_commit room inv.fits inv.small inv.distinct inv.outside inv.empty
        (commitWrites logstart v.log.block v.contents).length
    rw [List.take_length] at last
    have image := last.agrees block apart
    have cleared : headerBlocks (applyWrites v.disk (commitWrites logstart v.log.block v.contents) logstart) = [] := by
      refine headerBlocks_empty ?_
      rw [commitWrites, applyWrites_append, applyWrites_cons, applyWrites_append, applyWrites_singleton,
        Function.update_self, headerN_putHeader _ (by simp)]
      simp
    rw [cleared, commitImage, if_neg (by simp [commitWrites])] at image
    rw [List.flatten_append, List.flatten_singleton, applyWrites_append]
    refine (image.trans (applyWrites_listed inv.distinct inv.listed (base block apart))).trans ?_
    exact applyWrites_congr (.inr (inv.settled block apart))
  have mirrored : ∀ block, applyWrites v.contents (commitWrites logstart v.log.block v.contents) block =
      applyWrites v.disk (commitWrites logstart v.log.block v.contents) block := fun block => by
    by_cases inside : block ∈ v.log.block
    · refine applyWrites_congr (.inl ?_)
      simp only [commitWrites, List.map_append, List.map_cons, List.map_map, List.mem_append, List.mem_cons]
      exact .inr (.inr (.inl (by simpa [Function.comp_def] using inside)))
    · exact applyWrites_congr (.inr (inv.unlisted block inside))
  have headerLast : headerN (applyWrites v.disk (commitWrites logstart v.log.block v.contents) logstart) ≤ 0 := by
    rw [commitWrites, applyWrites_append, applyWrites_cons, applyWrites_append, applyWrites_singleton,
      Function.update_self, headerN_putHeader _ (by simp)]
    simp
  have nothing : after.log.block = [] := by rw [logIs]
  constructor
  case started => rw [logIs]; exact inv.started
  case sized => rw [logIs]; exact inv.sized
  case idle => rw [logIs]; exact inv.idle
  case depth => rw [logIs]
  case clean => exact fun block _ => by rw [contentsAre, diskIs, mirrored]
  case distinct => rw [nothing]; exact List.nodup_nil
  case outside => simp [nothing]
  case small => simp [nothing]
  case fits => simp [Fslog.n, nothing]
  case room => simp [nothing]
  case pinned => simp [nothing]
  case listed => simp [nothing]
  case unlisted => exact fun block _ => by rw [contentsAre, diskIs, mirrored]
  case empty => rwa [diskIs]
  case history => rw [diskIs, writtenIs, applyWrites_append, ← inv.history]
  case settled => exact fun block apart => by rw [diskIs]; exact homes block apart
  case pending => exact fun block apart => by rw [contentsAre, mirrored, applyWrites_nil]; exact homes block apart
  case safe =>
    rw [writtenIs]
    have empty := inv.empty
    have settled := inv.settled
    rw [inv.history] at empty settled
    refine inv.safe.commit some room inv.fits inv.small inv.distinct inv.outside empty rfl settled fun block apart => ?_
    have listed := applyWrites_listed inv.distinct inv.listed (base block apart)
    rw [← inv.history, listed, List.flatten_append, List.flatten_singleton, applyWrites_append]
    exact applyWrites_congr (.inr (inv.settled block apart))

theorem modifyLog_leads {m : Machine} (change : Fslog → Fslog) (seen : m.view = v) :
    Leads (Exec.modify fun m => { m with log := change m.log }) m () { v with log := change v.log } :=
  modify_leads (by rw [← seen]; rfl)

theorem endOp_advances : Advances logstart nlog disk groups (groups.step .endOp) (endOp recycled) := by
  intro m inv
  have idle : m.log.committing = false := inv.idle
  have depth : m.log.outstanding = groups.depth := inv.depth
  unfold endOp
  rw [ensures_bind, ensures_modify, ensures_bind, ensures_get]
  rw [if_neg (by simp [idle])]
  by_cases last : m.log.outstanding - 1 = 0
  case neg =>
    rw [if_neg last, ensures_pure]
    exact endOp_other inv fun both => last (depth ▸ both.1)
  case pos =>
    rw [if_pos last, ensures_bind, ensures_modify, ensures_bind]
    -- The view at the call of `commit`.
    obtain ⟨v', called⟩ : ∃ v', v' = { m.view with
      log := { m.view.log with outstanding := m.view.log.outstanding - 1, committing := true } } := ⟨_, rfl⟩
    generalize start : ({ m with
      log := { m.log with outstanding := m.log.outstanding - 1, committing := true } } : Machine) = m₁
    have seen : m₁.view = v' := by rw [called, ← start]; rfl
    by_cases some : groups.current = []
    · have nothing : v'.log.block = [] := List.eq_nil_iff_forall_not_mem.mpr fun block inside => by
        have := (inv.listed block).mp (by rwa [called] at inside)
        simp [some] at this
      have none : m₁.log.n = 0 := by
        rw [show m₁.log = v'.log from congrArg CacheView.log seen, Fslog.n, nothing, List.length_nil]
      unfold commit
      rw [ensures_bind, ensures_get, if_neg (by omega), ensures_pure, ensures_modify, ← start]
      exact { endOp_other inv fun both => both.2 some with idle := rfl }
    · have listed : v'.log.block ≠ [] := fun none => by
        obtain ⟨write, rest, shape⟩ := List.exists_cons_of_ne_nil some
        have := (inv.listed write.1).mpr (by simp [shape])
        rw [called] at none
        exact absurd this (by rw [none]; exact List.not_mem_nil)
      have started : v'.log.start = logstart := by rw [called]; exact inv.started
      have apart : ∀ block ∈ v'.log.block, OutsideLog v'.log.start (v'.log.n + 1) block := by
        rw [started, called]
        exact fun block inside => (inv.outside block inside).mono (inv.room (List.ne_nil_of_mem inside))
      have whole := commit_leads recycled seen (called ▸ inv.clean) listed apart (called ▸ inv.distinct)
        (called ▸ inv.pinned)
      refine Ensures.mono whole (fun _ m₂ done => ?_) fun _ _ => False.elim
      have closes : groups.step .endOp = ⟨groups.closed ++ [groups.current], [], groups.depth - 1⟩ := by
        rw [Groups.step, if_pos ⟨depth ▸ last, some⟩]
      rw [closes]
      refine (modifyLog_leads (fun log => { log with committing := false }) done.2).ensures ?_
      have unlisted : m.view.log.block ≠ [] := by rwa [called] at listed
      have begun := inv.started
      refine committed inv unlisted ?_ ?_ ?_ ?_
      · simp [CacheView.withLog, CacheView.writes, called, begun]
      · simp [CacheView.withLog, CacheView.writes, called, begun]
      · simp [CacheView.withLog, CacheView.writes, called, begun]
      · have quiet := inv.idle
        have deep := inv.depth
        simp [CacheView.withLog, called, quiet, deep]

/-- The state a logged write leaves. -/
private theorem wrote (inv : LogInvariant logstart nlog disk groups v) {blockno : Nat}
    (outside : OutsideLog logstart nlog blockno) (small : blockno < 2 ^ 32) (data : Block) {after : CacheView}
    (room : v.log.n < NLOG ∧ v.log.n + 1 < nlog) (diskIs : after.disk = v.disk)
    (contentsAre : after.contents = Function.update v.contents blockno data) (writtenIs : after.written = v.written)
    (logIs : after.log = v.log.absorb blockno) (refs : ∀ block, v.refs block ≤ after.refs block)
    (pinned : 0 < after.refs blockno) :
    LogInvariant logstart nlog disk (groups.step (.write blockno data)) after := by
  have count := v.log.absorb_n_le blockno
  have member : ∀ block, block ∈ after.log.block ↔ block ∈ v.log.block ∨ block = blockno := by
    rw [logIs]
    exact v.log.mem_absorb blockno
  have kept : ∀ block ≠ blockno, after.contents block = v.contents block := fun block other => by
    rw [contentsAre, Function.update_of_ne other]
  constructor
  case started => rw [logIs, Fslog.absorb_start]; exact inv.started
  case sized => rw [logIs, Fslog.absorb_size]; exact inv.sized
  case idle => rw [logIs, Fslog.absorb_committing]; exact inv.idle
  case depth => rw [logIs, Fslog.absorb_outstanding]; exact inv.depth
  case clean =>
    intro block unreferenced
    by_cases same : block = blockno
    · subst same
      omega
    · rw [kept block same, diskIs]
      exact inv.clean block (Nat.le_zero.mp (unreferenced ▸ refs block))
  case distinct => rw [logIs]; exact Fslog.absorb_nodup inv.distinct blockno
  case outside =>
    intro block inside
    rcases (member block).mp inside with inside | rfl
    · exact inv.outside block inside
    · exact outside
  case small =>
    intro block inside
    rcases (member block).mp inside with inside | rfl
    · exact inv.small block inside
    · exact small
  case fits => rw [logIs]; omega
  case room => rw [logIs]; exact fun _ => by omega
  case pinned =>
    intro block inside
    rcases (member block).mp inside with inside | rfl
    · exact (inv.pinned block inside).trans_le (refs block)
    · exact pinned
  case listed =>
    intro block
    rw [member, inv.listed]
    simp [Groups.step]
  case unlisted =>
    intro block absent
    rw [member, not_or] at absent
    rw [kept block absent.2, diskIs]
    exact inv.unlisted block absent.1
  case empty => rw [diskIs]; exact inv.empty
  case history => rw [diskIs, writtenIs]; exact inv.history
  case settled => rw [diskIs]; exact inv.settled
  case pending =>
    intro block apart
    simp only [Groups.step, applyWrites_append, applyWrites_singleton]
    by_cases same : block = blockno
    · subst same
      rw [contentsAre, Function.update_self, Function.update_self]
    · rw [kept block same, Function.update_of_ne same]
      exact inv.pending block apart
  case safe =>
    rw [writtenIs]
    exact inv.safe.of_closed rfl

/-- The end of `logged_write` and the caller's `logged_relse`. -/
private theorem absorb_leads {m : Machine} {blockno : Nat} (seen : m.view = v) (held : 0 < v.refs blockno) :
    Leads (do
      Exec.modify fun m => { m with log := m.log.absorb blockno }
      brelse blockno) m () (CacheView.release { v with log := v.log.absorb blockno } blockno) := by
  refine Leads.bind (modifyLog_leads (Fslog.absorb · blockno) seen) fun after moved => ?_
  have still : 0 < after.view.refs blockno := by rwa [moved]
  have last := bunpin_leads still
  rwa [moved] at last

theorem write_advances {blockno : Nat} (outside : OutsideLog logstart nlog blockno) (small : blockno < 2 ^ 32)
    (data : Block) : Advances logstart nlog disk groups (groups.step (.write blockno data))
      (act recycled (.write blockno data)) := by
  intro m inv
  unfold act
  refine Leads.andThen (bread_leads recycled inv.clean blockno) fun m₁ seen₁ => ?_
  have held₁ : 0 < m₁.view.refs blockno := by simp [seen₁, CacheView.hold]
  refine Leads.andThen (setData_leads held₁ data) fun m₂ seen₂ => ?_
  rw [seen₁] at seen₂
  have written₂ : m₂.written = m.written := congrArg CacheView.written seen₂
  have log₂ : m₂.log = m.log := congrArg CacheView.log seen₂
  have held₂ : 0 < m₂.view.refs blockno := by simp [seen₂, CacheView.hold, CacheView.setData]
  rw [ensures_bind]
  unfold loggedWrite
  rw [ensures_bind, ensures_get, log₂]
  split
  · exact (ensures_stop _).mpr written₂
  split
  · exact (ensures_stop _).mpr written₂
  next full _ =>
    have room := Fslog.room_of_not_tooBig inv.sized (Bool.not_eq_true _ ▸ full)
    split
    next listed =>
      refine ensures_bind.mp ((absorb_leads seen₂ (seen₂ ▸ held₂)).ensures ?_)
      refine wrote inv outside small data room rfl rfl rfl rfl (fun block => ?_) ?_
      · simp [CacheView.setData, CacheView.hold, CacheView.release]
      · simpa [CacheView.setData, CacheView.hold, CacheView.release] using inv.pinned blockno listed
    next absent =>
      refine Leads.andThen (bpin_leads held₂) fun m₃ seen₃ => ?_
      rw [seen₂] at seen₃
      refine ensures_bind.mp ((absorb_leads seen₃ (by simp [CacheView.hold])).ensures ?_)
      refine wrote inv outside small data room rfl rfl rfl rfl (fun block => ?_) ?_
      · by_cases same : block = blockno <;> simp [CacheView.setData, CacheView.hold, CacheView.release, same]
      · simp [CacheView.setData, CacheView.hold, CacheView.release]

/-! Whole runs. -/

theorem act_advances (action : LogAction)
    (valid : ∀ blockno data, action = .write blockno data → OutsideLog logstart nlog blockno ∧ blockno < 2 ^ 32) :
    Advances logstart nlog disk groups (groups.step action) (act recycled action) := by
  cases action with
  | beginOp => exact beginOp_advances
  | endOp => exact endOp_advances recycled
  | read blockno => exact read_advances recycled blockno
  | write blockno data =>
    obtain ⟨outside, small⟩ := valid blockno data rfl
    exact write_advances recycled outside small data

/-- The actions write only outside the log region, to block numbers an on-disk `uint` can hold. -/
def WritesOutside (logstart nlog : Nat) (actions : List LogAction) : Prop :=
  ∀ blockno data, .write blockno data ∈ actions → OutsideLog logstart nlog blockno ∧ blockno < 2 ^ 32

/-- However a run ends, its raw writes are crash safe for some first transactions. -/
def RunSafe (logstart nlog : Nat) (disk : Nat → Block) (groups : Groups) (written : List (Nat × Block)) : Prop :=
  ∀ count, Recoverable logstart nlog (applyWrites disk (written.take count))
    (groups.image disk (commits logstart (written.take count)))

theorem CrashSafe.runSafe {written : List (Nat × Block)} (safe : CrashSafe logstart nlog disk groups written)
    (actions : List LogAction) : RunSafe logstart nlog disk (groups.run actions) written := by
  intro count
  have early : commits logstart (written.take count) ≤ groups.closed.length := by
    rw [← safe.all]
    exact (List.take_sublist _ _).countP_le
  rw [groups.image_run disk actions early]
  exact safe.crash count

theorem runActions_safe (actions : List LogAction) (valid : WritesOutside logstart nlog actions) (m : Machine)
    (inv : LogInvariant logstart nlog disk groups m.view) :
    Ensures (runActions recycled actions) m
      (fun _ after => RunSafe logstart nlog disk (groups.run actions) after.written)
      (fun _ after => RunSafe logstart nlog disk (groups.run actions) after.written) := by
  induction actions generalizing m groups with
  | nil => exact (ensures_pure _).mpr (inv.safe.runSafe [])
  | cons action rest ih =>
    unfold runActions
    refine ensures_bind.mpr ?_
    refine (act_advances recycled action (fun blockno data same => valid blockno data ?_) m inv).mono ?_ ?_
    · exact same ▸ List.mem_cons_self
    · intro _ after next
      exact ih (fun blockno data member => valid blockno data (List.mem_cons_of_mem _ member)) after next
    · intro _ after same
      rw [same]
      exact inv.safe.runSafe (action :: rest)

/-- What a recovery does with a disk that recovers to an image. -/
theorem recover_leads (recoverable : Recoverable logstart nlog disk image) :
    ∃ v, Leads (recoverFromLog recycled) (Machine.boot logstart nlog disk) () v ∧
      v.disk = applyWrites disk (recoverWrites logstart disk) ∧
      v.contents = applyWrites disk (recoverWrites logstart disk) ∧
      v.written = recoverWrites logstart disk ∧ v.refs = (fun _ => 0) ∧
      v.log = Fslog.init logstart nlog := by
  have apart : ∀ block ∈ headerBlocks (disk logstart),
      OutsideLog logstart ((headerBlocks (disk logstart)).length + 1) block := fun block inside =>
    (recoverable.outside block inside).mono (recoverable.room (List.ne_nil_of_mem inside))
  obtain ⟨v, seen⟩ : ∃ v, (Machine.boot logstart nlog disk).view = v := ⟨_, rfl⟩
  have started : v.log.start = logstart := by rw [← seen]; rfl
  have diskIs : v.disk = disk := by rw [← seen]; rfl
  have contentsAre : v.contents = disk := by rw [← seen]; rfl
  have refsAre : v.refs = fun _ => 0 := by rw [← seen]; rfl
  have logIs : v.log = Fslog.init logstart nlog := by rw [← seen]; rfl
  have writtenIs : v.written = [] := by rw [← seen]; rfl
  have leads := recoverFromLog_leads recycled seen (fun _ _ => by rw [contentsAre, diskIs])
    (by rw [contentsAre, started]; exact recoverable.count) (by rw [contentsAre, started]; exact apart)
    (by rw [contentsAre, started]; exact recoverable.distinct)
  rw [contentsAre, started] at leads
  refine ⟨_, leads, ?_, ?_, ?_, ?_, ?_⟩
  · simp only [CacheView.withLog, CacheView.writes, diskIs]
  · simp only [CacheView.withLog, CacheView.writes, contentsAre]
  · simp only [CacheView.withLog, CacheView.writes, writtenIs, List.nil_append]
  · simp only [CacheView.withLog, CacheView.writes, refsAre]
  · simp only [CacheView.withLog, CacheView.writes, logIs]
    rfl

theorem logRun_safe (actions : List LogAction) (valid : WritesOutside logstart nlog actions) (room : 0 < nlog)
    (empty : headerN (disk logstart) = 0) :
    RunSafe logstart nlog disk (Groups.start.run actions)
      (logRun recycled actions (Machine.boot logstart nlog disk)).2.written := by
  have recoverable : Recoverable logstart nlog disk disk := recoverable_of_empty empty.le fun _ _ => rfl
  obtain ⟨v, leads, diskIs, contentsAre, writtenIs, refsAre, logIs⟩ := recover_leads recycled recoverable
  have nothing : headerBlocks (disk logstart) = [] := headerBlocks_empty empty.le
  have cleared : recoverWrites logstart disk = [(logstart, putHeader (disk logstart) [])] := by
    rw [recoverWrites, nothing]
    rfl
  have cleared_empty : headerN (putHeader (disk logstart) []) ≤ 0 := by
    rw [headerN_putHeader _ (by simp)]
    simp
  have untouched : ∀ block, OutsideLog logstart nlog block →
      applyWrites disk (recoverWrites logstart disk) block = disk block := fun block apart => by
    rw [cleared, applyWrites_singleton, Function.update_of_ne (outside_start room apart)]
  have none : ∀ count, commits logstart ((recoverWrites logstart disk).take count) = 0 := fun count => by
    refine List.countP_eq_zero.mpr fun write member => ?_
    rw [cleared] at member
    rw [List.mem_singleton.mp (List.mem_of_mem_take member)]
    simp [cleared_empty]
  have safe : CrashSafe logstart nlog disk Groups.start (recoverWrites logstart disk) := by
    refine ⟨?_, fun count => ?_⟩
    · have all := none (recoverWrites logstart disk).length
      rwa [List.take_length] at all
    · rw [none]
      exact recoverable.interrupted room count
  have inv : LogInvariant logstart nlog disk Groups.start v := by
    constructor
    case started => rw [logIs]; rfl
    case sized => rw [logIs]
    case idle => rw [logIs]; rfl
    case depth => rw [logIs]; rfl
    case clean => exact fun block _ => by rw [contentsAre, diskIs]
    case distinct => rw [logIs]; exact List.nodup_nil
    case outside => simp [logIs, Fslog.init]
    case small => simp [logIs, Fslog.init]
    case fits => simp [logIs, Fslog.init, Fslog.n]
    case room => simp [logIs, Fslog.init]
    case pinned => simp [logIs, Fslog.init]
    case listed => simp [logIs, Fslog.init, Groups.start]
    case unlisted => exact fun block _ => by rw [contentsAre, diskIs]
    case empty => rwa [diskIs, cleared, applyWrites_singleton, Function.update_self]
    case history => rw [diskIs, writtenIs]
    case settled => exact fun block apart => by rw [diskIs, untouched block apart]; rfl
    case pending => exact fun block apart => by rw [contentsAre, untouched block apart]; rfl
    case safe => rwa [writtenIs]
  have whole : Ensures (logRun recycled actions) (Machine.boot logstart nlog disk)
      (fun _ after => RunSafe logstart nlog disk (Groups.start.run actions) after.written)
      (fun _ after => RunSafe logstart nlog disk (Groups.start.run actions) after.written) := by
    unfold logRun
    refine Leads.andThen leads fun after seen => ?_
    exact runActions_safe recycled actions valid after (seen ▸ inv)
  unfold Ensures at whole
  split at whole <;> rename_i found <;> rw [found] <;> exact whole

end

/-! Crashes and recoveries. -/

/-- The disk after one recovery that crashes behind its first `count` raw writes. -/
def interruptedRecovery (logstart nlog : Nat) (disk : Nat → Block) (attempt : (Nat → Nat → Bool) × Nat) : Nat → Block :=
  applyWrites disk ((recoverFromLog attempt.1 (Machine.boot logstart nlog disk)).2.written.take attempt.2)

theorem Recoverable.after_attempts (room : 0 < nlog) {image : Nat → Block} (attempts : List ((Nat → Nat → Bool) × Nat))
    (recoverable : Recoverable logstart nlog disk image) :
    Recoverable logstart nlog (attempts.foldl (interruptedRecovery logstart nlog) disk) image := by
  induction attempts generalizing disk with
  | nil => exact recoverable
  | cons attempt attempts ih =>
    refine ih ?_
    obtain ⟨v, leads, _, _, writtenIs, _, _⟩ := recover_leads attempt.1 recoverable
    have written : (recoverFromLog attempt.1 (Machine.boot logstart nlog disk)).2.written =
        recoverWrites logstart disk := by
      unfold Leads Ensures at leads
      split at leads
      next found => rw [found, ← writtenIs, ← leads.2]; rfl
      next => exact leads.elim
    rw [interruptedRecovery, written]
    exact recoverable.interrupted room attempt.2

/-- For any run of the log's calls, a crash after any raw write and any number of
interrupted recoveries, a recovery that runs to its end leaves every block outside
the log region as the transactions whose header is out leave it. -/
theorem log_crash_atomic (logstart nlog : Nat) (room : 0 < nlog) (disk : Nat → Block)
    (empty : headerN (disk logstart) = 0) (recycled : Nat → Nat → Bool) (actions : List LogAction)
    (valid : WritesOutside logstart nlog actions) (crash : Nat) (attempts : List ((Nat → Nat → Bool) × Nat))
    (last : Nat → Nat → Bool) :
    let written := (logRun recycled actions (Machine.boot logstart nlog disk)).2.written.take crash
    let surviving := attempts.foldl (interruptedRecovery logstart nlog) (applyWrites disk written)
    let recovery := recoverFromLog last (Machine.boot logstart nlog surviving)
    recovery.1 = .ok () ∧ ∀ block, OutsideLog logstart nlog block →
      recovery.2.disk block = (Groups.start.run actions).image disk (commits logstart written) block := by
  intro written surviving recovery
  have safe := logRun_safe recycled actions valid room empty crash
  have recoverable : Recoverable logstart nlog surviving _ := safe.after_attempts room attempts
  obtain ⟨v, leads, diskIs, _, _, _, _⟩ := recover_leads last recoverable
  obtain ⟨returned, diskAfter⟩ : recovery.1 = .ok () ∧ recovery.2.disk = v.disk := by
    unfold Leads Ensures at leads
    split at leads
    next found => exact ⟨by simp only [recovery, found], by rw [← leads.2]; simp only [recovery, found]; rfl⟩
    next => exact leads.elim
  refine ⟨returned, fun block apart => ?_⟩
  rw [diskAfter, diskIs, recoverWrites, applyWrites_append, applyWrites_singleton,
    Function.update_of_ne (outside_start room apart)]
  exact recoverable.agrees block apart

/-- Two transactions on an empty disk, the second behind a crash and an interrupted recovery. -/
def twoTransactions : List LogAction :=
  [.beginOp, .write 1100 (Bytes.ofFn fun _ => 7), .write 1101 (Bytes.ofFn fun _ => 8), .endOp,
    .beginOp, .write 1100 (Bytes.ofFn fun _ => 9), .endOp]

theorem twoTransactions_outside : WritesOutside 2 1016 twoTransactions := by
  intro blockno data member
  simp only [twoTransactions, List.mem_cons, LogAction.write.injEq, List.not_mem_nil, or_false, reduceCtorEq,
    false_or] at member
  rcases member with ⟨rfl, _⟩ | ⟨rfl, _⟩ | ⟨rfl, _⟩ <;> exact ⟨.inr (by decide), by decide⟩

theorem log_crash_atomic_two :
    let written := (logRun (fun _ _ => true) twoTransactions (Machine.boot 2 1016 fun _ => Bytes.zero)).2.written.take 7
    let surviving := [((fun _ _ => false), 1)].foldl (interruptedRecovery 2 1016)
      (applyWrites (fun _ => Bytes.zero) written)
    let recovery := recoverFromLog (fun _ _ => true) (Machine.boot 2 1016 surviving)
    recovery.1 = .ok () ∧ ∀ block, OutsideLog 2 1016 block → recovery.2.disk block =
      (Groups.start.run twoTransactions).image (fun _ => Bytes.zero) (commits 2 written) block :=
  log_crash_atomic 2 1016 (by decide) (fun _ => Bytes.zero) (by rw [headerN, Bytes.field_zero]; rfl)
    (fun _ _ => true) twoTransactions twoTransactions_outside 7 [((fun _ _ => false), 1)] fun _ _ => true

end Myfuse
