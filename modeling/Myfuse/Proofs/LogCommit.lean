import Mathlib.Data.List.Nodup
import Mathlib.Order.MinMax
import Myfuse.Proofs.BufferCache

/-! The raw writes of each log routine in closed form: the copies into the log,
the header, the installs and the empty header, all with the contents the cache
serves when the routine starts. -/

namespace Myfuse
open Library Library.Exec

/-- A block outside the log region. -/
def OutsideLog (logstart nlog blockno : Nat) : Prop := blockno < logstart ∨ logstart + nlog ≤ blockno

/-- What `write_from_cache_to_log` writes. -/
def logCopies (logstart : Nat) (blocks : List Nat) (contents : Nat → Block) : List (Nat × Block) :=
  blocks.mapIdx fun tail blockno => (logstart + tail + 1, contents blockno)

/-- What `install_transaction` writes. -/
def logInstalls (logstart : Nat) (blocks : List Nat) (contents : Nat → Block) : List (Nat × Block) :=
  blocks.mapIdx fun tail blockno => (blockno, contents (logstart + tail + 1))

@[simp] theorem length_logCopies (logstart : Nat) (blocks : List Nat) (contents : Nat → Block) :
    (logCopies logstart blocks contents).length = blocks.length := by simp [logCopies]

@[simp] theorem length_logInstalls (logstart : Nat) (blocks : List Nat) (contents : Nat → Block) :
    (logInstalls logstart blocks contents).length = blocks.length := by simp [logInstalls]

theorem mem_logCopies {logstart : Nat} {blocks : List Nat} {contents : Nat → Block} {write : Nat × Block}
    (member : write ∈ logCopies logstart blocks contents) :
    ∃ tail, ∃ inside : tail < blocks.length, write = (logstart + tail + 1, contents blocks[tail]) := by
  obtain ⟨tail, inside, rfl⟩ := List.mem_mapIdx.mp member
  exact ⟨tail, inside, rfl⟩

theorem mem_logInstalls {logstart : Nat} {blocks : List Nat} {contents : Nat → Block} {write : Nat × Block}
    (member : write ∈ logInstalls logstart blocks contents) :
    ∃ tail, ∃ inside : tail < blocks.length, write = (blocks[tail], contents (logstart + tail + 1)) := by
  obtain ⟨tail, inside, rfl⟩ := List.mem_mapIdx.mp member
  exact ⟨tail, inside, rfl⟩

theorem logCopies_addresses (logstart : Nat) (blocks : List Nat) (contents : Nat → Block) :
    ((logCopies logstart blocks contents).map Prod.fst).Nodup := by
  refine List.pairwise_iff_getElem.mpr fun first second low high order same => ?_
  simp [logCopies] at same
  omega

namespace CacheView

def releaseAll (v : CacheView) (blocks : List Nat) : CacheView := blocks.foldl release v

def withLog (v : CacheView) (blocks : List Nat) : CacheView := { v with log := { v.log with block := blocks } }

@[simp] theorem releaseAll_log (v : CacheView) (blocks : List Nat) : (v.releaseAll blocks).log = v.log := by
  induction blocks generalizing v with
  | nil => rfl
  | cons block blocks ih => exact ih (v.release block)

@[simp] theorem releaseAll_disk (v : CacheView) (blocks : List Nat) : (v.releaseAll blocks).disk = v.disk := by
  induction blocks generalizing v with
  | nil => rfl
  | cons block blocks ih => exact ih (v.release block)

@[simp] theorem releaseAll_contents (v : CacheView) (blocks : List Nat) :
    (v.releaseAll blocks).contents = v.contents := by
  induction blocks generalizing v with
  | nil => rfl
  | cons block blocks ih => exact ih (v.release block)

@[simp] theorem releaseAll_written (v : CacheView) (blocks : List Nat) :
    (v.releaseAll blocks).written = v.written := by
  induction blocks generalizing v with
  | nil => rfl
  | cons block blocks ih => exact ih (v.release block)

theorem releaseAll_refs_other {v : CacheView} {blocks : List Nat} {blockno : Nat} (absent : blockno ∉ blocks) :
    (v.releaseAll blocks).refs blockno = v.refs blockno := by
  induction blocks generalizing v with
  | nil => rfl
  | cons block blocks ih =>
    rw [List.mem_cons, not_or] at absent
    refine (ih (v := v.release block) absent.2).trans ?_
    simp [CacheView.release, Function.update_of_ne absent.1]

theorem releaseAll_refs_mem {v : CacheView} {blocks : List Nat} (distinct : blocks.Nodup) {blockno : Nat}
    (listed : blockno ∈ blocks) : (v.releaseAll blocks).refs blockno = v.refs blockno - 1 := by
  induction blocks generalizing v with
  | nil => cases listed
  | cons block blocks ih =>
    obtain ⟨absent, distinct⟩ := List.nodup_cons.mp distinct
    rcases List.mem_cons.mp listed with rfl | listed
    · refine (releaseAll_refs_other absent).trans ?_
      simp [CacheView.release]
    · have apart : blockno ≠ block := fun same => absent (same ▸ listed)
      refine (ih (v := v.release block) distinct listed).trans ?_
      simp [CacheView.release, Function.update_of_ne apart]

@[simp] theorem withLog_withLog (v : CacheView) (first second : List Nat) :
    (v.withLog first).withLog second = v.withLog second := rfl

theorem withLog_writes (v : CacheView) (blocks : List Nat) (ws : List (Nat × Block)) :
    (v.withLog blocks).writes ws = (v.writes ws).withLog blocks := rfl

@[simp] theorem withLog_contents (v : CacheView) (blocks : List Nat) : (v.withLog blocks).contents = v.contents := rfl

@[simp] theorem withLog_start (v : CacheView) (blocks : List Nat) : (v.withLog blocks).log.start = v.log.start := rfl

@[simp] theorem withLog_block (v : CacheView) (blocks : List Nat) : (v.withLog blocks).log.block = blocks := rfl

theorem Clean.withLog {v : CacheView} (clean : v.Clean) (blocks : List Nat) : (v.withLog blocks).Clean := clean

theorem release_writes (v : CacheView) (blockno : Nat) (ws : List (Nat × Block)) :
    (v.release blockno).writes ws = (v.writes ws).release blockno := rfl

theorem releaseAll_writes (v : CacheView) (blocks : List Nat) (ws : List (Nat × Block)) :
    (v.releaseAll blocks).writes ws = (v.writes ws).releaseAll blocks := by
  induction blocks generalizing v with
  | nil => rfl
  | cons block blocks ih => exact ih (v.release block)

theorem releaseAll_append (v : CacheView) (blocks : List Nat) (blockno : Nat) :
    v.releaseAll (blocks ++ [blockno]) = (v.releaseAll blocks).release blockno := List.foldl_append

theorem Clean.release {v : CacheView} (clean : v.Clean) {blockno : Nat}
    (settled : v.contents blockno = v.disk blockno) : (v.release blockno).Clean := by
  intro other unreferenced
  by_cases same : other = blockno
  · subst other
    exact settled
  · apply clean
    simpa [CacheView.release, Function.update_of_ne same] using unreferenced

end CacheView

section
variable (recycled : Nat → Nat → Bool) {m : Machine} {v : CacheView}

/-- One round of a copy loop: the destination is written through with what the
source held, and the two references are given back. -/
theorem copy_leads (seen : m.view = v) (clean : v.Clean) (to_buf from_buf : Nat) :
    Leads (do
      let _ ← bread recycled to_buf
      let data ← bread recycled from_buf
      setData to_buf data
      bwrite to_buf
      brelse to_buf
      brelse from_buf) m () (v.writes [(to_buf, v.contents from_buf)]) := by
  subst seen
  refine Leads.bind (bread_leads recycled clean to_buf) fun m₁ seen₁ => ?_
  refine Leads.bind (bread_leads recycled (seen₁ ▸ clean.hold to_buf) from_buf) fun m₂ seen₂ => ?_
  rw [seen₁] at seen₂ ⊢
  have held : 0 < m₂.view.refs to_buf := by
    rw [seen₂]
    by_cases same : to_buf = from_buf <;> simp [CacheView.hold, Function.update_apply, same]
  refine Leads.bind (setData_leads held _) fun m₃ seen₃ => ?_
  have held₃ : 0 < m₃.view.refs to_buf := by rw [seen₃]; exact held
  refine Leads.bind (bwrite_leads held₃) fun m₄ seen₄ => ?_
  let v' := m.view.writes [(to_buf, m.view.contents from_buf)]
  have stored : m₄.view = (v'.hold to_buf).hold from_buf := by
    have contents₃ : m₃.contents = (m₂.view.setData to_buf (m.view.contents from_buf)).contents :=
      congrArg CacheView.contents seen₃
    have disk₃ : m₃.disk = m₂.view.disk := congrArg CacheView.disk seen₃
    have written₃ : m₃.written = m₂.view.written := congrArg CacheView.written seen₃
    rw [seen₄, seen₃, contents₃, disk₃, written₃, seen₂]
    simp [v', CacheView.setData, CacheView.hold, CacheView.writes, applyWrites_singleton]
  rw [CacheView.hold_comm] at stored
  have first : 0 < m₄.view.refs to_buf := by simp [stored, CacheView.hold]
  refine Leads.bind (bunpin_leads first) fun m₅ seen₅ => ?_
  rw [stored, CacheView.release_hold] at seen₅
  have second : 0 < m₅.view.refs from_buf := by simp [seen₅, CacheView.hold]
  have last := bunpin_leads second
  rwa [seen₅, CacheView.release_hold] at last

/-- One round of `install_transaction`. -/
theorem install_leads (seen : m.view = v) (clean : v.Clean) (recovering : Bool) (log_buf dst_buf : Nat)
    (pinned : recovering = false → 0 < v.refs dst_buf) :
    Leads (do
      let data ← bread recycled log_buf
      let _ ← bread recycled dst_buf
      setData dst_buf data
      bwrite dst_buf
      if recovering then pure () else bunpin dst_buf
      brelse log_buf
      brelse dst_buf) m ()
      (if recovering then v.writes [(dst_buf, v.contents log_buf)]
        else (v.writes [(dst_buf, v.contents log_buf)]).release dst_buf) := by
  subst seen
  refine Leads.bind (bread_leads recycled clean log_buf) fun m₁ seen₁ => ?_
  refine Leads.bind (bread_leads recycled (seen₁ ▸ clean.hold log_buf) dst_buf) fun m₂ seen₂ => ?_
  rw [seen₁] at seen₂
  have held : 0 < m₂.view.refs dst_buf := by simp [seen₂, CacheView.hold]
  refine Leads.bind (setData_leads held _) fun m₃ seen₃ => ?_
  have held₃ : 0 < m₃.view.refs dst_buf := by rw [seen₃]; exact held
  refine Leads.bind (bwrite_leads held₃) fun m₄ seen₄ => ?_
  let v' := m.view.writes [(dst_buf, m.view.contents log_buf)]
  have stored : m₄.view = (v'.hold log_buf).hold dst_buf := by
    have contents₃ : m₃.contents = (m₂.view.setData dst_buf (m.view.contents log_buf)).contents :=
      congrArg CacheView.contents seen₃
    have disk₃ : m₃.disk = m₂.view.disk := congrArg CacheView.disk seen₃
    have written₃ : m₃.written = m₂.view.written := congrArg CacheView.written seen₃
    rw [seen₄, seen₃, contents₃, disk₃, written₃, seen₂]
    simp [v', CacheView.setData, CacheView.hold, CacheView.writes, applyWrites_singleton]
  cases recovering with
  | true =>
    rw [CacheView.hold_comm] at stored
    have first : 0 < m₄.view.refs log_buf := by simp [stored, CacheView.hold]
    refine Leads.bind (bunpin_leads first) fun m₆ seen₆ => ?_
    rw [stored, CacheView.release_hold] at seen₆
    have second : 0 < m₆.view.refs dst_buf := by simp [seen₆, CacheView.hold]
    have last := bunpin_leads second
    rwa [seen₆, CacheView.release_hold] at last
  | false =>
    have first : 0 < m₄.view.refs dst_buf := by simp [stored, CacheView.hold]
    refine Leads.bind (bunpin_leads first) fun m₅ seen₅ => ?_
    rw [stored, CacheView.release_hold] at seen₅
    have second : 0 < m₅.view.refs log_buf := by simp [seen₅, CacheView.hold]
    refine Leads.bind (bunpin_leads second) fun m₆ seen₆ => ?_
    rw [seen₅, CacheView.release_hold] at seen₆
    have third : 0 < m₆.view.refs dst_buf := by rw [seen₆]; exact pinned rfl
    have last := bunpin_leads third
    rwa [seen₆] at last

theorem Leads.get {next : Machine → LogM α} {value : α} (rest : Leads (next m) m value v) :
    Leads (get >>= next) m value v := by
  unfold Leads
  rw [ensures_bind, ensures_get]
  exact rest

theorem modify_leads {change : Machine → Machine} (seen : (change m).view = v) : Leads (Exec.modify change) m () v :=
  (ensures_modify change).mpr ⟨rfl, seen⟩

theorem take_next {β : Type} {ws : List β} {count : Nat} (inside : count < ws.length) :
    ws.take (count + 1) = ws.take count ++ [ws[count]] := by
  rw [List.take_add_one, List.getElem?_eq_getElem inside, Option.toList_some]

theorem writeFromCacheToLog_leads (seen : m.view = v) (clean : v.Clean)
    (apart : ∀ blockno ∈ v.log.block, OutsideLog v.log.start (v.log.n + 1) blockno) :
    Leads (writeFromCacheToLog recycled) m () (v.writes (logCopies v.log.start v.log.block v.contents)) := by
  have log : m.log = v.log := congrArg CacheView.log seen
  have whole : (logCopies v.log.start v.log.block v.contents).take (0 + v.log.n) =
      logCopies v.log.start v.log.block v.contents := List.take_of_length_le (by simp [Fslog.n])
  simp only [Leads, writeFromCacheToLog, ensures_bind, ensures_get, log]
  rw [← whole]
  refine (Ensures.forRange (fun tail (current : Machine) =>
    current.view = v.writes ((logCopies v.log.start v.log.block v.contents).take tail))
    (by simpa [CacheView.writes_nil] using seen) fun tail current _ high reached => ?_).weaken
    fun _ _ final => ⟨trivial, final⟩
  have inside : tail < v.log.block.length := by simpa [Fslog.n] using high
  have source : v.log.block.getD tail 0 = v.log.block[tail] := by simp [List.getD, inside]
  have round := copy_leads recycled reached (clean.writes _) (v.log.start + tail + 1) (v.log.block.getD tail 0)
  refine round.weaken fun _ after done => ?_
  rw [done.2, CacheView.writes_append, take_next (by simpa using inside), source]
  have untouched : (v.writes ((logCopies v.log.start v.log.block v.contents).take tail)).contents v.log.block[tail] =
      v.contents v.log.block[tail] := by
    refine applyWrites_other _ fun write member same => ?_
    obtain ⟨other, low, rfl⟩ := mem_logCopies (List.mem_of_mem_take member)
    have := apart _ (List.getElem_mem inside)
    simp only [OutsideLog, Fslog.n] at this same
    omega
  rw [untouched]
  simp [logCopies]

theorem writeLogHeaderToDisk_leads (seen : m.view = v) (clean : v.Clean) :
    Leads (writeLogHeaderToDisk recycled) m ()
      (v.writes [(v.log.start, putHeader (v.contents v.log.start) v.log.block)]) := by
  have log : m.log = v.log := congrArg CacheView.log seen
  unfold writeLogHeaderToDisk
  refine Leads.get ?_
  have read := bread_leads recycled (seen ▸ clean) v.log.start
  rw [log]
  rw [seen] at read
  refine Leads.bind read fun m₁ seen₁ => ?_
  have held : 0 < m₁.view.refs v.log.start := by simp [seen₁, CacheView.hold]
  refine Leads.bind (setData_leads held _) fun m₂ seen₂ => ?_
  have held₂ : 0 < m₂.view.refs v.log.start := by rw [seen₂]; exact held
  refine Leads.bind (bwrite_leads held₂) fun m₃ seen₃ => ?_
  have stored : m₃.view = (v.writes [(v.log.start, putHeader (v.contents v.log.start) v.log.block)]).hold v.log.start := by
    have contents₂ : m₂.contents = (m₁.view.setData v.log.start
        (putHeader (v.contents v.log.start) v.log.block)).contents := congrArg CacheView.contents seen₂
    have disk₂ : m₂.disk = m₁.view.disk := congrArg CacheView.disk seen₂
    have written₂ : m₂.written = m₁.view.written := congrArg CacheView.written seen₂
    rw [seen₃, seen₂, contents₂, disk₂, written₂, seen₁]
    simp [CacheView.setData, CacheView.hold, CacheView.writes, applyWrites_singleton]
  have held₃ : 0 < m₃.view.refs v.log.start := by simp [stored, CacheView.hold]
  have last := bunpin_leads held₃
  rwa [stored, CacheView.release_hold] at last

theorem readLogHeaderFromDisk_leads (seen : m.view = v) (clean : v.Clean)
    (room : headerN (v.contents v.log.start) ≤ NLOG) :
    Leads (readLogHeaderFromDisk recycled) m () (v.withLog (headerBlocks (v.contents v.log.start))) := by
  have log : m.log = v.log := congrArg CacheView.log seen
  unfold readLogHeaderFromDisk
  refine Leads.get ?_
  have read := bread_leads recycled (seen ▸ clean) v.log.start
  rw [log]
  rw [seen] at read
  refine Leads.bind read fun m₁ seen₁ => ?_
  rw [if_neg (not_lt.mpr room)]
  have sets : Leads (Exec.modify fun m => { m with log := { m.log with block := headerBlocks (v.contents v.log.start) } }) m₁ ()
      ((v.withLog (headerBlocks (v.contents v.log.start))).hold v.log.start) := by
    refine modify_leads ?_
    have moved : ∀ blocks, ({ m₁ with log := { m₁.log with block := blocks } } : Machine).view =
        m₁.view.withLog blocks := fun _ => rfl
    rw [moved, seen₁]
    rfl
  refine Leads.bind sets fun m₂ seen₂ => ?_
  have held : 0 < m₂.view.refs v.log.start := by simp [seen₂, CacheView.hold]
  have last := bunpin_leads held
  rwa [seen₂, CacheView.release_hold] at last

/-- The state after the first `tail` installs. -/
private def installed (recovering : Bool) (v : CacheView) (tail : Nat) : CacheView :=
  let after := v.writes ((logInstalls v.log.start v.log.block v.contents).take tail)
  if recovering then after else after.releaseAll (v.log.block.take tail)

private theorem installed_next {recovering : Bool} {tail : Nat} (inside : tail < v.log.block.length)
    (apart : ∀ blockno ∈ v.log.block, OutsideLog v.log.start (v.log.n + 1) blockno) :
    let current := installed recovering v tail
    let written := current.writes [(v.log.block[tail], current.contents (v.log.start + tail + 1))]
    (if recovering then written else written.release v.log.block[tail]) = installed recovering v (tail + 1) := by
  have untouched : (installed recovering v tail).contents (v.log.start + tail + 1) =
      v.contents (v.log.start + tail + 1) := by
    have unread : applyWrites v.contents ((logInstalls v.log.start v.log.block v.contents).take tail)
        (v.log.start + tail + 1) = v.contents (v.log.start + tail + 1) := by
      refine applyWrites_other _ fun write member same => ?_
      obtain ⟨other, low, rfl⟩ := mem_logInstalls (List.mem_of_mem_take member)
      have := apart _ (List.getElem_mem low)
      simp only [OutsideLog, Fslog.n] at this same
      omega
    cases recovering <;> simpa [installed, CacheView.writes] using unread
  have bound : tail < (logInstalls v.log.start v.log.block v.contents).length := by simpa using inside
  have added : (logInstalls v.log.start v.log.block v.contents)[tail] =
      (v.log.block[tail], v.contents (v.log.start + tail + 1)) := by simp [logInstalls]
  simp only [untouched]
  cases recovering
  · simp only [installed, Bool.false_eq_true, if_false]
    rw [CacheView.releaseAll_writes, CacheView.writes_append, take_next (by simpa using inside), added, take_next inside,
      CacheView.releaseAll_append]
  · simp only [installed, if_true]
    rw [CacheView.writes_append, take_next (by simpa using inside), added]

private theorem installed_clean {recovering : Bool} (clean : v.Clean) (tail : Nat) :
    (installed recovering v tail).Clean := by
  have written := clean.writes ((logInstalls v.log.start v.log.block v.contents).take tail)
  cases recovering
  case true => exact written
  case false =>
    intro blockno unreferenced
    simp only [installed, Bool.false_eq_true, if_false, CacheView.releaseAll_contents, CacheView.releaseAll_disk] at unreferenced ⊢
    by_cases listed : blockno ∈ v.log.block.take tail
    · refine applyWrites_congr (.inl ?_)
      obtain ⟨index, low, rfl⟩ := List.mem_iff_getElem.mp listed
      have below : index < tail ∧ index < v.log.block.length := lt_min_iff.mp (by simpa using low)
      refine List.mem_map.mpr ⟨(v.log.block[index], v.contents (v.log.start + index + 1)), ?_, by simp⟩
      refine List.mem_iff_getElem.mpr ⟨index, by simp; omega, by simp [logInstalls]⟩
    · rw [CacheView.releaseAll_refs_other listed] at unreferenced
      exact written blockno unreferenced

theorem installTransaction_leads (seen : m.view = v) (clean : v.Clean) (recovering : Bool)
    (apart : ∀ blockno ∈ v.log.block, OutsideLog v.log.start (v.log.n + 1) blockno)
    (distinct : v.log.block.Nodup) (pinned : recovering = false → ∀ blockno ∈ v.log.block, 0 < v.refs blockno) :
    let after := v.writes (logInstalls v.log.start v.log.block v.contents)
    Leads (installTransaction recycled recovering) m () (if recovering then after else after.releaseAll v.log.block) := by
  have log : m.log = v.log := congrArg CacheView.log seen
  have whole : installed recovering v (0 + v.log.n) =
      if recovering then v.writes (logInstalls v.log.start v.log.block v.contents)
      else (v.writes (logInstalls v.log.start v.log.block v.contents)).releaseAll v.log.block := by
    have first : (logInstalls v.log.start v.log.block v.contents).take (0 + v.log.n) =
        logInstalls v.log.start v.log.block v.contents := List.take_of_length_le (by simp [Fslog.n])
    have second : v.log.block.take (0 + v.log.n) = v.log.block := List.take_of_length_le (by simp [Fslog.n])
    simp only [installed, first, second]
  simp only [Leads, installTransaction, ensures_bind, ensures_get, log]
  rw [← whole]
  refine (Ensures.forRange (fun tail (current : Machine) => current.view = installed recovering v tail) ?_
    fun tail current _ high reached => ?_).weaken fun _ _ final => ⟨trivial, final⟩
  · cases recovering <;> simpa [installed, CacheView.writes_nil, CacheView.releaseAll] using seen
  · have inside : tail < v.log.block.length := by simpa [Fslog.n] using high
    have source : v.log.block.getD tail 0 = v.log.block[tail] := by simp [List.getD, inside]
    have round := install_leads recycled reached (installed_clean clean tail) recovering
      (v.log.start + tail + 1) (v.log.block.getD tail 0) fun running => by
        subst running
        simp only [installed, Bool.false_eq_true, if_false, source]
        rw [CacheView.releaseAll_refs_other]
        · exact pinned rfl _ (List.getElem_mem inside)
        · intro earlier
          obtain ⟨index, low, same⟩ := List.mem_iff_getElem.mp earlier
          have below : index < tail ∧ index < v.log.block.length := lt_min_iff.mp (by simpa using low)
          rw [List.getElem_take] at same
          exact absurd (distinct.getElem_inj_iff.mp same) (by omega)
    refine round.weaken fun _ after done => ?_
    rw [done.2, source]
    exact installed_next inside apart

/-- `fslog.lh.n = 0`. -/
theorem emptyLog_leads (seen : m.view = v) :
    Leads (Exec.modify fun m => { m with log := { m.log with block := [] } }) m () (v.withLog []) := by
  have moved : ({ m with log := { m.log with block := [] } } : Machine).view = m.view.withLog [] := rfl
  exact modify_leads (moved.trans (by rw [seen]))

/-- The raw writes of one commit: copies, header, installs, empty header. -/
def commitWrites (logstart : Nat) (blocks : List Nat) (contents : Nat → Block) : List (Nat × Block) :=
  let header := putHeader (contents logstart) blocks
  logCopies logstart blocks contents ++ (logstart, header) ::
    (blocks.map (fun blockno => (blockno, contents blockno)) ++ [(logstart, putHeader header [])])

/-- The raw writes of a recovery from a disk. -/
def recoverWrites (logstart : Nat) (disk : Nat → Block) : List (Nat × Block) :=
  logInstalls logstart (headerBlocks (disk logstart)) disk ++ [(logstart, putHeader (disk logstart) [])]

private theorem header_kept_by_copies :
    (v.writes (logCopies v.log.start v.log.block v.contents)).contents v.log.start = v.contents v.log.start := by
  refine applyWrites_other _ fun write member same => ?_
  obtain ⟨tail, _, rfl⟩ := mem_logCopies member
  simp only at same
  omega

/-- After the header is written the log copies still hold what the cache served. -/
private theorem installs_of_copies (header : Block) :
    logInstalls v.log.start v.log.block
        ((v.writes (logCopies v.log.start v.log.block v.contents)).writes [(v.log.start, header)]).contents =
      v.log.block.map fun blockno => (blockno, v.contents blockno) := by
  refine List.ext_getElem (by simp) fun tail low _ => ?_
  have inside : tail < v.log.block.length := by simpa using low
  simp only [logInstalls, List.getElem_mapIdx, List.getElem_map, CacheView.writes, applyWrites_singleton]
  rw [Function.update_of_ne (by omega),
    applyWrites_mem _ (logCopies_addresses _ _ _) (List.mem_mapIdx.mpr ⟨tail, inside, rfl⟩)]

private theorem header_kept_by_installs
    (outside : ∀ blockno ∈ v.log.block, OutsideLog v.log.start (v.log.n + 1) blockno) (contents : Nat → Block) :
    applyWrites contents (v.log.block.map fun blockno => (blockno, v.contents blockno)) v.log.start =
      contents v.log.start := by
  refine applyWrites_other _ fun write member same => ?_
  obtain ⟨blockno, listed, rfl⟩ := List.mem_map.mp member
  have := outside _ listed
  simp only [OutsideLog] at this same
  omega

/-- Unpinning is safe once the pinned blocks have been written home. -/
private theorem clean_after_installs {w : CacheView} (clean : w.Clean) (blocks : List Nat) (contents : Nat → Block) :
    ((w.writes (blocks.map fun blockno => (blockno, contents blockno))).releaseAll blocks).Clean := by
  intro blockno unreferenced
  rw [CacheView.releaseAll_contents, CacheView.releaseAll_disk]
  by_cases member : blockno ∈ blocks
  · exact applyWrites_congr (.inl (by simpa using member))
  · rw [CacheView.releaseAll_refs_other member] at unreferenced
    exact clean.writes _ blockno unreferenced

theorem commit_leads (seen : m.view = v) (clean : v.Clean) (listed : v.log.block ≠ [])
    (outside : ∀ blockno ∈ v.log.block, OutsideLog v.log.start (v.log.n + 1) blockno) (distinct : v.log.block.Nodup)
    (pinned : ∀ blockno ∈ v.log.block, 0 < v.refs blockno) :
    Leads (commit recycled) m ()
      (((v.writes (commitWrites v.log.start v.log.block v.contents)).releaseAll v.log.block).withLog []) := by
  have some : m.log.n > 0 := by
    rw [show m.log = v.log from congrArg CacheView.log seen]
    exact List.length_pos_iff.mpr listed
  have headerRead := header_kept_by_copies (v := v)
  have installs := installs_of_copies (v := v) (putHeader (v.contents v.log.start) v.log.block)
  have headerKept := header_kept_by_installs outside
  have copy : ∀ {m : Machine}, m.view = v → _ := fun seen => writeFromCacheToLog_leads recycled seen clean outside
  have joined : commitWrites v.log.start v.log.block v.contents =
      logCopies v.log.start v.log.block v.contents ++ ([(v.log.start, putHeader (v.contents v.log.start) v.log.block)] ++
        (v.log.block.map (fun blockno => (blockno, v.contents blockno)) ++
          [(v.log.start, putHeader (putHeader (v.contents v.log.start) v.log.block) [])])) := rfl
  rw [joined]
  clear joined
  generalize logCopies v.log.start v.log.block v.contents = copies at headerRead installs copy ⊢
  generalize header_eq : putHeader (v.contents v.log.start) v.log.block = header at installs ⊢
  unfold commit
  refine Leads.get ?_
  rw [if_pos some]
  refine Leads.bind (copy seen) fun m₁ seen₁ => ?_
  have writeHeader := writeLogHeaderToDisk_leads recycled seen₁ (clean.writes copies)
  rw [CacheView.writes_log, headerRead, header_eq] at writeHeader
  refine Leads.bind writeHeader fun m₂ seen₂ => ?_
  have clean₂ := (clean.writes copies).writes [(v.log.start, header)]
  have install := installTransaction_leads recycled seen₂ clean₂ false outside distinct fun _ => pinned
  simp only [CacheView.writes_log, Bool.false_eq_true, if_false, installs] at install
  refine Leads.bind install fun m₃ seen₃ => ?_
  refine Leads.bind (emptyLog_leads seen₃) fun m₄ seen₄ => ?_
  have writeEmpty := writeLogHeaderToDisk_leads recycled seen₄
    ((clean_after_installs clean₂ v.log.block v.contents).withLog [])
  have headerLast : (((v.writes copies).writes [(v.log.start, header)]).writes
      (v.log.block.map fun blockno => (blockno, v.contents blockno))).contents v.log.start = header := by
    refine (headerKept _).trans ?_
    exact Function.update_self _ _ _
  rw [CacheView.withLog_writes, CacheView.releaseAll_writes, CacheView.withLog_contents, CacheView.withLog_start,
    CacheView.withLog_block, CacheView.releaseAll_contents, CacheView.releaseAll_log, CacheView.writes_log,
    CacheView.writes_log, CacheView.writes_log, headerLast] at writeEmpty
  simpa only [CacheView.writes_append, List.append_assoc] using writeEmpty

theorem recoverFromLog_leads (seen : m.view = v) (clean : v.Clean) (room : headerN (v.contents v.log.start) ≤ NLOG)
    (outside : ∀ blockno ∈ headerBlocks (v.contents v.log.start),
      OutsideLog v.log.start ((headerBlocks (v.contents v.log.start)).length + 1) blockno)
    (distinct : (headerBlocks (v.contents v.log.start)).Nodup) :
    Leads (recoverFromLog recycled) m () ((v.writes (recoverWrites v.log.start v.contents)).withLog []) := by
  have clean₁ := clean.withLog (headerBlocks (v.contents v.log.start))
  have running : true = false → ∀ blockno ∈ headerBlocks (v.contents v.log.start), 0 < v.refs blockno := by simp
  unfold recoverFromLog recoverWrites
  refine Leads.bind (readLogHeaderFromDisk_leads recycled seen clean room) fun m₁ seen₁ => ?_
  have install := installTransaction_leads recycled seen₁ clean₁ true outside distinct running
  simp only [if_true, CacheView.withLog_start, CacheView.withLog_block, CacheView.withLog_contents,
    CacheView.withLog_writes] at install
  have headerKept : (v.writes (logInstalls v.log.start (headerBlocks (v.contents v.log.start)) v.contents)).contents
      v.log.start = v.contents v.log.start := by
    refine applyWrites_other _ fun write member same => ?_
    obtain ⟨tail, inside, rfl⟩ := mem_logInstalls member
    have := outside _ (List.getElem_mem inside)
    simp only [OutsideLog] at this same
    omega
  have clean₂ := (clean.writes (logInstalls v.log.start (headerBlocks (v.contents v.log.start)) v.contents)).withLog []
  generalize installs : logInstalls v.log.start (headerBlocks (v.contents v.log.start)) v.contents = ws at install headerKept clean₂ ⊢
  refine Leads.bind install fun m₂ seen₂ => ?_
  refine Leads.bind (emptyLog_leads seen₂) fun m₃ seen₃ => ?_
  rw [CacheView.withLog_withLog] at seen₃
  have last := writeLogHeaderToDisk_leads recycled seen₃ clean₂
  rw [CacheView.withLog_start, CacheView.withLog_block, CacheView.withLog_contents, CacheView.withLog_writes,
    CacheView.writes_log, headerKept, CacheView.writes_append] at last
  exact last

end
end Myfuse
