import Myfuse.Proofs.CacheRefinement
import Myfuse.Proofs.LogRecovery

/-! `log.c` over the real buffer cache: no use of it shows that buffers are recycled. -/

namespace Myfuse
open Library Library.Exec

variable {s : CacheMachine} {m : Machine} {handed : Nat → Option Handle} (clock : Nat → BitVec 64)

/-- Two buffers taken and given back. -/
private theorem handed_back {first second : Nat} {b d : Handle} (free : handed first = none) (also : handed second = none) :
    Function.update (Function.update (Function.update (Function.update handed first (some b)) second (some d))
      first none) second none = handed := by
  funext other
  by_cases two : other = second
  · subst two
    simp [also]
  · by_cases one : other = first
    · subst one
      simp [Function.update_of_ne two, free]
    · simp [Function.update_of_ne two, Function.update_of_ne one]

private theorem handed_back_one {blockno : Nat} {b : Handle} (free : handed blockno = none) :
    Function.update (Function.update handed blockno (some b)) blockno none = handed := by
  rw [Function.update_idem, ← free, Function.update_eq_self]

private theorem refs_back_one (refs : Nat → Nat) (blockno : Nat) :
    let held := Function.update refs blockno (refs blockno + 1)
    Function.update held blockno (held blockno - 1) = refs := by
  intro held
  simp [held]

private theorem refs_back (refs : Nat → Nat) {first second : Nat} (apart : first ≠ second) :
    let one := Function.update refs first (refs first + 1)
    let two := Function.update one second (one second + 1)
    let three := Function.update two first (two first - 1)
    Function.update three second (three second - 1) = refs := by
  intro one two three
  funext other
  by_cases at_ : other = second
  · subst at_
    simp [three, two, one, Function.update_of_ne apart.symm]
  · by_cases at_' : other = first
    · subst at_'
      simp [three, two, one, Function.update_of_ne at_]
    · simp [three, two, one, Function.update_of_ne at_, Function.update_of_ne at_']

/-- One round of `write_from_cache_to_log`. -/
theorem copyRound_refines (sim : Sim s m handed) {to_ from_ : Nat} (apart : to_ ≠ from_) (free : handed to_ = none)
    (also : handed from_ = none) :
    Refines (do
      let to_buf ← BufCache.bread to_
      let from_buf ← BufCache.bread from_
      let copy ← BufCache.data from_buf
      BufCache.setData to_buf copy
      BufCache.bwrite to_buf
      BufCache.brelse clock to_buf
      BufCache.brelse clock from_buf) s
      (fun recycled => do
        let _ ← bread recycled to_
        let data ← bread recycled from_
        setData to_ data
        bwrite to_
        brelse to_
        brelse from_) m
      fun _ _ after next => Sim after next handed ∧ next.refs = m.refs ∧ next.log = m.log := by
  refine Refines.bind (bread_refines sim free) fun to_buf _ s₁ m₁ ⟨sim₁, _, refs₁, log₁, _, _⟩ => ?_
  have stillFree : Function.update handed to_ (some to_buf) from_ = none := by rw [Function.update_of_ne apart.symm, also]
  refine Refines.bind (bread_refines sim₁ stillFree) fun from_buf copy s₂ m₂ ⟨sim₂, copied, refs₂, log₂, _, _⟩ => ?_
  refine Refines.step (rfl : BufCache.data from_buf s₂ = (.ok (s₂.bcache.buf from_buf).data, s₂)) ?_
  rw [← copied]
  have outTo : Function.update (Function.update handed to_ (some to_buf)) from_ (some from_buf) to_ = some to_buf := by
    rw [Function.update_of_ne apart, Function.update_self]
  refine Refines.bind (setData_refines sim₂ outTo copy) fun _ _ s₃ m₃ ⟨sim₃, _, refs₃, log₃⟩ => ?_
  refine Refines.bind (bwrite_refines sim₃ outTo) fun _ _ s₄ m₄ ⟨sim₄, refs₄, log₄⟩ => ?_
  refine Refines.bind (brelse_refines clock sim₄ outTo) fun _ _ s₅ m₅ ⟨sim₅, refs₅, log₅⟩ => ?_
  have outFrom : Function.update (Function.update (Function.update handed to_ (some to_buf)) from_ (some from_buf))
      to_ none from_ = some from_buf := by
    rw [Function.update_of_ne apart.symm, Function.update_self]
  refine (brelse_refines clock sim₅ outFrom).mono fun _ _ s₆ m₆ ⟨sim₆, refs₆, log₆⟩ => ?_
  rw [handed_back free also] at sim₆
  refine ⟨sim₆, ?_, by rw [log₆, log₅, log₄, log₃, log₂, log₁]⟩
  rw [refs₆, refs₅, refs₄, refs₃, refs₂, refs₁]
  exact refs_back m.refs apart

/-- The end of a round of `install_transaction`: both buffers go back. -/
private theorem releaseTwo_refines {refs : Nat → Nat} {log dst : Nat} {log_buf dst_buf : Handle}
    (sim : Sim s m (Function.update (Function.update handed log (some log_buf)) dst (some dst_buf))) (apart : log ≠ dst)
    (free : handed log = none) (also : handed dst = none)
    (counts : ∀ other, other ≠ dst → m.refs other = Function.update refs log (refs log + 1) other) :
    Refines (do
      BufCache.brelse clock log_buf
      BufCache.brelse clock dst_buf) s
      (fun _ => do
        brelse log
        brelse dst) m
      fun _ _ after next => Sim after next handed ∧ next.log = m.log ∧ ∀ other, other ≠ dst → next.refs other = refs other := by
  have outLog : Function.update (Function.update handed log (some log_buf)) dst (some dst_buf) log = some log_buf := by
    rw [Function.update_of_ne apart, Function.update_self]
  refine Refines.bind (brelse_refines clock sim outLog) fun _ _ s₁ m₁ ⟨sim₁, refs₁, log₁⟩ => ?_
  have outDst : Function.update (Function.update (Function.update handed log (some log_buf)) dst (some dst_buf))
      log none dst = some dst_buf := by
    rw [Function.update_of_ne apart.symm, Function.update_self]
  refine (brelse_refines clock sim₁ outDst).mono fun _ _ s₂ m₂ ⟨sim₂, refs₂, log₂⟩ => ?_
  rw [handed_back free also] at sim₂
  refine ⟨sim₂, by rw [log₂, log₁], fun other away => ?_⟩
  rw [refs₂, Function.update_of_ne away, refs₁]
  by_cases at_ : other = log
  · subst at_
    rw [Function.update_self, counts other apart, Function.update_self]
    rfl
  · rw [Function.update_of_ne at_, counts other away, Function.update_of_ne at_]

/-- One round of `install_transaction`. -/
theorem installRound_refines (recovering : Bool) (sim : Sim s m handed) {log dst : Nat} (apart : log ≠ dst)
    (free : handed log = none) (also : handed dst = none) (pinned : recovering = false → 0 < m.refs dst) :
    Refines (do
      let log_buf ← BufCache.bread log
      let dst_buf ← BufCache.bread dst
      let copy ← BufCache.data log_buf
      BufCache.setData dst_buf copy
      BufCache.bwrite dst_buf
      if recovering then pure () else BufCache.bunpin dst_buf
      BufCache.brelse clock log_buf
      BufCache.brelse clock dst_buf) s
      (fun recycled => do
        let data ← bread recycled log
        let _ ← bread recycled dst
        setData dst data
        bwrite dst
        if recovering then pure () else bunpin dst
        brelse log
        brelse dst) m
      fun _ _ after next => Sim after next handed ∧ next.log = m.log ∧ ∀ other, other ≠ dst → next.refs other = m.refs other := by
  refine Refines.bind (bread_refines sim free) fun log_buf data s₁ m₁ ⟨sim₁, read, refs₁, log₁, _, _⟩ => ?_
  have stillFree : Function.update handed log (some log_buf) dst = none := by rw [Function.update_of_ne apart.symm, also]
  have outLog₁ : Function.update handed log (some log_buf) log = some log_buf := Function.update_self _ _ _
  refine Refines.bind (bread_refines sim₁ stillFree) fun dst_buf _ s₂ m₂ ⟨sim₂, _, refs₂, log₂, kept, _⟩ => ?_
  have outLog : Function.update (Function.update handed log (some log_buf)) dst (some dst_buf) log = some log_buf := by
    rw [Function.update_of_ne apart, outLog₁]
  have outDst : Function.update (Function.update handed log (some log_buf)) dst (some dst_buf) dst = some dst_buf :=
    Function.update_self _ _ _
  have same : (s₂.bcache.buf log_buf).data = data := by
    have before := sim₁.handed_cache outLog₁
    have after := kept log apart (by rw [sim₁.handed_refs outLog₁]; exact (sim₁.serves.given _ _ outLog₁).2.2)
    rw [before, sim₂.handed_cache outLog, Option.some.injEq, Buf.mk.injEq] at after
    exact after.1.trans read.symm
  refine Refines.step (rfl : BufCache.data log_buf s₂ = (.ok (s₂.bcache.buf log_buf).data, s₂)) ?_
  rw [same]
  refine Refines.bind (setData_refines sim₂ outDst data) fun _ _ s₃ m₃ ⟨sim₃, _, refs₃, log₃⟩ => ?_
  refine Refines.bind (bwrite_refines sim₃ outDst) fun _ _ s₄ m₄ ⟨sim₄, refs₄, log₄⟩ => ?_
  have refs : m₄.refs = m₂.refs := refs₄.trans refs₃
  have log : m₄.log = m.log := by rw [log₄, log₃, log₂, log₁]
  cases recovering with
  | true =>
    have tail : Refines _ s₄ _ m₄ fun _ _ after next =>
        Sim after next handed ∧ next.log = m₄.log ∧ ∀ other, other ≠ dst → next.refs other = m.refs other :=
      releaseTwo_refines clock sim₄ apart free also
        fun other away => by rw [refs, refs₂, Function.update_of_ne away, refs₁]
    exact tail.mono fun _ _ _ _ done => ⟨done.1, done.2.1.trans log, done.2.2⟩
  | false =>
    have referenced : 1 < m₄.refs dst := by
      have := pinned rfl
      rw [refs, refs₂, refs₁, Function.update_self, Function.update_of_ne apart.symm]
      omega
    refine Refines.bind (bunpin_refines sim₄ outDst referenced) fun _ _ s₅ m₅ ⟨sim₅, refs₅, log₅⟩ => ?_
    exact (releaseTwo_refines clock sim₅ apart free also
      fun other away => by rw [refs₅, Function.update_of_ne away, refs, refs₂, Function.update_of_ne away, refs₁]).mono
        fun _ _ _ _ done => ⟨done.1, done.2.1.trans (log₅.trans log), done.2.2⟩

theorem installTransaction_refines (recovering : Bool) (sim : Sim s m handed)
    (apart : ∀ blockno ∈ m.log.block, OutsideLog m.log.start (m.log.n + 1) blockno)
    (free : ∀ blockno ∈ m.log.block, handed blockno = none) (freeLog : ∀ index ≤ m.log.n, handed (m.log.start + index) = none)
    (distinct : m.log.block.Nodup) (pinned : recovering = false → ∀ blockno ∈ m.log.block, 0 < m.refs blockno) :
    Refines (BufCache.installTransaction clock recovering) s (installTransaction · recovering) m
      fun _ _ after next => Sim after next handed ∧ next.log = m.log := by
  unfold BufCache.installTransaction installTransaction
  refine Refines.get ?_
  rw [sim.log]
  refine (Refines.forRange (fun tail after next => (Sim after next handed ∧ next.log = m.log) ∧
    (recovering = false → ∀ blockno ∈ m.log.block.drop tail, 0 < next.refs blockno)) ⟨⟨sim, rfl⟩, by simpa using pinned⟩
    ?_).mono fun _ _ _ _ done => done.1
  rintro tail after next _ high ⟨⟨sim, log⟩, pinned⟩
  have inside : tail < m.log.block.length := by simpa [Fslog.n] using high
  have listed := List.getElem_mem inside
  have source : m.log.block.getD tail 0 = m.log.block[tail] := by simp [List.getD, inside]
  have away : m.log.start + tail + 1 ≠ m.log.block[tail] := fun same => by
    have := apart _ listed
    simp only [OutsideLog, Fslog.n] at this
    omega
  have next_ : m.log.block.drop tail = m.log.block[tail] :: m.log.block.drop (tail + 1) := List.drop_eq_getElem_cons inside
  rw [source]
  refine (installRound_refines clock recovering sim away (freeLog (tail + 1) (by simp only [Fslog.n]; omega)) (free _ listed)
    fun running => pinned running _ (by rw [next_]; exact List.mem_cons_self)).mono ?_
  rintro _ _ _ _ ⟨sim', log', refs⟩
  refine ⟨⟨sim', log'.trans log⟩, fun running blockno later => ?_⟩
  have unlike : blockno ≠ m.log.block[tail] := by
    rintro rfl
    have kept := distinct.sublist (List.drop_sublist tail m.log.block)
    rw [next_] at kept
    exact (List.nodup_cons.mp kept).1 later
  rw [refs blockno unlike]
  exact pinned running blockno (by rw [next_]; exact List.mem_cons_of_mem _ later)

theorem writeFromCacheToLog_refines (sim : Sim s m handed)
    (apart : ∀ blockno ∈ m.log.block, OutsideLog m.log.start (m.log.n + 1) blockno)
    (free : ∀ blockno ∈ m.log.block, handed blockno = none)
    (freeLog : ∀ index ≤ m.log.n, handed (m.log.start + index) = none) :
    Refines (BufCache.writeFromCacheToLog clock) s (writeFromCacheToLog ·) m
      fun _ _ after next => Sim after next handed ∧ next.refs = m.refs ∧ next.log = m.log := by
  unfold BufCache.writeFromCacheToLog writeFromCacheToLog
  refine Refines.get ?_
  rw [sim.log]
  refine Refines.forRange (fun _ after next => Sim after next handed ∧ next.refs = m.refs ∧ next.log = m.log) ⟨sim, rfl, rfl⟩ ?_
  rintro tail after next _ high ⟨sim, refs, log⟩
  have inside : tail < m.log.block.length := by simpa [Fslog.n] using high
  have listed := List.getElem_mem inside
  have source : m.log.block.getD tail 0 = m.log.block[tail] := by simp [List.getD, inside]
  have away : m.log.start + tail + 1 ≠ m.log.block[tail] := fun same => by
    have := apart _ listed
    simp only [OutsideLog, Fslog.n] at this
    omega
  rw [source]
  refine (copyRound_refines clock sim away (freeLog (tail + 1) (by simp only [Fslog.n]; omega)) (free _ listed)).mono ?_
  rintro _ _ _ _ ⟨sim', refs', log'⟩
  exact ⟨sim', refs'.trans refs, log'.trans log⟩

theorem writeLogHeaderToDisk_refines (sim : Sim s m handed) (free : handed m.log.start = none) :
    Refines (BufCache.writeLogHeaderToDisk clock) s (writeLogHeaderToDisk ·) m
      fun _ _ after next => Sim after next handed ∧ next.refs = m.refs ∧ next.log = m.log := by
  unfold BufCache.writeLogHeaderToDisk writeLogHeaderToDisk
  refine Refines.get ?_
  rw [sim.log]
  refine Refines.bind (bread_refines sim free) fun buf lh s₁ m₁ ⟨sim₁, read, refs₁, log₁, _, _⟩ => ?_
  have out : Function.update handed m.log.start (some buf) m.log.start = some buf := Function.update_self _ _ _
  refine Refines.step (rfl : BufCache.data buf s₁ = (.ok (s₁.bcache.buf buf).data, s₁)) ?_
  rw [← read]
  refine Refines.bind (setData_refines sim₁ out _) fun _ _ s₂ m₂ ⟨sim₂, _, refs₂, log₂⟩ => ?_
  refine Refines.bind (bwrite_refines sim₂ out) fun _ _ s₃ m₃ ⟨sim₃, refs₃, log₃⟩ => ?_
  refine (brelse_refines clock sim₃ out).mono fun _ _ s₄ m₄ ⟨sim₄, refs₄, log₄⟩ => ?_
  rw [handed_back_one free] at sim₄
  refine ⟨sim₄, ?_, by rw [log₄, log₃, log₂, log₁]⟩
  rw [refs₄, refs₃, refs₂, refs₁]
  exact refs_back_one m.refs m.log.start

theorem setLog_refines (sim : Sim s m handed) (change : Fslog → Fslog) :
    Refines (modify fun s => { s with log := change s.log }) s (fun _ => modify fun m => { m with log := change m.log }) m
      fun _ _ after next => Sim after next handed ∧ next.refs = m.refs ∧ next.log = change m.log := by
  have also : (modify fun m => { m with log := change m.log } : LogM Unit) m =
      (.ok (), { m with log := change m.log }) := rfl
  have log : change s.log = change m.log := congrArg change sim.log
  exact Refines.both rfl (fun _ => also) rfl ⟨⟨sim.serves, sim.disk, log, sim.written⟩, rfl, rfl⟩

theorem readLogHeaderFromDisk_refines (sim : Sim s m handed) (free : handed m.log.start = none) (clean : m.view.Clean)
    (room : headerN (m.contents m.log.start) ≤ NLOG) :
    Refines (BufCache.readLogHeaderFromDisk clock) s (readLogHeaderFromDisk ·) m
      fun _ _ after next => Sim after next handed ∧ next.refs = m.refs ∧
        next.log = { m.log with block := headerBlocks (m.contents m.log.start) } := by
  unfold BufCache.readLogHeaderFromDisk readLogHeaderFromDisk
  refine Refines.get ?_
  rw [sim.log]
  refine Refines.bind (bread_refines sim free) fun buf lh s₁ m₁ ⟨sim₁, read, refs₁, log₁, _, found⟩ => ?_
  have out : Function.update handed m.log.start (some buf) m.log.start = some buf := Function.update_self _ _ _
  refine Refines.step (rfl : BufCache.data buf s₁ = (.ok (s₁.bcache.buf buf).data, s₁)) ?_
  rw [← read, if_neg (by rw [found clean]; omega), if_neg (by rw [found clean]; omega)]
  refine Refines.bind (setLog_refines sim₁ fun log => { log with block := headerBlocks lh }) fun _ _ s₂ m₂ ⟨sim₂, refs₂, log₂⟩ => ?_
  refine (brelse_refines clock sim₂ out).mono fun _ _ s₃ m₃ ⟨sim₃, refs₃, log₃⟩ => ?_
  rw [handed_back_one free] at sim₃
  refine ⟨sim₃, ?_, by rw [log₃, log₂, log₁, found clean]⟩
  rw [refs₃, refs₂, refs₁]
  exact refs_back_one m.refs m.log.start

/-- What a commit finds: the listed blocks outside the log, pinned and in nobody's hands. -/
structure Committable (m : Machine) (handed : Nat → Option Handle) : Prop where
  apart : ∀ blockno ∈ m.log.block, OutsideLog m.log.start (m.log.n + 1) blockno
  distinct : m.log.block.Nodup
  pinned : ∀ blockno ∈ m.log.block, 0 < m.refs blockno
  free : ∀ blockno ∈ m.log.block, handed blockno = none
  freeLog : ∀ index ≤ m.log.n, handed (m.log.start + index) = none

theorem commit_refines (sim : Sim s m handed) (committable : m.log.n > 0 → Committable m handed) :
    Refines (BufCache.commit clock) s (commit ·) m fun _ _ after next => Sim after next handed := by
  unfold BufCache.commit commit
  refine Refines.get ?_
  rw [sim.log]
  by_cases some : m.log.n > 0
  case neg =>
    simp only [if_neg some]
    exact Refines.pure sim
  simp only [if_pos some]
  have ready := committable some
  have freeStart : handed m.log.start = none := ready.freeLog 0 (Nat.zero_le _)
  refine Refines.bind (writeFromCacheToLog_refines clock sim ready.apart ready.free ready.freeLog)
    fun _ _ s₁ m₁ ⟨sim₁, refs₁, log₁⟩ => ?_
  refine Refines.bind (writeLogHeaderToDisk_refines clock sim₁ (by rw [log₁]; exact freeStart))
    fun _ _ s₂ m₂ ⟨sim₂, refs₂, log₂⟩ => ?_
  have log : m₂.log = m.log := log₂.trans log₁
  have refs : m₂.refs = m.refs := refs₂.trans refs₁
  refine Refines.bind (installTransaction_refines clock false sim₂ (by rw [log]; exact ready.apart)
    (by rw [log]; exact ready.free) (by rw [log]; exact ready.freeLog) (by rw [log]; exact ready.distinct)
    fun _ => by rw [log, refs]; exact ready.pinned) fun _ _ s₃ m₃ ⟨sim₃, log₃⟩ => ?_
  refine Refines.bind (setLog_refines sim₃ fun log => { log with block := [] }) fun _ _ s₄ m₄ ⟨sim₄, _, log₄⟩ => ?_
  have start : m₄.log.start = m.log.start := by rw [log₄, log₃, log]
  exact (writeLogHeaderToDisk_refines clock sim₄ (by rw [start]; exact freeStart)).mono fun _ _ _ _ done => done.1

/-- `log_init` with nobody holding a buffer. -/
theorem recoverFromLog_refines (sim : Sim s m fun _ => none) (clean : m.view.Clean)
    (room : headerN (m.contents m.log.start) ≤ NLOG)
    (apart : ∀ blockno ∈ headerBlocks (m.contents m.log.start),
      OutsideLog m.log.start ((headerBlocks (m.contents m.log.start)).length + 1) blockno)
    (distinct : (headerBlocks (m.contents m.log.start)).Nodup) :
    Refines (BufCache.recoverFromLog clock) s (recoverFromLog ·) m fun _ _ after next => Sim after next fun _ => none := by
  unfold BufCache.recoverFromLog recoverFromLog
  refine Refines.bind (readLogHeaderFromDisk_refines clock sim rfl clean room) fun _ _ s₁ m₁ ⟨sim₁, _, log₁⟩ => ?_
  refine Refines.bind (installTransaction_refines clock true sim₁ (by rw [log₁]; exact apart) (fun _ _ => rfl)
    (fun _ _ => rfl) (by rw [log₁]; exact distinct) (by simp)) fun _ _ s₂ m₂ ⟨sim₂, _⟩ => ?_
  refine Refines.bind (setLog_refines sim₂ fun log => { log with block := [] }) fun _ _ s₃ m₃ ⟨sim₃, _, _⟩ => ?_
  exact (writeLogHeaderToDisk_refines clock sim₃ rfl).mono fun _ _ _ _ done => done.1

theorem loggedWrite_refines {blockno : Nat} {b : Handle} (sim : Sim s m handed) (out : handed blockno = some b)
    (room : m.log.tooBig = false) (inside : ¬ m.log.outstanding < 1) :
    Refines (BufCache.loggedWrite b) s (fun _ => loggedWrite blockno) m fun _ _ after next => Sim after next handed := by
  have named := sim.handed_blockno out
  unfold BufCache.loggedWrite loggedWrite
  refine Refines.get ?_
  rw [sim.log, named]
  simp only [room, Bool.false_eq_true, if_false, if_neg inside]
  by_cases listed : blockno ∈ m.log.block
  · simp only [if_pos listed]
    exact (setLog_refines sim fun log => log.absorb blockno).mono fun _ _ _ _ done => done.1
  · simp only [if_neg listed]
    refine Refines.bind (bpin_refines sim out) fun _ _ s₁ m₁ ⟨sim₁, _, _⟩ => ?_
    exact (setLog_refines sim₁ fun log => log.absorb blockno).mono fun _ _ _ _ done => done.1

end Myfuse
