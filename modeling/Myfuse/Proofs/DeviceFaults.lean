import Myfuse.Proofs.DeviceRounds

/-! Which transactions survive the raw writes that fail during their commit. -/

namespace Myfuse.DeviceFaults
open Library Library.Exec

variable (fails : Nat → Bool) (recycled : Nat → Nat → Bool)

/-- What every commit starts with: distinct pinned blocks outside the log, within its header. -/
structure Ready (m : Machine) : Prop where
  pinned : ∀ blockno ∈ m.log.block, 0 < m.refs blockno
  distinct : m.log.block.Nodup
  outside : ∀ blockno ∈ m.log.block, OutsideLog m.log.start (m.log.n + 1) blockno
  fits : m.log.n ≤ NLOG
  small : ∀ blockno ∈ m.log.block, blockno < 2 ^ 32

/-- The raw write number `index` of the commit fails. -/
def failsAt (m : Machine) (index : Nat) : Bool := fails (m.written.length + index)

/-- The buffer of log copy `tail` is recycled between its write and its install. -/
def dropped (m : Machine) (tail : Nat) : Bool :=
  m.refs (m.log.start + tail + 1) == 0 &&
    (List.range (2 * m.log.n)).any fun later => recycled (m.tick + 2 * tail + 2 + later) (m.log.start + tail + 1)

/-- What the install of the listed block `blockno` finds in log buffer `tail`: the block's new contents,
unless the copy's raw write failed and its buffer is gone. -/
def loaded (m : Machine) (tail blockno : Nat) : Block :=
  if failsAt fails m tail && dropped recycled m tail then m.disk (m.log.start + tail + 1) else m.contents blockno

/-- The raw writes of the install. -/
def installs (m : Machine) : List (Nat × Block) :=
  m.log.block.mapIdx fun tail blockno => (blockno, loaded fails recycled m tail blockno)

def copies (m : Machine) : List (Nat × Block) := logCopies m.log.start m.log.block m.contents

/-- A buffer some `bread` calls after it was released. -/
def keptFor (since blockno : Nat) (buf : Buf) (count : Nat) : Option Buf :=
  if buf.refcnt == 0 && (List.range count).any fun later => recycled (since + later) blockno then none else some buf

theorem keptFor_zero (since blockno : Nat) (buf : Buf) : keptFor recycled since blockno buf 0 = some buf := by
  simp [keptFor]

theorem aged_keptFor (since blockno : Nat) (buf : Buf) (count : Nat) :
    aged recycled (since + count) blockno (keptFor recycled since blockno buf count) =
      keptFor recycled since blockno buf (count + 1) := by
  unfold keptFor aged
  rw [List.range_succ, List.any_append]
  cases zero : buf.refcnt == 0 <;>
    cases (List.range count).any fun later => recycled (since + later) blockno <;>
      cases last : recycled (since + count) blockno <;>
        simp_all [Option.filter_some]

theorem refs_of_cache {m after : Machine} {blockno tick : Nat}
    (cache : after.cache blockno = aged recycled tick blockno (m.cache blockno)) : after.refs blockno = m.refs blockno := by
  have same := Machine.refs_recycle recycled { m with tick } blockno
  simp only [Machine.refs, cache_recycle] at same ⊢
  rw [cache]
  exact same

variable {m cur after : Machine}

/-- The loop of `write_from_cache_to_log` after `tail` rounds. -/
structure Copying (m cur : Machine) (tail : Nat) : Prop where
  log : cur.log = m.log
  written : cur.written = m.written ++ (copies m).take tail
  disk : cur.disk = faultyWrites fails m.written.length m.disk ((copies m).take tail)
  tick : cur.tick = m.tick + 2 * tail
  pinned : ∀ blockno ∈ m.log.block, cur.cache blockno = m.cache blockno
  refs : ∀ index, tail ≤ index → index < m.log.n → cur.refs (m.log.start + index + 1) = m.refs (m.log.start + index + 1)
  kept : ∀ index (inside : index < m.log.block.length), index < tail → cur.cache (m.log.start + index + 1) =
    keptFor recycled (m.tick + 2 * index + 2) (m.log.start + index + 1)
      { data := m.contents m.log.block[index], refcnt := m.refs (m.log.start + index + 1) } (2 * (tail - index - 1))

variable {fails recycled}

theorem Round.refs {target source : Nat} {data : Block} (round : Round fails recycled cur after target source data)
    {other : Nat} (notTarget : other ≠ target) (notSource : other ≠ source) : after.refs other = cur.refs other := by
  have first : ({ cur with cache := fun b => aged recycled cur.tick b (cur.cache b) } : Machine).refs other = cur.refs other :=
    refs_of_cache recycled rfl
  rw [← first]
  exact refs_of_cache recycled (round.others other notTarget notSource)

theorem Round.pinned {target source : Nat} {data : Block} (round : Round fails recycled cur after target source data)
    {other : Nat} (notTarget : other ≠ target) (notSource : other ≠ source) {buf : Buf}
    (found : cur.cache other = some buf) (held : 0 < buf.refcnt) : after.cache other = some buf := by
  rw [round.others other notTarget notSource, found, aged_held recycled held, aged_held recycled held]

theorem Ready.found (ready : Ready m) {blockno : Nat} (listed : blockno ∈ m.log.block) :
    ∃ buf, m.cache blockno = some buf ∧ 0 < buf.refcnt ∧ buf.data = m.contents blockno := by
  have held := ready.pinned blockno listed
  obtain ⟨buf, found⟩ := Machine.refs_pos held
  exact ⟨buf, found, by simpa [Machine.refs, found] using held, by simp [Machine.contents, found]⟩

theorem Ready.apart (ready : Ready m) {blockno index : Nat} (listed : blockno ∈ m.log.block) (inside : index ≤ m.log.n) :
    blockno ≠ m.log.start + index := by
  have := ready.outside blockno listed
  simp only [OutsideLog] at this
  omega

/-- One round of `write_from_cache_to_log`. -/
theorem Copying.round (ready : Ready m) {tail : Nat} (copying : Copying fails recycled m cur tail)
    (inside : tail < m.log.block.length)
    (round : Round fails recycled cur after (m.log.start + tail + 1) m.log.block[tail] (m.contents m.log.block[tail]))
    (target : after.cache (m.log.start + tail + 1) =
      some { data := m.contents m.log.block[tail], refcnt := cur.refs (m.log.start + tail + 1) })
    (source : after.cache m.log.block[tail] = cur.cache m.log.block[tail]) :
    Copying fails recycled m after (tail + 1) := by
  have bound : tail < (copies m).length := by simpa [copies] using inside
  have write : (copies m)[tail] = (m.log.start + tail + 1, m.contents m.log.block[tail]) := by simp [copies, logCopies]
  have listed := List.getElem_mem inside
  have slot : ∀ index, index < m.log.n → m.log.start + index + 1 ≠ m.log.block[tail] := fun index small same =>
    ready.apart listed (by omega : index + 1 ≤ m.log.n) (by omega)
  constructor
  case log => rw [round.log, copying.log]
  case written => rw [round.written, copying.written, take_next bound, write, List.append_assoc]
  case disk =>
    have length : cur.written.length = m.written.length + ((copies m).take tail).length := by
      rw [copying.written, List.length_append]
    rw [round.disk, copying.disk, take_next bound, write, faultyWrites_append, length]
  case tick => rw [round.tick, copying.tick]; omega
  case pinned =>
    intro blockno member
    by_cases same : blockno = m.log.block[tail]
    · rw [same, source, copying.pinned _ listed]
    · obtain ⟨buf, found, held, _⟩ := ready.found member
      have away : blockno ≠ m.log.start + tail + 1 := ready.apart member (by simp only [Fslog.n]; omega : tail + 1 ≤ m.log.n)
      rw [found]
      exact round.pinned away same ((copying.pinned blockno member).trans found) held
  case refs =>
    intro index low high
    rw [round.refs (by omega) (slot index high), copying.refs index (by omega) high]
  case kept =>
    intro index small low
    by_cases same : index = tail
    · subst same
      rw [target, copying.refs index (Nat.le_refl _) small, show 2 * (index + 1 - index - 1) = 0 by omega, keptFor_zero]
    · have before := copying.kept index small (by omega)
      rw [round.others _ (by omega) (slot index small), before, copying.tick]
      have ticks : m.tick + 2 * tail = m.tick + 2 * index + 2 + 2 * (tail - index - 1) := by omega
      rw [ticks, aged_keptFor, Nat.add_assoc, aged_keptFor]
      congr 1
      omega

theorem writeFromCacheToLog_eq (ready : Ready m) :
    Ensures (writeFromCacheToLog fails recycled) m (fun _ after => Copying fails recycled m after m.log.n) fun _ _ => False := by
  unfold writeFromCacheToLog
  rw [ensures_bind, ensures_get]
  refine (Ensures.forRange (fun tail cur => Copying fails recycled m cur tail) ?_
    fun tail cur _ high copying => ?_).weaken fun _ _ copied => Nat.zero_add m.log.n ▸ copied
  · exact ⟨rfl, by simp, by simp, rfl, fun _ _ => rfl, fun _ _ _ => rfl, fun _ _ none => by omega⟩
  have inside : tail < m.log.block.length := by simpa [Fslog.n] using high
  have listed := List.getElem_mem inside
  obtain ⟨buf, found, held, data⟩ := ready.found listed
  have away : m.log.start + tail + 1 ≠ m.log.block[tail] := fun same =>
    ready.apart listed (by simp only [Fslog.n]; omega : tail + 1 ≤ m.log.n) (by omega)
  have here := (copying.pinned _ listed).trans found
  obtain ⟨after, ran, round, target, source⟩ := copyRound_eq fails recycled away here held
  have source_eq : m.log.block.getD tail 0 = m.log.block[tail] := by simp [List.getD, inside]
  rw [source_eq, ensures_of_ok ran]
  rw [data] at round target
  exact copying.round ready inside round target (source.trans here.symm)

/-- The loop of `install_transaction` after `tail` rounds. -/
structure Installing (fails : Nat → Bool) (recycled : Nat → Nat → Bool) (header : Block) (m cur : Machine) (tail : Nat) :
    Prop where
  log : cur.log = m.log
  written : cur.written = m.written ++ (copies m ++ (m.log.start, header) :: (installs fails recycled m).take tail)
  disk : cur.disk = faultyWrites fails m.written.length m.disk
    (copies m ++ (m.log.start, header) :: (installs fails recycled m).take tail)
  tick : cur.tick = m.tick + 2 * m.log.n + 1 + 2 * tail
  pinned : ∀ blockno ∈ m.log.block.drop tail, cur.cache blockno = m.cache blockno
  kept : ∀ index (inside : index < m.log.block.length), tail ≤ index → cur.cache (m.log.start + index + 1) =
    keptFor recycled (m.tick + 2 * index + 2) (m.log.start + index + 1)
      { data := m.contents m.log.block[index], refcnt := m.refs (m.log.start + index + 1) }
      (2 * (m.log.n - index - 1) + 1 + 2 * tail)

theorem copies_length (m : Machine) : (copies m).length = m.log.n := by simp [copies, Fslog.n]

theorem copies_addresses (m : Machine) : ((copies m).map Prod.fst).Nodup := logCopies_addresses _ _ _

theorem installs_length (m : Machine) : (installs fails recycled m).length = m.log.n := by simp [installs, Fslog.n]

variable (fails recycled) in
/-- A log block during the install, by whether its copy reached the disk. -/
theorem copied_on_disk (ready : Ready m) (header : Block) {index : Nat} (inside : index < m.log.block.length) (tail : Nat) :
    faultyWrites fails m.written.length m.disk (copies m ++ (m.log.start, header) :: (installs fails recycled m).take tail)
        (m.log.start + index + 1) =
      if failsAt fails m index then m.disk (m.log.start + index + 1) else m.contents m.log.block[index] := by
  have bound : index < (copies m).length := by simpa [copies] using inside
  have write : (copies m)[index] = (m.log.start + index + 1, m.contents m.log.block[index]) := by simp [copies, logCopies]
  rw [faultyWrites_append, faultyWrites_other]
  · have here := faultyWrites_getElem fails m.written.length m.disk (copies_addresses m) bound
    rw [write] at here
    exact here
  · intro other member same
    rcases List.mem_cons.mp member with rfl | member
    · simp only at same
      omega
    · obtain ⟨tail, small, rfl⟩ := List.mem_mapIdx.mp (List.mem_of_mem_take member)
      exact ready.apart (List.getElem_mem small) (by simp only [Fslog.n]; omega : index + 1 ≤ m.log.n) same

theorem drop_listed {blocks : List Nat} {tail blockno : Nat} (listed : blockno ∈ blocks.drop tail) : blockno ∈ blocks :=
  List.mem_of_mem_drop listed

/-- One round of `install_transaction`. -/
theorem Installing.round (ready : Ready m) {header : Block} {tail : Nat}
    (installing : Installing fails recycled header m cur tail) (inside : tail < m.log.block.length)
    (round : Round fails recycled cur after m.log.block[tail] (m.log.start + tail + 1)
      ((cur.recycle recycled).contents (m.log.start + tail + 1))) :
    Installing fails recycled header m after (tail + 1) := by
  have listed := List.getElem_mem inside
  have bound : tail < (installs fails recycled m).length := by simpa [installs] using inside
  have write : (installs fails recycled m)[tail] = (m.log.block[tail], loaded fails recycled m tail m.log.block[tail]) := by
    simp [installs]
  -- The log buffer has aged by all the `bread` calls since its copy was made.
  have found : (cur.recycle recycled).contents (m.log.start + tail + 1) = loaded fails recycled m tail m.log.block[tail] := by
    have aging := installing.kept tail inside (Nat.le_refl _)
    have onDisk := copied_on_disk fails recycled ready header inside tail
    rw [← installing.disk] at onDisk
    have ticks : cur.tick = m.tick + 2 * tail + 2 + (2 * (m.log.n - tail - 1) + 1 + 2 * tail) := by
      have := installing.tick
      simp only [Fslog.n] at this ⊢
      omega
    have count : 2 * (m.log.n - tail - 1) + 1 + 2 * tail + 1 = 2 * m.log.n := by
      simp only [Fslog.n]
      omega
    have cached : (cur.recycle recycled).cache (m.log.start + tail + 1) = keptFor recycled (m.tick + 2 * tail + 2)
        (m.log.start + tail + 1)
        { data := m.contents m.log.block[tail], refcnt := m.refs (m.log.start + tail + 1) } (2 * m.log.n) := by
      rw [cache_recycle, aging, ticks, aged_keptFor, count]
    have fate : keptFor recycled (m.tick + 2 * tail + 2) (m.log.start + tail + 1)
        { data := m.contents m.log.block[tail], refcnt := m.refs (m.log.start + tail + 1) } (2 * m.log.n) =
        if dropped recycled m tail then none
        else some { data := m.contents m.log.block[tail], refcnt := m.refs (m.log.start + tail + 1) } := rfl
    have disk : (cur.recycle recycled).disk = cur.disk := rfl
    rw [Machine.contents, cached, fate, loaded]
    cases gone : dropped recycled m tail
    · simp
    · simp [disk, onDisk]
  constructor
  case log => rw [round.log, installing.log]
  case written =>
    rw [round.written, installing.written, take_next bound, write, found]
    simp
  case disk =>
    have length : cur.written.length = m.written.length +
        (copies m ++ (m.log.start, header) :: (installs fails recycled m).take tail).length := by
      rw [installing.written, List.length_append]
    rw [round.disk, installing.disk, take_next bound, write, found, length, ← faultyWrites_append]
    simp
  case tick => rw [round.tick, installing.tick]; omega
  case pinned =>
    intro blockno member
    rw [List.drop_add_one_eq_tail_drop] at member
    have before : blockno ∈ m.log.block.drop tail := List.mem_of_mem_tail member
    obtain ⟨buf, here, held, _⟩ := ready.found (drop_listed before)
    have apart : blockno ≠ m.log.block[tail] := by
      rintro rfl
      have kept := ready.distinct.sublist (List.drop_sublist tail m.log.block)
      rw [List.drop_eq_getElem_cons inside] at kept member
      exact (List.nodup_cons.mp kept).1 member
    have away : blockno ≠ m.log.start + tail + 1 :=
      ready.apart (drop_listed before) (by simp only [Fslog.n]; omega : tail + 1 ≤ m.log.n)
    rw [here]
    exact Round.pinned round apart away ((installing.pinned blockno before).trans here) held
  case kept =>
    intro index small low
    have away : m.log.start + index + 1 ≠ m.log.block[tail] := fun same =>
      ready.apart listed (by simp only [Fslog.n]; omega : index + 1 ≤ m.log.n) (by omega)
    rw [round.others _ away (by omega), installing.kept index small (by omega), installing.tick]
    have ticks : m.tick + 2 * m.log.n + 1 + 2 * tail =
        m.tick + 2 * index + 2 + (2 * (m.log.n - index - 1) + 1 + 2 * tail) := by
      simp only [Fslog.n]
      omega
    rw [ticks, aged_keptFor, Nat.add_assoc (m.tick + 2 * index + 2), aged_keptFor]
    congr 1

/-- The header is written after the copies; the log buffers age by one more `bread`. -/
theorem Copying.header (ready : Ready m) {header : Block} (copying : Copying fails recycled m cur m.log.n)
    (written : HeaderWritten fails recycled cur after header) : Installing fails recycled header m after 0 := by
  have all : (copies m).take m.log.n = copies m := List.take_of_length_le (Nat.le_of_eq (copies_length m))
  have start : cur.log.start = m.log.start := by rw [copying.log]
  constructor
  case log => rw [written.log, copying.log]
  case written =>
    rw [written.written, copying.written, all, start, List.append_assoc]
    rfl
  case disk =>
    have length : cur.written.length = m.written.length + (copies m).length := by
      rw [copying.written, all, List.length_append]
    rw [written.disk, copying.disk, all, start, length, ← faultyWrites_append]
    rfl
  case tick => rw [written.tick, copying.tick]
  case pinned =>
    intro blockno member
    obtain ⟨buf, found, held, _⟩ := ready.found member
    have away : blockno ≠ cur.log.start := by
      rw [start]
      exact ready.apart member (Nat.zero_le _)
    rw [written.others blockno away, copying.pinned blockno member, found, aged_held recycled held]
  case kept =>
    intro index small _
    have away : m.log.start + index + 1 ≠ cur.log.start := by
      rw [start]
      omega
    have ticks : m.tick + 2 * m.log.n = m.tick + 2 * index + 2 + 2 * (m.log.n - index - 1) := by
      simp only [Fslog.n]
      omega
    rw [written.others _ away, copying.kept index small small, copying.tick, ticks, aged_keptFor]

theorem installTransaction_eq (ready : Ready m) {header : Block} (start : Installing fails recycled header m cur 0) :
    Ensures (installTransaction fails recycled false) cur
      (fun _ after => Installing fails recycled header m after m.log.n) fun _ _ => False := by
  unfold installTransaction
  rw [ensures_bind, ensures_get, start.log]
  refine (Ensures.forRange (fun tail cur => Installing fails recycled header m cur tail) start
    fun tail cur _ high installing => ?_).weaken fun _ _ installed => Nat.zero_add m.log.n ▸ installed
  have inside : tail < m.log.block.length := by simpa [Fslog.n] using high
  have listed := List.getElem_mem inside
  obtain ⟨buf, found, held, _⟩ := ready.found listed
  have away : m.log.start + tail + 1 ≠ m.log.block[tail] := fun same =>
    ready.apart listed (by simp only [Fslog.n]; omega : tail + 1 ≤ m.log.n) (by omega)
  have here : cur.cache m.log.block[tail] = some buf := by
    rw [installing.pinned _ (by rw [List.drop_eq_getElem_cons inside]; exact List.mem_cons_self), found]
  obtain ⟨after, ran, round⟩ := installRound_eq fails recycled away here held
  have source : m.log.block.getD tail 0 = m.log.block[tail] := by simp [List.getD, inside]
  simp only [source, Bool.false_eq_true, if_false]
  rw [ensures_of_ok ran]
  exact installing.round ready inside round

variable (fails recycled) in
/-- The raw writes of a commit, with the two headers it writes. -/
def attempts (m : Machine) (first last : Block) : List (Nat × Block) :=
  copies m ++ (m.log.start, first) :: (installs fails recycled m ++ [(m.log.start, last)])

/-- A commit issues its writes in order, whichever of them fail. -/
structure Committed (fails : Nat → Bool) (recycled : Nat → Nat → Bool) (m after : Machine) (first last : Block) : Prop where
  lists : headerBlocks first = m.log.block
  empties : headerBlocks last = []
  written : after.written = m.written ++ attempts fails recycled m first last
  disk : after.disk = faultyWrites fails m.written.length m.disk (attempts fails recycled m first last)

theorem commit_eq (ready : Ready m) (some : m.log.n > 0) : Ensures (commit fails recycled) m
    (fun _ after => ∃ first last, Committed fails recycled m after first last) fun _ _ => False := by
  unfold commit
  rw [ensures_bind, ensures_get, if_pos some]
  refine (writeFromCacheToLog_eq ready).bind fun _ m₁ copied => ?_
  obtain ⟨m₂, first, ran₂, header⟩ := writeLogHeaderToDisk_eq fails recycled m₁
  rw [ensures_bind, ensures_of_ok ran₂]
  refine (installTransaction_eq ready (copied.header ready header)).bind fun _ m₃ installed => ?_
  rw [ensures_bind, ensures_modify]
  obtain ⟨m₄, last, ran₄, cleared⟩ := writeLogHeaderToDisk_eq fails recycled { m₃ with log := { m₃.log with block := [] } }
  rw [ensures_of_ok ran₄]
  have all : (installs fails recycled m).take m.log.n = installs fails recycled m :=
    List.take_of_length_le (Nat.le_of_eq (installs_length m))
  have start : m₃.log.start = m.log.start := by rw [installed.log]
  refine ⟨first, last, ?_, ?_, ?_, ?_⟩
  · rw [← copied.log]
    exact header.lists (by rw [copied.log]; exact ready.fits) (by rw [copied.log]; exact ready.small)
  · exact cleared.lists (Nat.zero_le _) (by simp)
  · rw [cleared.written]
    simp only [installed.written, all, start, attempts, List.append_assoc, List.cons_append]
  · rw [cleared.disk]
    have length : m₃.written.length = m.written.length +
        (copies m ++ (m.log.start, first) :: installs fails recycled m).length := by
      rw [installed.written, all, List.length_append]
    simp only [start, length]
    rw [installed.disk, all, ← faultyWrites_append, attempts]
    simp only [List.append_assoc, List.cons_append]

/-! What the commit should keep, and when it does. -/

/-- Every log copy of the transaction is on the disk. -/
def CopiesOn (m : Machine) (disk : Nat → Block) : Prop :=
  ∀ index, ∀ inside : index < m.log.block.length, disk (m.log.start + index + 1) = m.contents m.log.block[index]

/-- Every home block of the transaction holds its new contents. -/
def HomesOn (m : Machine) (disk : Nat → Block) : Prop := ∀ blockno ∈ m.log.block, disk blockno = m.contents blockno

/-- The raw writes issued since `before`. -/
def issued (before after : Machine) : List (Nat × Block) := after.written.drop before.written.length

/-- The disk when the raw write number `index` since `before` is issued. -/
def diskAt (fails : Nat → Bool) (before after : Machine) (index : Nat) : Nat → Block :=
  faultyWrites fails before.written.length before.disk ((issued before after).take index)

/-- The transaction is not lost, and no header reaches the disk too early. -/
structure KeepsTransaction (fails : Nat → Bool) (before after : Machine) : Prop where
  outcome : (headerBlocks (after.disk before.log.start) = before.log.block ∧ CopiesOn before after.disk) ∨
    HomesOn before after.disk ∨ ∀ blockno ∈ before.log.block, after.disk blockno = before.disk blockno
  written : ∀ index header, (issued before after)[index]? = some (before.log.start, header) → headerBlocks header ≠ [] →
    failsAt fails before index = false → CopiesOn before (diskAt fails before after index)
  cleared : ∀ index header, (issued before after)[index]? = some (before.log.start, header) → headerBlocks header = [] →
    failsAt fails before index = false → HomesOn before (diskAt fails before after index)

/-- A log copy whose raw write fails was on the disk already. -/
def CopiesLand (fails : Nat → Bool) (m : Machine) : Prop :=
  ∀ index, ∀ inside : index < m.log.block.length, failsAt fails m index = true →
    m.disk (m.log.start + index + 1) = m.contents m.log.block[index]

/-- Each install writes the new contents, or fails on a block that has them. -/
def HomesLand (fails : Nat → Bool) (recycled : Nat → Nat → Bool) (m : Machine) : Prop :=
  ∀ index, ∀ inside : index < m.log.block.length,
    (if failsAt fails m (m.log.n + 1 + index) then m.disk m.log.block[index]
      else loaded fails recycled m index m.log.block[index]) = m.contents m.log.block[index]

/-- Each install fails, or writes what the block holds. -/
def HomesStay (fails : Nat → Bool) (recycled : Nat → Nat → Bool) (m : Machine) : Prop :=
  ∀ index, ∀ inside : index < m.log.block.length, failsAt fails m (m.log.n + 1 + index) = false →
    loaded fails recycled m index m.log.block[index] = m.disk m.log.block[index]

/-- The failures that a commit survives. The raw writes are numbered from the first copy: the header is number
`n`, the installs follow, and the empty header is number `2 * n + 1`. -/
def Survives (fails : Nat → Bool) (recycled : Nat → Nat → Bool) (m : Machine) : Prop :=
  (failsAt fails m m.log.n = true ∨ CopiesLand fails m) ∧
    (HomesLand fails recycled m ∨ failsAt fails m (2 * m.log.n + 1) = true ∧
      (failsAt fails m m.log.n = false ∨ HomesStay fails recycled m ∨
        headerBlocks (m.disk m.log.start) = m.log.block ∧ CopiesLand fails m))

/-! The disk after the copies, the header, the installs and the empty header. -/

section
variable (fails : Nat → Bool) (recycled : Nat → Nat → Bool) (m : Machine) (first last : Block)

def copiedDisk : Nat → Block := faultyWrites fails m.written.length m.disk (copies m)

def headedDisk : Nat → Block :=
  if failsAt fails m m.log.n then copiedDisk fails m else Function.update (copiedDisk fails m) m.log.start first

def installedDisk : Nat → Block :=
  faultyWrites fails (m.written.length + (m.log.n + 1)) (headedDisk fails m first) (installs fails recycled m)

def clearedDisk : Nat → Block :=
  if failsAt fails m (2 * m.log.n + 1) then installedDisk fails recycled m first
  else Function.update (installedDisk fails recycled m first) m.log.start last

theorem attempts_take_copies : (attempts fails recycled m first last).take m.log.n = copies m := by
  rw [attempts, ← copies_length m, List.take_left]

theorem attempts_split : attempts fails recycled m first last =
    (copies m ++ (m.log.start, first) :: installs fails recycled m) ++ [(m.log.start, last)] := by
  simp [attempts]

theorem attempts_split_length : (copies m ++ (m.log.start, first) :: installs fails recycled m).length = 2 * m.log.n + 1 := by
  rw [List.length_append, List.length_cons, copies_length, installs_length]
  omega

theorem installs_disk : faultyWrites fails m.written.length m.disk
    (copies m ++ (m.log.start, first) :: installs fails recycled m) = installedDisk fails recycled m first := by
  rw [faultyWrites_append, faultyWrites_cons, copies_length, Nat.add_assoc]
  rfl

theorem attempts_take_installs : (attempts fails recycled m first last).take (2 * m.log.n + 1) =
    copies m ++ (m.log.start, first) :: installs fails recycled m := by
  rw [attempts_split, ← attempts_split_length fails recycled m first, List.take_left]

theorem attempts_disk : faultyWrites fails m.written.length m.disk (attempts fails recycled m first last) =
    clearedDisk fails recycled m first last := by
  rw [attempts_split, faultyWrites_append, installs_disk, attempts_split_length, faultyWrites_singleton]
  rfl

/-- Only the two header writes go to the header block. -/
theorem attempts_header (ready : Ready m) {index : Nat} {header : Block}
    (found : (attempts fails recycled m first last)[index]? = some (m.log.start, header)) :
    (index = m.log.n ∧ header = first) ∨ (index = 2 * m.log.n + 1 ∧ header = last) := by
  rw [attempts] at found
  by_cases early : index < (copies m).length
  · rw [List.getElem?_append_left early] at found
    obtain ⟨tail, _, same⟩ := mem_logCopies (List.mem_of_getElem? found)
    have := congrArg Prod.fst same
    simp only at this
    omega
  rw [List.getElem?_append_right (Nat.not_lt.mp early), copies_length] at found
  rw [copies_length] at early
  rcases Nat.eq_or_lt_of_le (Nat.not_lt.mp early) with same | later
  · rw [← same, Nat.sub_self, List.getElem?_cons_zero, Option.some.injEq, Prod.mk.injEq] at found
    exact .inl ⟨same.symm, found.2.symm⟩
  obtain ⟨offset, shift⟩ : ∃ offset, index - m.log.n = offset + 1 := ⟨index - m.log.n - 1, by omega⟩
  rw [shift, List.getElem?_cons_succ] at found
  by_cases installing : offset < (installs fails recycled m).length
  · rw [List.getElem?_append_left installing] at found
    obtain ⟨tail, inside, same⟩ := List.mem_mapIdx.mp (List.mem_of_getElem? found)
    have here := congrArg Prod.fst same
    exact absurd here (ready.apart (List.getElem_mem inside) (Nat.zero_le _))
  rw [List.getElem?_append_right (Nat.not_lt.mp installing), installs_length] at found
  rw [installs_length] at installing
  obtain ⟨inside, same⟩ := List.getElem?_eq_some_iff.mp found
  rw [List.length_singleton] at inside
  have zero : offset - m.log.n = 0 := by omega
  simp only [zero, List.getElem_cons_zero, Prod.mk.injEq] at same
  exact .inr ⟨by omega, same.2.symm⟩

theorem copiedDisk_slot {index : Nat} (inside : index < m.log.block.length) :
    copiedDisk fails m (m.log.start + index + 1) =
      if failsAt fails m index then m.disk (m.log.start + index + 1) else m.contents m.log.block[index] := by
  have bound : index < (copies m).length := by simpa [copies] using inside
  have write : (copies m)[index] = (m.log.start + index + 1, m.contents m.log.block[index]) := by simp [copies, logCopies]
  have here := faultyWrites_getElem fails m.written.length m.disk (copies_addresses m) bound
  rw [write] at here
  exact here

theorem copiedDisk_other {blockno : Nat} (away : ∀ index < m.log.n, blockno ≠ m.log.start + index + 1) :
    copiedDisk fails m blockno = m.disk blockno := by
  refine faultyWrites_other fails _ fun write member same => ?_
  obtain ⟨tail, inside, rfl⟩ := mem_logCopies member
  exact away tail inside same.symm

theorem headedDisk_other {blockno : Nat} (away : blockno ≠ m.log.start) :
    headedDisk fails m first blockno = copiedDisk fails m blockno := by
  unfold headedDisk
  split
  · rfl
  · rw [Function.update_of_ne away]

theorem clearedDisk_other {blockno : Nat} (away : blockno ≠ m.log.start) :
    clearedDisk fails recycled m first last blockno = installedDisk fails recycled m first blockno := by
  unfold clearedDisk
  split
  · rfl
  · rw [Function.update_of_ne away]

theorem installedDisk_other {blockno : Nat} (away : blockno ∉ m.log.block) :
    installedDisk fails recycled m first blockno = headedDisk fails m first blockno := by
  refine faultyWrites_other fails _ fun write member same => away ?_
  obtain ⟨tail, inside, rfl⟩ := List.mem_mapIdx.mp member
  exact same ▸ List.getElem_mem inside

theorem installedDisk_slot (ready : Ready m) {index : Nat} (inside : index < m.log.block.length) :
    installedDisk fails recycled m first (m.log.start + index + 1) = copiedDisk fails m (m.log.start + index + 1) := by
  rw [installedDisk_other, headedDisk_other _ _ _ (by omega)]
  exact fun listed => ready.apart listed (by simp only [Fslog.n]; omega : index + 1 ≤ m.log.n) rfl

theorem installedDisk_home (ready : Ready m) {index : Nat} (inside : index < m.log.block.length) :
    installedDisk fails recycled m first m.log.block[index] =
      if failsAt fails m (m.log.n + 1 + index) then m.disk m.log.block[index]
      else loaded fails recycled m index m.log.block[index] := by
  have bound : index < (installs fails recycled m).length := by simpa [installs] using inside
  have write : (installs fails recycled m)[index] = (m.log.block[index], loaded fails recycled m index m.log.block[index]) := by
    simp [installs]
  have addresses : (installs fails recycled m).map Prod.fst = m.log.block := by
    refine List.ext_getElem (by simp [installs]) fun tail _ _ => ?_
    simp [installs]
  have listed := List.getElem_mem inside
  have here := faultyWrites_getElem fails (m.written.length + (m.log.n + 1)) (headedDisk fails m first)
    (by rw [addresses]; exact ready.distinct) bound
  have away : m.log.block[index] ≠ m.log.start := ready.apart listed (Nat.zero_le _)
  have other : ∀ tail < m.log.n, m.log.block[index] ≠ m.log.start + tail + 1 := fun tail small same =>
    ready.apart listed (by omega : tail + 1 ≤ m.log.n) same
  rw [write, headedDisk_other fails m first away, copiedDisk_other fails m other, Nat.add_assoc, Nat.add_assoc] at here
  rw [failsAt, Nat.add_assoc]
  exact here

theorem installedDisk_header (ready : Ready m) : installedDisk fails recycled m first m.log.start =
    if failsAt fails m m.log.n then m.disk m.log.start else first := by
  have away : m.log.start ∉ m.log.block := fun listed => ready.apart listed (Nat.zero_le _) rfl
  rw [installedDisk_other fails recycled m first away]
  unfold headedDisk
  split
  · exact copiedDisk_other fails m fun _ _ => by omega
  · exact Function.update_self _ _ _

end

theorem copiesOn_copied : CopiesOn m (copiedDisk fails m) ↔ CopiesLand fails m := by
  refine forall_congr' fun index => forall_congr' fun inside => ?_
  rw [copiedDisk_slot fails m inside]
  cases failsAt fails m index <;> simp

theorem homesOn_installed (ready : Ready m) (first : Block) :
    HomesOn m (installedDisk fails recycled m first) ↔ HomesLand fails recycled m := by
  constructor
  · intro homes index inside
    rw [← installedDisk_home fails recycled m first ready inside]
    exact homes _ (List.getElem_mem inside)
  · intro lands blockno listed
    obtain ⟨index, inside, rfl⟩ := List.mem_iff_getElem.mp listed
    rw [installedDisk_home fails recycled m first ready inside]
    exact lands index inside

variable {first last : Block}

theorem Committed.issued_eq (committed : Committed fails recycled m after first last) :
    issued m after = attempts fails recycled m first last := by
  rw [issued, committed.written, List.drop_left]

theorem Committed.atHeader (committed : Committed fails recycled m after first last) :
    diskAt fails m after m.log.n = copiedDisk fails m := by
  rw [diskAt, committed.issued_eq, attempts_take_copies]
  rfl

theorem Committed.atClear (committed : Committed fails recycled m after first last) :
    diskAt fails m after (2 * m.log.n + 1) = installedDisk fails recycled m first := by
  rw [diskAt, committed.issued_eq, attempts_take_installs, installs_disk]

theorem Committed.disk_eq (committed : Committed fails recycled m after first last) :
    after.disk = clearedDisk fails recycled m first last := by
  rw [committed.disk, attempts_disk]

/-- The install and the empty header leave the log copies alone. -/
theorem Committed.copiesOn (committed : Committed fails recycled m after first last) (ready : Ready m) :
    CopiesOn m after.disk ↔ CopiesLand fails m := by
  rw [← copiesOn_copied, committed.disk_eq]
  refine forall_congr' fun index => forall_congr' fun inside => ?_
  rw [clearedDisk_other fails recycled m first last (by omega), installedDisk_slot fails recycled m first ready inside]

theorem Committed.home (committed : Committed fails recycled m after first last) (ready : Ready m) {blockno : Nat}
    (listed : blockno ∈ m.log.block) : after.disk blockno = installedDisk fails recycled m first blockno := by
  rw [committed.disk_eq]
  exact clearedDisk_other fails recycled m first last (ready.apart listed (Nat.zero_le _))

theorem Committed.homesOn (committed : Committed fails recycled m after first last) (ready : Ready m) :
    HomesOn m after.disk ↔ HomesLand fails recycled m := by
  rw [← homesOn_installed ready first]
  exact forall_congr' fun blockno => forall_congr' fun listed => by rw [committed.home ready listed]

theorem Committed.homesStay (committed : Committed fails recycled m after first last) (ready : Ready m) :
    (∀ blockno ∈ m.log.block, after.disk blockno = m.disk blockno) ↔ HomesStay fails recycled m := by
  constructor
  · intro stay index inside lands
    have here := stay _ (List.getElem_mem inside)
    rw [committed.home ready (List.getElem_mem inside), installedDisk_home fails recycled m first ready inside, lands] at here
    exact here
  · intro stay blockno listed
    obtain ⟨index, inside, rfl⟩ := List.mem_iff_getElem.mp listed
    rw [committed.home ready listed, installedDisk_home fails recycled m first ready inside]
    split
    · rfl
    next lands => exact stay index inside (Bool.not_eq_true _ ▸ lands)

theorem Committed.header (committed : Committed fails recycled m after first last) (ready : Ready m) :
    after.disk m.log.start =
      if failsAt fails m (2 * m.log.n + 1) then if failsAt fails m m.log.n then m.disk m.log.start else first
      else last := by
  rw [committed.disk_eq]
  unfold clearedDisk
  split
  · exact installedDisk_header fails recycled m first ready
  · exact Function.update_self _ _ _

theorem Committed.keeps_iff (committed : Committed fails recycled m after first last) (ready : Ready m)
    (some : m.log.n > 0) : KeepsTransaction fails m after ↔ Survives fails recycled m := by
  have nonempty : m.log.block ≠ [] := List.length_pos_iff.mp some
  have header := committed.header ready
  have copiesOn := committed.copiesOn ready
  have homesOn := committed.homesOn ready
  have homesStay := committed.homesStay ready
  have headerAt : (issued m after)[m.log.n]? = .some (m.log.start, first) := by
    rw [committed.issued_eq, attempts, ← copies_length m, List.getElem?_append_right (Nat.le_refl _), Nat.sub_self,
      List.getElem?_cons_zero]
  have clearAt : (issued m after)[2 * m.log.n + 1]? = .some (m.log.start, last) := by
    rw [committed.issued_eq, attempts_split, ← attempts_split_length fails recycled m first,
      List.getElem?_append_right (Nat.le_refl _), Nat.sub_self, List.getElem?_cons_zero]
  constructor
  · intro keeps
    refine ⟨?_, ?_⟩
    · cases lands : failsAt fails m m.log.n
      · refine .inr (copiesOn_copied.mp ?_)
        rw [← committed.atHeader]
        exact keeps.written _ first headerAt (by rw [committed.lists]; exact nonempty) lands
      · exact .inl rfl
    · by_cases homes : HomesLand fails recycled m
      · exact .inl homes
      cases clears : failsAt fails m (2 * m.log.n + 1)
      · refine absurd ((homesOn_installed ready first).mp ?_) homes
        rw [← committed.atClear]
        exact keeps.cleared _ last clearAt committed.empties clears
      rw [clears, if_pos rfl] at header
      refine .inr ⟨rfl, ?_⟩
      rcases keeps.outcome with ⟨listed, copied⟩ | all | stay
      · cases lands : failsAt fails m m.log.n
        · exact .inl rfl
        · rw [header, lands, if_pos rfl] at listed
          exact .inr (.inr ⟨listed, copiesOn.mp copied⟩)
      · exact absurd (homesOn.mp all) homes
      · exact .inr (.inl (homesStay.mp stay))
  · rintro ⟨early, final⟩
    have copiedFirst : failsAt fails m m.log.n = false → CopiesLand fails m := fun lands =>
      early.resolve_left (by simp [lands])
    refine ⟨?_, fun index found at_ filled lands => ?_, fun index found at_ empty lands => ?_⟩
    · rcases final with homes | ⟨clears, rest⟩
      · exact .inr (.inl (homesOn.mpr homes))
      rw [clears, if_pos rfl] at header
      rcases rest with lands | stay | ⟨listed, copied⟩
      · rw [lands, if_neg (by simp)] at header
        exact .inl ⟨by rw [header, committed.lists], copiesOn.mpr (copiedFirst lands)⟩
      · exact .inr (.inr (homesStay.mpr stay))
      · refine .inl ⟨?_, copiesOn.mpr copied⟩
        rw [header]
        split
        · exact listed
        · exact committed.lists
    · rw [committed.issued_eq] at at_
      rcases attempts_header fails recycled m first last ready at_ with ⟨rfl, rfl⟩ | ⟨rfl, rfl⟩
      · rw [committed.atHeader]
        exact copiesOn_copied.mpr (copiedFirst lands)
      · exact absurd committed.empties filled
    · rw [committed.issued_eq] at at_
      rcases attempts_header fails recycled m first last ready at_ with ⟨rfl, rfl⟩ | ⟨rfl, rfl⟩
      · exact absurd (committed.lists.symm.trans empty) nonempty
      · rw [committed.atClear]
        refine (homesOn_installed ready first).mpr (final.resolve_right fun rest => ?_)
        rw [lands] at rest
        exact absurd rest.1 (by simp)

/-- A commit returns whatever raw writes fail, and keeps its transaction exactly when they are
ones it survives. -/
theorem commit_keeps_iff (fails : Nat → Bool) (recycled : Nat → Nat → Bool) (ready : Ready m) :
    Ensures (commit fails recycled) m
      (fun _ after => KeepsTransaction fails m after ↔ Survives fails recycled m) fun _ _ => False := by
  by_cases some : m.log.n > 0
  · refine (commit_eq ready some).weaken fun _ after returned => ?_
    obtain ⟨first, last, committed⟩ := returned
    exact committed.keeps_iff ready some
  · have empty : m.log.block = [] := List.length_eq_zero_iff.mp (Nat.le_zero.mp (Nat.not_lt.mp some))
    unfold commit
    rw [ensures_bind, ensures_get, if_neg some, ensures_pure]
    refine iff_of_true ⟨.inr (.inl ?_), ?_, ?_⟩ ⟨.inr ?_, .inl ?_⟩
    · simp [HomesOn, empty]
    · simp [issued]
    · simp [issued]
    · simp [CopiesLand, empty]
    · simp [HomesLand, empty]

/-- A commit survives a device that never fails. -/
theorem survives_never (recycled : Nat → Nat → Bool) (m : Machine) : Survives (fun _ => false) recycled m :=
  ⟨.inr fun _ _ failed => by simp [failsAt] at failed, .inl fun _ _ => by simp [failsAt, loaded]⟩

/-! Two logged blocks, the first of whose home writes fails. -/

def twoLogged : Machine :=
  { disk := fun _ => Bytes.zero
    cache := fun blockno => if blockno = 2000 ∨ blockno = 2001 then some { data := Bytes.ofFn fun _ => 7, refcnt := 1 } else none
    log := { Fslog.init 2 NLOG with committing := true, block := [2000, 2001] }
    written := []
    tick := 0 }

/-- The raw writes are two copies, the header, two homes and the empty header. -/
def firstHomeFails (index : Nat) : Bool := index == 3

theorem twoLogged_ready : Ready twoLogged where
  pinned := by simp [twoLogged, Machine.refs]
  distinct := by simp [twoLogged]
  outside := by simp [twoLogged, OutsideLog, Fslog.init, Fslog.n]
  fits := by simp [twoLogged, Fslog.n, NLOG, MAXOPBLOCKS]
  small := by simp [twoLogged]

theorem twoLogged_lost : ¬ Survives firstHomeFails (fun _ _ => false) twoLogged := by
  rintro ⟨_, homes | ⟨clears, _⟩⟩
  · have first := homes 0 (by simp [twoLogged])
    have same := congrArg (Bytes.byte · 0) first
    simp [failsAt, firstHomeFails, twoLogged, Machine.contents, Fslog.n, BSIZE] at same
  · simp [failsAt, firstHomeFails, twoLogged, Fslog.n] at clears

theorem commit_keeps_iff_two : Ensures (commit firstHomeFails fun _ _ => false) twoLogged
    (fun _ after => KeepsTransaction firstHomeFails twoLogged after ↔
      Survives firstHomeFails (fun _ _ => false) twoLogged) fun _ _ => False :=
  commit_keeps_iff firstHomeFails (fun _ _ => false) twoLogged_ready

/-- The header is cleared although a home block was not written. -/
theorem commit_loses_transaction : ∃ after, commit firstHomeFails (fun _ _ => false) twoLogged = (.ok (), after) ∧
    ¬ KeepsTransaction firstHomeFails twoLogged after := by
  have some : twoLogged.log.n > 0 := by simp [twoLogged, Fslog.n]
  have returns : Ensures (commit firstHomeFails fun _ _ => false) twoLogged _ _ := commit_eq twoLogged_ready some
  rcases ran : commit firstHomeFails (fun _ _ => false) twoLogged with ⟨_ | _, after⟩
  · exact (returns.stopped ran).elim
  · obtain ⟨first, last, committed⟩ := returns.returned ran
    exact ⟨after, rfl, fun keeps => twoLogged_lost ((committed.keeps_iff twoLogged_ready some).mp keeps)⟩

end Myfuse.DeviceFaults
