import Myfuse.Proofs.ConcurrentWrites
import Myfuse.Proofs.WriteStretches

/-! What many readers and writers of one file end with. -/

namespace Myfuse
open Library Library.Exec

section
variable {Thread : Type} {calls : Thread → IoCall} {thread : Thread} {data : List Byte} {off p : Nat}

/-- A byte that none of the calls writes stays. -/
theorem bytesAfter_outside (order : List Thread) :
    ∀ bytes : Nat → Byte, (∀ thread ∈ order, ∀ data off, calls thread = .write data off → ¬ (off ≤ p ∧ p < off + data.length)) →
      (order.map calls).foldl IoCall.bytesAfter bytes p = bytes p := by
  induction order with
  | nil => exact fun _ _ => rfl
  | cons first others ih =>
    intro bytes outside
    rw [List.map_cons, List.foldl_cons, ih _ fun thread inside => outside thread (List.mem_cons_of_mem _ inside)]
    have own := outside first List.mem_cons_self
    cases call : calls first with
    | write data off => exact if_neg (own data off call)
    | read nbytes off => rfl

/-- A byte of a write is there whatever the order, as no other write has it. -/
theorem bytesAfter_inside (apart : Apart calls) (call : calls thread = .write data off) (covered : off ≤ p ∧ p < off + data.length)
    (order : List Thread) : ∀ bytes : Nat → Byte, thread ∈ order → (order.map calls).foldl IoCall.bytesAfter bytes p = data.getD (p - off) 0 := by
  have alone : ∀ other, other ≠ thread → ∀ data' off', calls other = .write data' off' → ¬ (off' ≤ p ∧ p < off' + data'.length) := by
    intro other distinct data' off' call'
    have ranges := apart.disjoint other thread data' off' data off distinct call' call
    omega
  induction order with
  | nil => exact fun _ none => absurd none List.not_mem_nil
  | cons first others ih =>
    intro bytes inside
    rw [List.map_cons, List.foldl_cons]
    by_cases later : thread ∈ others
    · exact ih _ later
    · have here : thread = first := (List.mem_cons.mp inside).resolve_right later
      rw [bytesAfter_outside others _ fun other member => alone other fun same => later (same ▸ member), ← here, call]
      exact if_pos covered

/-- Files in which every write is laid down have the bytes of the calls in any order. -/
theorem Laid.bytesAfter {initial bytes : Nat → Byte} {laid : Thread → Nat} (here : Laid calls initial laid bytes) (apart : Apart calls)
    (whole : ∀ thread data off, calls thread = .write data off → laid thread = data.length) {order : List Thread}
    (all : ∀ thread, thread ∈ order) : bytes = (order.map calls).foldl IoCall.bytesAfter initial := by
  funext p
  by_cases covered : ∃ thread data off, calls thread = .write data off ∧ off ≤ p ∧ p < off + data.length
  · obtain ⟨thread, data, off, call, inside⟩ := covered
    rw [bytesAfter_inside apart call inside order initial (all thread)]
    apply here.own thread data off call p inside.1
    rw [whole thread data off call]
    exact inside.2
  · have outside : ∀ thread data off, calls thread = .write data off → ¬ (off ≤ p ∧ p < off + data.length) :=
      fun thread data off call inside => covered ⟨thread, data, off, call, inside⟩
    rw [bytesAfter_outside order initial fun thread _ => outside thread]
    apply here.kept
    intro thread data off call
    rw [whole thread data off call]
    exact outside thread data off call

theorem sizeAfter_least (order : List IoCall) : ∀ size, size ≤ order.foldl IoCall.sizeAfter size := by
  induction order with
  | nil => exact fun _ => Nat.le_refl _
  | cons first others ih =>
    intro size
    rw [List.foldl_cons]
    apply Nat.le_trans _ (ih _)
    cases first with
    | write data off => exact Nat.le_max_left _ _
    | read nbytes off => exact Nat.le_refl _

theorem sizeAfter_ends {order : List IoCall} : ∀ size, .write data off ∈ order → off + data.length ≤ order.foldl IoCall.sizeAfter size := by
  induction order with
  | nil => exact fun _ none => absurd none List.not_mem_nil
  | cons first others ih =>
    intro size inside
    rw [List.foldl_cons]
    cases List.mem_cons.mp inside with
    | inl here =>
      rw [← here]
      exact Nat.le_trans (Nat.le_max_right _ _) (sizeAfter_least others _)
    | inr later => exact ih _ later

theorem sizeAfter_bound {bound : Nat} {order : List IoCall} : ∀ size, size ≤ bound →
    (∀ data off, .write data off ∈ order → off + data.length ≤ bound) → order.foldl IoCall.sizeAfter size ≤ bound := by
  induction order with
  | nil => exact fun _ fits _ => fits
  | cons first others ih =>
    intro size fits ends
    rw [List.foldl_cons]
    apply ih _ _ fun data off later => ends data off (List.mem_cons_of_mem _ later)
    cases first with
    | write data off => exact Nat.max_le.mpr ⟨fits, ends data off List.mem_cons_self⟩
    | read nbytes off => exact fits

/-- The size when every write has set it. -/
theorem Extended.sizeAfter {initial size : Nat} {sized : Thread → Prop} (extended : Extended calls initial sized size)
    (whole : ∀ thread data off, calls thread = .write data off → sized thread) {order : List Thread} (all : ∀ thread, thread ∈ order) :
    size = (order.map calls).foldl IoCall.sizeAfter initial := by
  have member : ∀ {thread data off}, calls thread = .write data off → IoCall.write data off ∈ order.map calls := by
    intro thread data off call
    rw [← call]
    exact List.mem_map_of_mem (all thread)
  apply Nat.le_antisymm
  · cases extended.reached with
    | inl same =>
      rw [same]
      exact sizeAfter_least _ _
    | inr last =>
      obtain ⟨thread, data, off, call, -, size⟩ := last
      rw [size]
      exact sizeAfter_ends _ (member call)
  · apply sizeAfter_bound _ extended.least
    intro data off inside
    obtain ⟨thread, -, call⟩ := List.mem_map.mp inside
    exact extended.ends thread data off call (whole thread data off call)

end

namespace WriteThreads
variable {Thread : Type} [DecidableEq Thread] {ip : Nat} {calls : Thread → IoCall} {start : FS} {state after : WriteThreads Thread}

/-- The threads named take a step each. -/
def walk (ip : Nat) : List Thread → WriteThreads Thread → Option (WriteThreads Thread)
  | [], state => some state
  | thread :: others, state => (state.step ip thread).bind (walk ip others)

theorem walk_runs {begins : WriteThreads Thread} {order : List Thread} : ∀ {state}, Runs ip begins state → walk ip order state = some after →
    Runs ip begins after := by
  induction order with
  | nil =>
    intro state runs walked
    cases walked
    exact runs
  | cons thread others ih =>
    intro state runs walked
    obtain ⟨middle, stepped, rest⟩ := Option.bind_eq_some_iff.mp walked
    exact ih (runs.step stepped) rest

/-- Writes of ranges that are apart end with the bytes and the size that the calls give one after the other in any order. -/
theorem writes_any_order (wellFormed : start.WellFormed) (live : start.Live ip) (space : start.fileSize (start.inode ip).inum < 2 ^ 64)
    (apart : Apart calls) (runs : Runs ip (begun start calls) state) (finished : ∀ thread, ∃ answer, state.phase thread = .returned answer)
    {order : List Thread} (all : ∀ thread, thread ∈ order) :
    (∀ thread data off, calls thread = .write data off → state.phase thread = .returned (.wrote data.length)) ∧
    state.fs.content (start.inode ip).inum = (order.map calls).foldl IoCall.bytesAfter (start.content (start.inode ip).inum) ∧
    state.fs.fileSize (start.inode ip).inum = (order.map calls).foldl IoCall.sizeAfter (start.fileSize (start.inode ip).inum) ∧
    ∀ inum, inum ≠ (start.inode ip).inum → state.fs.content inum = start.content inum := by
  have begins : Going (start.here False False False) ip calls start start (begun start calls).phase :=
    .initial (wellFormed.atRest False False) live fun watching => watching.elim
  have going := (runs.sound ⟨id, id⟩ apart space ⟨begins, fun watching => watching.elim⟩).1
  have returned : ∀ thread data off, calls thread = .write data off → state.phase thread = .returned (.wrote data.length) := by
    intro thread data off call
    obtain ⟨answer, place⟩ := finished thread
    have at' := going.places thread
    rw [call, place] at at'
    rw [place]
    cases at' with
    | done => rfl
  refine ⟨returned, going.laid.bytesAfter apart (fun thread data off call => ?_) all, going.size.sizeAfter (fun thread data off call => ?_) all,
    going.shared.others⟩
  · rw [returned thread data off call, call]
    rfl
  · rw [returned thread data off call]
    rfl

theorem twoWriters_apart : Apart twoWriters where
  disjoint thread other data off data' off' distinct call call' := by
    cases thread <;> cases other <;> cases call <;> cases call' <;> simp at distinct ⊢
  fits thread data off call := by cases thread <;> cases call <;> decide

def isReturned : FilePhase → Bool
  | .returned _ => true
  | .outside _ | .opened _ _ | .closing _ _ => false

theorem isReturned_answer {phase : FilePhase} (returned : isReturned phase = true) : ∃ answer, phase = .returned answer := by
  cases phase with
  | returned answer => exact ⟨answer, rfl⟩
  | outside part => cases returned
  | opened part n_log_wrote => cases returned
  | closing stretch n_log_wrote => cases returned

theorem freshFile_live : FS.freshFile.Live 0 := ⟨by decide, by decide⟩

theorem freshFile_space : FS.freshFile.fileSize (FS.freshFile.inode 0).inum < 2 ^ 64 := by decide +kernel

/-- A byte and two bytes written at once. -/
theorem writes_any_order_two : ∃ state, FS.freshFile.WellFormed ∧ FS.freshFile.Live 0 ∧ Apart twoWriters ∧
    Runs 0 (begun FS.freshFile twoWriters) state ∧ (∀ thread, ∃ answer, state.phase thread = .returned answer) ∧
    state.fs.fileSize (FS.freshFile.inode 0).inum =
      ([true, false].map twoWriters).foldl IoCall.sizeAfter (FS.freshFile.fileSize (FS.freshFile.inode 0).inum) := by
  have computed : (walk 0 [true, false, true, false, false, true] (begun FS.freshFile twoWriters)).map (fun state =>
      isReturned (state.phase true) && isReturned (state.phase false)) = some true := by decide +kernel
  obtain ⟨state, walked, ended⟩ := Option.map_eq_some_iff.mp computed
  obtain ⟨first, second⟩ := Bool.and_eq_true_iff.mp ended
  have runs := walk_runs .nil walked
  have finished : ∀ thread, ∃ answer, state.phase thread = .returned answer := by
    intro thread
    cases thread with
    | true => exact isReturned_answer first
    | false => exact isReturned_answer second
  have all : ∀ thread, thread ∈ [true, false] := by
    intro thread
    cases thread <;> decide
  have settled := writes_any_order FS.freshFile_wellFormed freshFile_live freshFile_space twoWriters_apart runs finished all
  exact ⟨state, FS.freshFile_wellFormed, freshFile_live, twoWriters_apart, runs, finished, settled.2.2.1⟩

/-- What a read has returned is of the bytes that were there and of the writes under way, and of no other. -/
theorem read_sees (wellFormed : start.WellFormed) (live : start.Live ip) (space : start.fileSize (start.inode ip).inum < 2 ^ 64)
    (apart : Apart calls) (runs : Runs ip (begun start calls) state) {thread : Thread} {nbytes off : Nat} (call : calls thread = .read nbytes off)
    {answer : FileAnswer} (returned : state.phase thread = .returned answer) :
    ∃ data, answer = .served data ∧ data.length ≤ nbytes ∧ (off + nbytes ≤ start.fileSize (start.inode ip).inum → data.length = nbytes) ∧
    (∀ k value, data[k]? = some value → Seen calls (start.content (start.inode ip).inum) (off + k) value) ∧
    ((∀ other data' off', calls other = .write data' off' → off + nbytes ≤ off' ∨ off' + data'.length ≤ off) →
      data = FS.bytesFrom (start.content (start.inode ip).inum) off data.length) := by
  have begins : Going (start.here False False False) ip calls start start (begun start calls).phase :=
    .initial (wellFormed.atRest False False) live fun watching => watching.elim
  have place := (runs.sound ⟨id, id⟩ apart space ⟨begins, fun watching => watching.elim⟩).1.places thread
  rw [call, returned] at place
  cases place with
  | done data fits whole right =>
    refine ⟨data, rfl, fits, whole, right, fun untouched => ?_⟩
    apply List.ext_getElem?
    intro k
    by_cases inside : k < data.length
    · have found : data[k]? = some data[k] := List.getElem?_eq_getElem inside
      rw [found, FS.bytesFrom, List.getElem?_map, List.getElem?_range inside, Option.map_some]
      cases right k _ found with
      | inl same => rw [same]
      | inr written =>
        obtain ⟨other, data', off', call', low, high, -⟩ := written
        have ranges := untouched other data' off' call'
        omega
    · rw [List.getElem?_eq_none (by omega), List.getElem?_eq_none (by rw [FS.bytesFrom, List.length_map, List.length_range]; omega)]

/-- A writer and a reader of a new file. -/
def writerReader : Bool → IoCall
  | true => .write [7] 1
  | false => .read 2 0

theorem writerReader_apart : Apart writerReader where
  disjoint thread other data off data' off' distinct call call' := by
    cases thread <;> cases other <;> cases call
    cases call'
    exact absurd rfl distinct
  fits thread data off call := by
    cases thread <;> cases call
    decide

def servedOf : FilePhase → Option (List Byte)
  | .returned (.served data) => some data
  | .returned (.wrote _) | .outside _ | .opened _ _ | .closing _ _ => none

theorem servedOf_answer {phase : FilePhase} {data : List Byte} (served : servedOf phase = some data) : phase = .returned (.served data) := by
  cases phase with
  | returned answer =>
    cases answer with
    | served data =>
      cases served
      rfl
    | wrote nbytes => cases served
  | outside part => cases served
  | opened part n_log_wrote => cases served
  | closing stretch n_log_wrote => cases served

/-- A read between the stretch of a write and its `end_op`. -/
theorem read_sees_between : ∃ state, FS.freshFile.WellFormed ∧ Apart writerReader ∧ Runs 0 (begun FS.freshFile writerReader) state ∧
    state.phase false = .returned (.served [0, 7]) ∧ ∃ data, FileAnswer.served [0, 7] = .served data ∧ data.length ≤ 2 := by
  have computed : (walk 0 [true, false, true, false, false] (begun FS.freshFile writerReader)).map (fun state => servedOf (state.phase false)) =
      some (some [0, 7]) := by decide +kernel
  obtain ⟨state, walked, served⟩ := Option.map_eq_some_iff.mp computed
  have runs := walk_runs .nil walked
  have returned := servedOf_answer served
  obtain ⟨data, answer, short, -⟩ := read_sees FS.freshFile_wellFormed freshFile_live freshFile_space writerReader_apart runs
    (show writerReader false = .read 2 0 from rfl) returned
  exact ⟨state, FS.freshFile_wellFormed, writerReader_apart, runs, returned, data, answer, short⟩

/-- At every point of every run the disk is consistent and holds a prefix of each write, and all that is laid down
when no operation is open. -/
theorem crash_keeps_prefixes (begins : start.ConsistentStart) (live : start.Live ip) (agrees : start.Loaded ip → start.Agrees ip)
    (space : start.fileSize (start.inode ip).inum < 2 ^ 64) (apart : Apart calls) (runs : Runs ip (begun start calls) state) :
    ∃ laid : Thread → Nat, (∀ thread, laid thread ≤ (calls thread).laid (state.phase thread).rest) ∧
      Imaged start.watched ip calls start laid state.fs.device ∧
      (state.fs.log.outstanding = 0 → ∀ thread, laid thread = (calls thread).laid (state.phase thread).rest) := by
  have rest := begins.rest
  have going : Going start.watched ip calls start start (begun start calls).phase := .initial rest live fun _ => agrees
  have image := going.image apart trivial space
  have durable : Durable start.watched ip calls start start (begun start calls).phase := by
    refine ⟨_, fun _ => Nat.le_refl _, ?_, fun _ _ => rfl⟩
    rw [begins.flushed]
    exact image
  exact (runs.sound ⟨id, id⟩ apart space ⟨going, fun _ => durable⟩).2 trivial

/-- A crash when one of two writes is through and the other is not. -/
theorem crash_keeps_prefixes_two : ∃ state, FS.freshFile.ConsistentStart ∧ Apart twoWriters ∧ Runs 0 (begun FS.freshFile twoWriters) state ∧
    isReturned (state.phase true) = true ∧ isReturned (state.phase false) = false ∧
    ∃ laid : Bool → Nat, Imaged FS.freshFile.watched 0 twoWriters FS.freshFile laid state.fs.device := by
  have computed : (walk 0 [true, false, true, false, true] (begun FS.freshFile twoWriters)).map (fun state =>
      (isReturned (state.phase true), isReturned (state.phase false))) = some (true, false) := by decide +kernel
  obtain ⟨state, walked, ended⟩ := Option.map_eq_some_iff.mp computed
  obtain ⟨first, second⟩ := Prod.mk.inj ended
  have runs := walk_runs .nil walked
  have unread : FS.freshFile.Loaded 0 → FS.freshFile.Agrees 0 := by
    intro loaded
    have valid := loaded.2
    rw [show (FS.freshFile.inode 0).valid = false from FS.firstEntry_unread 0] at valid
    cases valid
  obtain ⟨laid, -, imaged, -⟩ := crash_keeps_prefixes FS.freshFile_consistent freshFile_live unread freshFile_space twoWriters_apart runs
  exact ⟨state, FS.freshFile_consistent, twoWriters_apart, runs, first, second, laid, imaged⟩

end WriteThreads
end Myfuse
