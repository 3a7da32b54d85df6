import Myfuse.BlockDevice
import Myfuse.ReadFaults

/-! The raw accesses of many threads are accesses of whole blocks, one at a time, although
they move one position and may be cut short. -/

namespace Myfuse
open Library

namespace RawCall

/-- The blocks after the first `count` bytes of a write. -/
def written (blocks : Nat → Block) (count : Nat) : RawCall → Nat → Block
  | .writeBlockRaw block_id buf => assign blocks block_id.toNat ((blocks block_id.toNat).splice 0 (buf.slice 0 count))
  | .readBlockRaw _ _ | .readBlockRawNbytes _ _ _ => blocks

/-- The buffer after the first `count` bytes of a read. -/
def filled (blocks : Nat → Block) (count : Nat) : RawCall → Block
  | .writeBlockRaw _ buf => buf
  | .readBlockRaw block_id buf | .readBlockRawNbytes block_id buf _ => buf.splice 0 ((blocks block_id.toNat).slice 0 count)

theorem nbytes_le (call : RawCall) : call.nbytes ≤ BSIZE := by
  cases call with
  | writeBlockRaw block_id buf => exact Nat.le_refl _
  | readBlockRaw block_id buf => exact Nat.le_refl _
  | readBlockRawNbytes block_id buf count =>
    change (if count.toNat > BSIZE then BSIZE else count.toNat) ≤ BSIZE
    split
    · exact Nat.le_refl _
    · omega

/-- A `uint` block number times the block size does not wrap. -/
theorem offset_eq (call : RawCall) : call.offset = call.block_id.toNat * BSIZE := by
  have uint := call.block_id.isLt
  unfold offset sizeT
  apply Nat.mod_eq_of_lt
  simp only [BSIZE]
  omega

/-- A whole write is the block. -/
theorem written_whole (blocks : Nat → Block) (block_id : BitVec 32) (buf : Block) :
    (writeBlockRaw block_id buf).written blocks BSIZE = assign blocks block_id.toNat buf := by
  have whole : (blocks block_id.toNat).splice 0 (buf.slice 0 BSIZE) = buf := by
    apply Bytes.ext
    intro index inside
    rw [Bytes.byte_splice _ _ _ inside, Bytes.length_slice, if_pos (by omega), Bytes.getD_slice _ _ (by omega), Nat.sub_zero, Nat.zero_add]
  exact congrArg (assign blocks block_id.toNat) whole

/-- The reads are those that `bread` may meet: whole, short or failed. -/
theorem filled_transfer (blocks : Nat → Block) (block_id : BitVec 32) (buf : Block) (nbytes : Fin BSIZE) :
    (ReadFaults.RawRead.short nbytes).transfer (blocks block_id.toNat) buf = (↑nbytes.val, (readBlockRaw block_id buf).filled blocks nbytes) := by
  have same : Bytes.ofFn (fun index => if index < nbytes.val then (blocks block_id.toNat).byte index else buf.byte index) =
      buf.splice 0 ((blocks block_id.toNat).slice 0 nbytes) := by
    apply Bytes.ext
    intro index inside
    rw [Bytes.byte_ofFn _ inside, Bytes.byte_splice _ _ _ inside, Bytes.length_slice]
    by_cases covered : index < nbytes.val
    · rw [if_pos covered, if_pos (by omega), Bytes.getD_slice _ _ (by omega), Nat.sub_zero, Nat.zero_add]
    · rw [if_neg covered, if_neg (by omega)]
  exact congrArg (Prod.mk (nbytes.val : Int)) same

end RawCall

inductive AtomicPhase where
  | idle
  | asked (call : RawCall)
  | served (nbytes : Int) (buf : Block)

/-- A device that does each access at once. -/
structure AtomicDevice (Thread : Type) where
  blocks : Nat → Block
  phase : Thread → AtomicPhase

namespace AtomicDevice
variable {Thread : Type} [DecidableEq Thread]

def init (blocks : Nat → Block) : AtomicDevice Thread := { blocks, phase := fun _ => .idle }

/-- The steps of a thread. -/
inductive Step (device : AtomicDevice Thread) (thread : Thread) : Option (RawEvent Thread) → AtomicDevice Thread → Prop where
  | asks (call : RawCall) (place : device.phase thread = .idle) :
    Step device thread (some (.asks thread call)) { device with phase := assign device.phase thread (.asked call) }
  | serves (call : RawCall) (count : Nat) (place : device.phase thread = .asked call) (fits : count ≤ call.nbytes) :
    Step device thread none
      { blocks := call.written device.blocks count, phase := assign device.phase thread (.served count (call.filled device.blocks count)) }
  | refuses (call : RawCall) (place : device.phase thread = .asked call) :
    Step device thread none { device with phase := assign device.phase thread (.served (-1) call.buf) }
  | answers (nbytes : Int) (buf : Block) (place : device.phase thread = .served nbytes buf) :
    Step device thread (some (.answers thread nbytes buf)) { device with phase := assign device.phase thread .idle }

def system : System (AtomicDevice Thread) (RawEvent Thread) where
  step device event after := ∃ thread, device.Step thread event after

end AtomicDevice

/-- What a thread has of its access, `lseek` and the lock aside. -/
def RawPhase.view : RawPhase → AtomicPhase
  | .idle => .idle
  | .asked call | .locked call | .placed call => .asked call
  | .moved nbytes buf => .served nbytes buf

/-- Between the lock and the unlock. -/
def RawPhase.inside : RawPhase → Bool
  | .locked _ | .placed _ | .moved _ _ => true
  | .idle | .asked _ => false

namespace BlockDevice
variable {Thread : Type} [DecidableEq Thread] {device after : BlockDevice Thread} {thread : Thread} {choice : RawChoice}
  {event : Option (RawEvent Thread)}

/-- The blocks that the bytes are. -/
def blocksOf (bytes : Nat → Byte) (block_id : Nat) : Block := Bytes.ofFn fun index => bytes (block_id * BSIZE + index)

theorem byte_blocksOf (bytes : Nat → Byte) (block_id : Nat) {index : Nat} (inside : index < BSIZE) :
    (blocksOf bytes block_id).byte index = bytes (block_id * BSIZE + index) :=
  Bytes.byte_ofFn _ inside

/-- What a step does. -/
inductive Stepped (device : BlockDevice Thread) (thread : Thread) : BlockDevice Thread → Option (RawEvent Thread) → Prop where
  | asks (call : RawCall) (place : device.phase thread = .idle) :
    Stepped device thread { device with phase := assign device.phase thread (.asked call) } (some (.asks thread call))
  | locks (call : RawCall) (place : device.phase thread = .asked call) (free : device.disk_lock = none) :
    Stepped device thread { device with disk_lock := some thread, phase := assign device.phase thread (.locked call) } none
  | seeks (call : RawCall) (place : device.phase thread = .locked call) :
    Stepped device thread { device with position := call.offset, phase := assign device.phase thread (.placed call) } none
  | lost (call : RawCall) (place : device.phase thread = .locked call) :
    Stepped device thread { device with phase := assign device.phase thread .idle } (some (.answers thread (-1) call.buf))
  | moves (call : RawCall) (nbytes : Nat) (place : device.phase thread = .placed call) (fits : nbytes ≤ call.nbytes) :
    Stepped device thread (device.transfers thread call nbytes) none
  | breaks (call : RawCall) (position : Nat) (place : device.phase thread = .placed call) :
    Stepped device thread { device with position, phase := assign device.phase thread (.moved (-1) call.buf) } none
  | unlocks (nbytes : Int) (buf : Block) (place : device.phase thread = .moved nbytes buf) :
    Stepped device thread { device with disk_lock := none, phase := assign device.phase thread .idle } (some (.answers thread nbytes buf))

theorem step_cases (stepped : device.step thread choice = some (after, event)) : Stepped device thread after event := by
  unfold step at stepped
  split at stepped
  next call place =>
    cases stepped
    exact .asks call place
  next call place =>
    split at stepped
    next free =>
      cases stepped
      exact .locks call place (Option.isNone_iff_eq_none.mp free)
    next => cases stepped
  next call place =>
    cases stepped
    exact .seeks call place
  next call place =>
    cases stepped
    exact .lost call place
  next call nbytes place =>
    split at stepped
    next fits =>
      cases stepped
      exact .moves call nbytes place fits
    next => cases stepped
  next call position place =>
    cases stepped
    exact .breaks call position place
  next nbytes buf place =>
    cases stepped
    exact .unlocks nbytes buf place
  next => cases stepped

/-! The lock. -/

/-- A thread inside has the lock, and the position is where its `lseek` has put it. -/
structure Locked (device : BlockDevice Thread) : Prop where
  has : ∀ thread, (device.phase thread).inside = true → device.disk_lock = some thread
  placed : ∀ thread call, device.phase thread = .placed call → device.position = call.offset

omit [DecidableEq Thread] in
theorem init_locked (bytes : Nat → Byte) : (init bytes : BlockDevice Thread).Locked where
  has _ inside := by cases inside
  placed _ _ place := by cases place

omit [DecidableEq Thread] in
/-- No two threads are inside. -/
theorem Locked.alone (locked : device.Locked) {other : Thread} (inside : (device.phase thread).inside = true)
    (inside' : (device.phase other).inside = true) : other = thread := by
  have first := locked.has thread inside
  have second := locked.has other inside'
  rw [first] at second
  exact (Option.some.inj second).symm

/-- A thread moves on; the others inside keep the lock and the position. -/
theorem Locked.become {here : RawPhase} (locked : device.Locked) (phase : after.phase = assign device.phase thread here)
    (others : ∀ other, other ≠ thread → (device.phase other).inside = true → after.disk_lock = some other ∧ after.position = device.position)
    (own : here.inside = true → after.disk_lock = some thread) (place : ∀ call, here = .placed call → after.position = call.offset) :
    after.Locked := by
  constructor
  · intro other inside
    rw [phase] at inside
    by_cases self : other = thread
    · rw [self, assign_self] at inside
      rw [self]
      exact own inside
    · rw [assign_of_ne self] at inside
      exact (others other self inside).1
  · intro other call placed
    rw [phase] at placed
    by_cases self : other = thread
    · rw [self, assign_self] at placed
      exact place call placed
    · rw [assign_of_ne self] at placed
      have inside : (device.phase other).inside = true := by
        rw [placed]
        rfl
      rw [(others other self inside).2]
      exact locked.placed other call placed

theorem Locked.step (locked : device.Locked) (stepped : Stepped device thread after event) : after.Locked := by
  have alone : ∀ {here : RawPhase}, device.phase thread = here → here.inside = true → ∀ other, other ≠ thread →
      (device.phase other).inside = true → after.disk_lock = some other ∧ after.position = device.position := by
    intro here place inside other apart inside'
    rw [← place] at inside
    exact absurd (locked.alone inside inside') apart
  have has : ∀ {here : RawPhase}, device.phase thread = here → here.inside = true → device.disk_lock = some thread := by
    intro here place inside
    apply locked.has
    rw [place]
    exact inside
  cases stepped with
  | asks call place =>
    apply locked.become rfl
    · exact fun other _ inside => ⟨locked.has other inside, rfl⟩
    · intro inside
      cases inside
    · intro call' placed
      cases placed
  | locks call place free =>
    apply locked.become rfl
    · intro other _ inside
      have held := locked.has other inside
      rw [free] at held
      cases held
    · exact fun _ => rfl
    · intro call' placed
      cases placed
  | seeks call place =>
    apply locked.become rfl (alone place rfl) fun _ => has place rfl
    intro call' placed
    cases placed
    rfl
  | lost call place =>
    apply locked.become rfl (alone place rfl)
    · intro inside
      cases inside
    · intro call' placed
      cases placed
  | moves call nbytes place fits =>
    have lock : (device.transfers thread call nbytes).disk_lock = device.disk_lock := by cases call <;> rfl
    have moved : ∃ buf, (device.transfers thread call nbytes).phase = assign device.phase thread (.moved nbytes buf) := by
      cases call <;> exact ⟨_, rfl⟩
    obtain ⟨buf, phase⟩ := moved
    apply locked.become phase (alone place rfl)
    · intro _
      rw [lock]
      exact has place rfl
    · intro call' placed
      cases placed
  | breaks call position place =>
    apply locked.become rfl (alone place rfl) fun _ => has place rfl
    intro call' placed
    cases placed
  | unlocks nbytes buf place =>
    apply locked.become rfl (alone place rfl)
    · intro inside
      cases inside
    · intro call' placed
      cases placed

/-! The blocks. -/

omit [DecidableEq Thread] in
/-- A write at a block's place changes that block only. -/
theorem blocksOf_writes {buf : Block} {nbytes : Nat} (block_id : Nat) (place : device.position = block_id * BSIZE) (fits : nbytes ≤ BSIZE) :
    blocksOf (device.writes buf nbytes).bytes = assign (blocksOf device.bytes) block_id ((blocksOf device.bytes block_id).splice 0 (buf.slice 0 nbytes)) := by
  funext other
  apply Bytes.ext
  intro index inside
  rw [byte_blocksOf _ _ inside]
  unfold writes
  dsimp only
  rw [place]
  by_cases same : other = block_id
  · subst same
    rw [assign_self, Bytes.byte_splice _ _ _ inside, Bytes.length_slice]
    by_cases covered : index < nbytes
    · rw [if_pos (by omega), if_pos (by omega), Bytes.getD_slice _ _ (by omega)]
      congr 1
      omega
    · rw [if_neg (by omega), if_neg (by omega), byte_blocksOf _ _ inside]
  · rw [assign_of_ne same, byte_blocksOf _ _ inside, if_neg]
    intro covered
    apply same
    simp only [BSIZE] at *
    omega

omit [DecidableEq Thread] in
/-- A read at a block's place is of that block. -/
theorem reads_blocksOf {buf : Block} {nbytes : Nat} (block_id : Nat) (place : device.position = block_id * BSIZE) :
    device.reads buf nbytes = buf.splice 0 ((blocksOf device.bytes block_id).slice 0 nbytes) := by
  apply Bytes.ext
  intro index inside
  rw [reads, Bytes.byte_ofFn _ inside, Bytes.byte_splice _ _ _ inside, Bytes.length_slice, place]
  by_cases covered : index < nbytes
  · rw [if_pos covered, if_pos (by omega), Bytes.getD_slice _ _ (by omega), byte_blocksOf _ _ (by omega), Nat.sub_zero, Nat.zero_add]
  · rw [if_neg covered, if_neg (by omega)]

omit [DecidableEq Thread] in
/-- The atomic device with the same blocks. -/
structure Atomically (device : BlockDevice Thread) (atomic : AtomicDevice Thread) : Prop where
  locked : device.Locked
  blocks : atomic.blocks = blocksOf device.bytes
  phase : ∀ thread, atomic.phase thread = (device.phase thread).view

/-- A step that leaves the blocks. -/
theorem Atomically.become {atomic atomic' : AtomicDevice Thread} {here : RawPhase} (same : device.Atomically atomic) (locked : after.Locked)
    (phase : after.phase = assign device.phase thread here) (blocks : atomic'.blocks = blocksOf after.bytes)
    (phase' : atomic'.phase = assign atomic.phase thread here.view) : after.Atomically atomic' := by
  refine ⟨locked, blocks, fun other => ?_⟩
  rw [phase, phase']
  by_cases self : other = thread
  · rw [self, assign_self, assign_self]
  · rw [assign_of_ne self, assign_of_ne self]
    exact same.phase other

/-- A transfer is the access of the atomic device, as the thread is at its place. -/
theorem Atomically.moves {atomic : AtomicDevice Thread} {call : RawCall} {nbytes : Nat} (same : device.Atomically atomic)
    (place : device.phase thread = .placed call) (fits : nbytes ≤ call.nbytes) :
    blocksOf (device.transfers thread call nbytes).bytes = call.written atomic.blocks nbytes ∧
    (device.transfers thread call nbytes).phase = assign device.phase thread (.moved nbytes (call.filled atomic.blocks nbytes)) := by
  have here := same.locked.placed thread call place
  rw [RawCall.offset_eq] at here
  have short := Nat.le_trans fits call.nbytes_le
  rw [same.blocks]
  cases call with
  | writeBlockRaw block_id buf => exact ⟨blocksOf_writes _ here short, rfl⟩
  | readBlockRaw block_id buf =>
    have read : device.reads buf nbytes = _ := reads_blocksOf block_id.toNat here
    exact ⟨rfl, congrArg (fun buf => assign device.phase thread (.moved nbytes buf)) read⟩
  | readBlockRawNbytes block_id buf count =>
    have read : device.reads buf nbytes = _ := reads_blocksOf block_id.toNat here
    exact ⟨rfl, congrArg (fun buf => assign device.phase thread (.moved nbytes buf)) read⟩

/-- Each step is one of the atomic device, or none; a failed `lseek` is two. -/
def atomically : Simulation (system : System (BlockDevice Thread) (RawEvent Thread)) AtomicDevice.system where
  related := Atomically
  matched := by
    intro device event after atomic same stepped
    obtain ⟨thread, choice, stepped⟩ := stepped
    have stepped := step_cases stepped
    have locked := same.locked.step stepped
    have view := same.phase thread
    cases stepped with
    | asks call place =>
      rw [place] at view
      exact ⟨_, .one ⟨thread, .asks call view⟩, same.become locked rfl same.blocks rfl⟩
    | locks call place free =>
      rw [place] at view
      refine ⟨atomic, .nil, same.become locked rfl same.blocks ?_⟩
      exact (assign_eq_self thread atomic.phase).symm.trans (congrArg _ view)
    | seeks call place =>
      rw [place] at view
      refine ⟨atomic, .nil, same.become locked rfl same.blocks ?_⟩
      exact (assign_eq_self thread atomic.phase).symm.trans (congrArg _ view)
    | lost call place =>
      rw [place] at view
      let refused : AtomicDevice Thread := { atomic with phase := assign atomic.phase thread (.served (-1) call.buf) }
      have refuses : AtomicDevice.system.step atomic none refused := ⟨thread, .refuses call view⟩
      have answers : AtomicDevice.system.step refused (some (.answers thread (-1) call.buf)) _ :=
        ⟨thread, .answers (-1) call.buf (assign_self thread _ atomic.phase)⟩
      refine ⟨_, .step (.one refuses) answers, same.become locked rfl same.blocks ?_⟩
      exact assign_twice atomic.phase thread _ _
    | moves call nbytes place fits =>
      rw [place] at view
      obtain ⟨blocks, phase⟩ := same.moves place fits
      exact ⟨_, .one ⟨thread, .serves call nbytes view fits⟩, same.become locked phase blocks.symm rfl⟩
    | breaks call position place =>
      rw [place] at view
      exact ⟨_, .one ⟨thread, .refuses call view⟩, same.become locked rfl same.blocks rfl⟩
    | unlocks nbytes buf place =>
      rw [place] at view
      exact ⟨_, .one ⟨thread, .answers nbytes buf view⟩, same.become locked rfl same.blocks rfl⟩

/-- Whatever the threads do and however their system calls end, they see and leave what an atomic device
of blocks could show them. -/
theorem accesses_atomic {trace : List (RawEvent Thread)} (bytes : Nat → Byte) (runs : system.Runs (init bytes) trace after) :
    ∃ atomic : AtomicDevice Thread, AtomicDevice.system.Runs (.init (blocksOf bytes)) trace atomic ∧ atomic.blocks = blocksOf after.bytes := by
  have begins : (init bytes : BlockDevice Thread).Atomically (.init (blocksOf bytes)) := ⟨init_locked bytes, rfl, fun _ => rfl⟩
  obtain ⟨atomic, runs, same⟩ := atomically.runs begins runs
  exact ⟨atomic, runs, same.blocks⟩

/-- A write that is cut short, and a read asked for before it. -/
theorem accesses_atomic_two : ∃ (trace : List (RawEvent Bool)) (after : BlockDevice Bool), system.Runs (init fun _ => 0) trace after ∧
    trace.length = 4 ∧ ∃ atomic : AtomicDevice Bool, AtomicDevice.system.Runs (.init (blocksOf fun _ => 0)) trace atomic ∧
      atomic.blocks = blocksOf after.bytes := by
  have asked : system.Runs (init fun _ => 0) _ _ := .one ⟨false, .call (.readBlockRaw 1 Bytes.zero), rfl⟩
  have asked := asked.step ⟨true, .call (.writeBlockRaw 1 (Bytes.ofFn fun _ => 7)), rfl⟩
  have locked := asked.step ⟨true, .goes, rfl⟩
  have placed := locked.step ⟨true, .goes, rfl⟩
  have moved := placed.step ⟨true, .moves 3, rfl⟩
  have wrote := moved.step ⟨true, .goes, rfl⟩
  have locked := wrote.step ⟨false, .goes, rfl⟩
  have placed := locked.step ⟨false, .goes, rfl⟩
  have moved := placed.step ⟨false, .moves 4096, rfl⟩
  have read := moved.step ⟨false, .goes, rfl⟩
  exact ⟨_, _, read, rfl, accesses_atomic _ read⟩

/-! A failed `lseek`. -/

omit [DecidableEq Thread] in
/-- `disk_lock` is taken and nobody is inside to give it back. -/
structure Stuck (device : BlockDevice Thread) : Prop where
  taken : device.disk_lock ≠ none
  outside : ∀ thread, (device.phase thread).inside = false

theorem Locked.lost {call : RawCall} (locked : device.Locked) (place : device.phase thread = .locked call) :
    Stuck { device with phase := assign device.phase thread .idle } := by
  have inside : (device.phase thread).inside = true := by
    rw [place]
    rfl
  constructor
  · change device.disk_lock ≠ none
    rw [locked.has thread inside]
    exact Option.some_ne_none thread
  · intro other
    dsimp only
    by_cases self : other = thread
    · rw [self, assign_self]
      rfl
    · rw [assign_of_ne self]
      by_contra some
      exact self (locked.alone inside (Bool.eq_true_of_not_eq_false some))

/-- Then only new calls begin. -/
theorem Stuck.step (stuck : device.Stuck) (stepped : Stepped device thread after event) :
    after.Stuck ∧ after.bytes = device.bytes ∧ ∃ call, event = some (.asks thread call) := by
  have outside := stuck.outside thread
  cases stepped with
  | asks call place =>
    refine ⟨⟨stuck.taken, fun other => ?_⟩, rfl, call, rfl⟩
    dsimp only
    by_cases self : other = thread
    · rw [self, assign_self]
      rfl
    · rw [assign_of_ne self]
      exact stuck.outside other
  | locks call place free => exact absurd free stuck.taken
  | seeks call place =>
    rw [place] at outside
    cases outside
  | lost call place =>
    rw [place] at outside
    cases outside
  | moves call nbytes place fits =>
    rw [place] at outside
    cases outside
  | breaks call position place =>
    rw [place] at outside
    cases outside
  | unlocks nbytes buf place =>
    rw [place] at outside
    cases outside

theorem Locked.runs {trace : List (RawEvent Thread)} {start : BlockDevice Thread} (locked : start.Locked) (runs : system.Runs start trace after) :
    after.Locked := by
  apply runs.invariant locked
  intro device event after locked stepped
  obtain ⟨thread, choice, stepped⟩ := stepped
  exact locked.step (step_cases stepped)

/-- Once an `lseek` has failed no byte of the device changes and no call of any thread is answered. -/
theorem failed_seek_stops {bytes : Nat → Byte} {trace shown : List (RawEvent Thread)} {lost : BlockDevice Thread}
    (before : system.Runs (init bytes) trace device) (failed : device.step thread .seekFails = some (lost, event))
    (later : system.Runs lost shown after) :
    after.bytes = device.bytes ∧ ∀ event ∈ shown, ∃ thread call, event = .asks thread call := by
  have locked := (init_locked bytes).runs before
  have stuck : lost.Stuck ∧ lost.bytes = device.bytes := by
    unfold step at failed
    cases place : device.phase thread with
    | locked call =>
      rw [place] at failed
      cases failed
      exact ⟨locked.lost place, rfl⟩
    | idle =>
      rw [place] at failed
      cases failed
    | asked call =>
      rw [place] at failed
      cases failed
    | placed call =>
      rw [place] at failed
      cases failed
    | moved nbytes buf =>
      rw [place] at failed
      cases failed
  obtain ⟨stuck, same⟩ := stuck
  rw [← same]
  have stays : after.Stuck ∧ after.bytes = lost.bytes ∧ ∀ event ∈ shown, ∃ thread call, event = .asks thread call := by
    induction later with
    | nil => exact ⟨stuck, rfl, fun _ none => absurd none List.not_mem_nil⟩
    | step _ stepped ih =>
      obtain ⟨stuck, same, asks⟩ := ih
      obtain ⟨thread, choice, stepped⟩ := stepped
      obtain ⟨stuck', same', call, rfl⟩ := stuck.step (step_cases stepped)
      refine ⟨stuck', same'.trans same, fun event shown => ?_⟩
      cases List.mem_append.mp shown with
      | inl earlier => exact asks event earlier
      | inr last =>
        cases List.mem_singleton.mp last
        exact ⟨thread, call, rfl⟩
  exact stays.2

/-- The `lseek` of one thread fails and another asks for a block. -/
theorem failed_seek_stops_two : ∃ (before : List (RawEvent Bool)) (device lost after : BlockDevice Bool) (shown : List (RawEvent Bool)),
    system.Runs (init fun _ => 0) before device ∧ (∃ event, device.step true .seekFails = some (lost, event)) ∧ system.Runs lost shown after ∧
    shown.length = 1 ∧ after.bytes = device.bytes := by
  let call : RawCall := .readBlockRaw 1 Bytes.zero
  let device : BlockDevice Bool :=
    { bytes := fun _ => 0, position := 0, disk_lock := some true, phase := assign (assign (fun _ => .idle) true (.asked call)) true (.locked call) }
  let lost : BlockDevice Bool := { device with phase := assign device.phase true .idle }
  let after : BlockDevice Bool := { lost with phase := assign lost.phase false (.asked call) }
  have asked : system.Runs (init fun _ => 0) _ _ := .one ⟨true, .call call, rfl⟩
  have locked : system.Runs (init fun _ => 0) _ device := asked.step ⟨true, .goes, rfl⟩
  have failed : device.step true .seekFails = some (lost, some (.answers true (-1) call.buf)) := rfl
  have later : system.Runs lost _ after := .one ⟨false, .call call, rfl⟩
  exact ⟨_, device, lost, after, _, locked, ⟨_, failed⟩, later, rfl, (failed_seek_stops locked failed later).1⟩

end BlockDevice
end Myfuse
