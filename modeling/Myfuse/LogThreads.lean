import Mathlib.Logic.Function.Basic
import Myfuse.Log

/-! The log as its threads see it: one event for each section under `fslog.lock`
and for each step of `commit`, in any order the lock allows. -/

namespace Myfuse

/-- How far the committing thread is in `commit`. -/
inductive CommitPhase where
  | start
  | copying (tail : Nat)
  | header
  | installing (tail : Nat)
  | clearing
  | emptyHeader
  | done
  deriving DecidableEq, Repr

inductive ThreadPhase where
  | outside
  /-- Between `begin_op` and `end_op`. -/
  | inside
  | committing (phase : CommitPhase)
  deriving DecidableEq, Repr

structure LogThreads (Thread : Type) where
  log : Fslog
  phase : Thread → ThreadPhase
  /-- The pins the log holds on each block's buffer. -/
  pins : Nat → Nat
  exited : Option Fatal

inductive LogEvent (Thread : Type) where
  | beginOp (thread : Thread)
  | loggedWrite (thread : Thread) (blockno : Nat)
  | endOp (thread : Thread)
  /-- The committing thread's next step. -/
  | commit (thread : Thread)
  deriving DecidableEq

namespace LogThreads
variable {Thread : Type} [DecidableEq Thread]

/-- After `log_init` on a disk whose log is empty. -/
def start (sb : Superblock) : LogThreads Thread :=
  { log := Fslog.init sb.logstart sb.nlog, phase := fun _ => .outside, pins := fun _ => 0, exited := none }

def enter (state : LogThreads Thread) (thread : Thread) (phase : ThreadPhase) : LogThreads Thread :=
  { state with phase := Function.update state.phase thread phase }

def beginOp (state : LogThreads Thread) (thread : Thread) : LogThreads Thread :=
  { state with log := { state.log with outstanding := state.log.outstanding + 1 } }.enter thread .inside

def loggedWrite (state : LogThreads Thread) (blockno : Nat) : LogThreads Thread :=
  if state.log.tooBig then { state with exited := some .tooBigTransaction }
  else if state.log.outstanding < 1 then { state with exited := some .loggedWriteOutside }
  else
    { state with
      log := state.log.absorb blockno
      pins := if blockno ∈ state.log.block then state.pins
        else Function.update state.pins blockno (state.pins blockno + 1) }

def endOp (state : LogThreads Thread) (thread : Thread) : LogThreads Thread :=
  let lowered := { state.log with outstanding := state.log.outstanding - 1 }
  if state.log.committing then { state with log := lowered, exited := some .committing }
  else if lowered.outstanding = 0 then
    { state with log := { lowered with committing := true } }.enter thread (.committing .start)
  else { state with log := lowered }.enter thread .outside

def commitStep (state : LogThreads Thread) (thread : Thread) : CommitPhase → LogThreads Thread
  | .start => state.enter thread (.committing (if state.log.n > 0 then .copying 0 else .done))
  | .copying tail => state.enter thread (.committing (if tail < state.log.n then .copying (tail + 1) else .header))
  | .header => state.enter thread (.committing (.installing 0))
  | .installing tail =>
    if tail < state.log.n then
      let blockno := state.log.block.getD tail 0
      { state with pins := Function.update state.pins blockno (state.pins blockno - 1) }.enter thread
        (.committing (.installing (tail + 1)))
    else state.enter thread (.committing .clearing)
  | .clearing => { state with log := { state.log with block := [] } }.enter thread (.committing .emptyHeader)
  | .emptyHeader => state.enter thread (.committing .done)
  | .done => { state with log := { state.log with committing := false } }.enter thread .outside

/-- Nothing happens after an exit, a thread does what its place in the code allows,
and `begin_op` waits until the log admits it. -/
def step (state : LogThreads Thread) (event : LogEvent Thread) : Option (LogThreads Thread) :=
  if state.exited.isSome then none
  else
    match event with
    | .beginOp thread =>
      if state.phase thread = .outside ∧ state.log.admits = true then some (state.beginOp thread) else none
    | .loggedWrite thread blockno => if state.phase thread = .inside then some (state.loggedWrite blockno) else none
    | .endOp thread => if state.phase thread = .inside then some (state.endOp thread) else none
    | .commit thread =>
      match state.phase thread with
      | .committing phase => some (state.commitStep thread phase)
      | _ => none

def run (state : LogThreads Thread) (events : List (LogEvent Thread)) : Option (LogThreads Thread) :=
  events.foldlM step state

end LogThreads

/-! What the events of a run log, counted without the log. -/

/-- The distinct blocks of the open group and of each thread's operation. -/
structure Ledger (Thread : Type) where
  depth : Nat
  group : List Nat
  own : Thread → List Nat

namespace Ledger
variable {Thread : Type} [DecidableEq Thread]

def start : Ledger Thread := { depth := 0, group := [], own := fun _ => [] }

def note (blocks : List Nat) (blockno : Nat) : List Nat := if blockno ∈ blocks then blocks else blocks ++ [blockno]

def record (ledger : Ledger Thread) : LogEvent Thread → Ledger Thread
  | .beginOp thread => { ledger with depth := ledger.depth + 1, own := Function.update ledger.own thread [] }
  | .loggedWrite thread blockno =>
    { ledger with
      group := note ledger.group blockno
      own := Function.update ledger.own thread (note (ledger.own thread) blockno) }
  | .endOp thread =>
    { depth := ledger.depth - 1
      group := if ledger.depth - 1 = 0 then [] else ledger.group
      own := Function.update ledger.own thread [] }
  | .commit _ => ledger

def of (events : List (LogEvent Thread)) : Ledger Thread := events.foldl record start

end Ledger

/-- Every operation logs at most `MAXOPBLOCKS` distinct blocks. -/
def KeepsReservation {Thread : Type} [DecidableEq Thread] (events : List (LogEvent Thread)) : Prop :=
  ∀ before after, events = before ++ after → ∀ thread, ((Ledger.of before).own thread).length ≤ MAXOPBLOCKS

end Myfuse
