import Myfuse.LinkedCache
import Myfuse.LogThreads

/-! `buf_cache.c` under the threads of the log: who holds which buffer, who waits for
which lock, and the reads of `commit`, in any order. -/

namespace Myfuse
open Library

/-- What `commit` calls. `advance` is a step of `commit` itself, with its `bunpin`. -/
inductive CommitCall where
  | bread (blockno : Nat)
  | brelse (blockno : Nat)
  | advance
  deriving DecidableEq

/-- One round of a loop of `commit`, or one of its header writes. -/
def commitCalls (log : Fslog) : CommitPhase → List CommitCall
  | .copying tail =>
    let to_ := log.start + tail + 1
    let from_ := log.block.getD tail 0
    if tail < log.n then [.bread to_, .bread from_, .brelse to_, .brelse from_, .advance] else [.advance]
  | .installing tail =>
    let logged := log.start + tail + 1
    let dst := log.block.getD tail 0
    if tail < log.n then [.bread logged, .bread dst, .advance, .brelse logged, .brelse dst] else [.advance]
  | .header | .emptyHeader => [.bread log.start, .brelse log.start, .advance]
  | .start | .clearing | .done => [.advance]

structure CacheThreads (Thread : Type) where
  threads : LogThreads Thread
  bcache : Bcache
  /-- The buffers that `bget` has counted for a thread and `brelse` has not given back. -/
  held : List (Thread × Handle)
  /-- The buffer whose lock a thread waits for at the end of `bget`. -/
  waiting : Thread → Option Handle
  /-- What is left of a committing thread's round. -/
  round : Thread → List CommitCall

/-- A call names a buffer by its block; `now` is what `current_timestamp` returns. -/
inductive CacheThreadsEvent (Thread : Type) where
  | beginOp (thread : Thread)
  | loggedRead (thread : Thread) (blockno : Nat)
  | lock (thread : Thread)
  | loggedWrite (thread : Thread) (blockno : Nat)
  | loggedRelse (thread : Thread) (blockno : Nat) (now : BitVec 64)
  | endOp (thread : Thread)
  | commit (thread : Thread) (now : BitVec 64)

namespace CacheThreads
variable {Thread : Type} [DecidableEq Thread]

/-- After `log_init` on a disk whose log is empty. -/
def start (sb : Superblock) (bcache : Bcache) : CacheThreads Thread :=
  { threads := LogThreads.start sb, bcache, held := [], waiting := fun _ => none, round := fun _ => [] }

def handle (state : CacheThreads Thread) (thread : Thread) (blockno : Nat) : Option Handle :=
  (state.held.find? fun entry => decide (entry.1 = thread ∧ (state.bcache.buf entry.2).blockno = blockno)).map (·.2)

/-- `bget` up to the buffer's lock. A search that finds no buffer goes on, and is no step. -/
def bget (state : CacheThreads Thread) (thread : Thread) (blockno : Nat) : Option (CacheThreads Thread) :=
  (state.bcache.bget blockno).map fun (b, bcache) =>
    { state with bcache, held := (thread, b) :: state.held, waiting := assign state.waiting thread (some b) }

def lock (state : CacheThreads Thread) (thread : Thread) : Option (CacheThreads Thread) :=
  (state.waiting thread).bind fun b =>
    if (state.bcache.buf b).locked then none
    else
      some { state with
        bcache := state.bcache.setBuf b fun buf => { buf with locked := true }
        waiting := assign state.waiting thread none }

def brelse (state : CacheThreads Thread) (thread : Thread) (blockno : Nat) (now : BitVec 64) : Option (CacheThreads Thread) :=
  (state.handle thread blockno).map fun b =>
    { state with
      bcache := state.bcache.setBuf b fun buf => { buf.release now with locked := false }
      held := state.held.erase (thread, b) }

/-- The block's first `logged_write` of a group pins its buffer. -/
def loggedWrite (state : CacheThreads Thread) (thread : Thread) (blockno : Nat) : Option (CacheThreads Thread) :=
  (state.handle thread blockno).bind fun b =>
    (state.threads.step (.loggedWrite thread blockno)).map fun threads =>
      { state with
        threads
        bcache := if threads.exited.isSome ∨ blockno ∈ state.threads.log.block then state.bcache
          else state.bcache.setBuf b BcacheBuf.pin }

/-- The `bunpin` of `install_transaction`. -/
def unpinned (state : CacheThreads Thread) (thread : Thread) : CommitPhase → Option Bcache
  | .installing tail =>
    if tail < state.threads.log.n then
      (state.handle thread (state.threads.log.block.getD tail 0)).map fun b => state.bcache.setBuf b BcacheBuf.unpin
    else some state.bcache
  | _ => some state.bcache

def commitCall (state : CacheThreads Thread) (thread : Thread) (phase : CommitPhase) (now : BitVec 64) :
    CommitCall → Option (CacheThreads Thread)
  | .bread blockno => state.bget thread blockno
  | .brelse blockno => state.brelse thread blockno now
  | .advance =>
    (state.unpinned thread phase).bind fun bcache =>
      (state.threads.step (.commit thread)).map fun threads => { state with threads, bcache }

def commitStep (state : CacheThreads Thread) (thread : Thread) (phase : CommitPhase) (now : BitVec 64) :
    Option (CacheThreads Thread) :=
  match state.round thread with
  | [] => some { state with round := assign state.round thread (commitCalls state.threads.log phase) }
  | call :: rest => { state with round := assign state.round thread rest }.commitCall thread phase now call

/-- A thread that waits for a lock can do nothing else. -/
def step (state : CacheThreads Thread) (event : CacheThreadsEvent Thread) : Option (CacheThreads Thread) :=
  if state.threads.exited.isSome then none
  else
    match event with
    | .lock thread => state.lock thread
    | .beginOp thread =>
      if state.waiting thread = none then (state.threads.step (.beginOp thread)).map fun threads => { state with threads }
      else none
    | .loggedRead thread blockno =>
      if state.waiting thread = none ∧ state.threads.phase thread = .inside then state.bget thread blockno else none
    | .loggedWrite thread blockno => if state.waiting thread = none then state.loggedWrite thread blockno else none
    | .loggedRelse thread blockno now =>
      if state.waiting thread = none ∧ state.threads.phase thread = .inside then state.brelse thread blockno now else none
    | .endOp thread =>
      if state.waiting thread = none then (state.threads.step (.endOp thread)).map fun threads => { state with threads }
      else none
    | .commit thread now =>
      match state.threads.phase thread with
      | .committing phase => if state.waiting thread = none then state.commitStep thread phase now else none
      | _ => none

def run (state : CacheThreads Thread) (events : List (CacheThreadsEvent Thread)) : Option (CacheThreads Thread) :=
  events.foldlM step state

end CacheThreads

/-- What an event does to the ledger of the log. -/
def CacheThreadsEvent.logged {Thread : Type} : CacheThreadsEvent Thread → Option (LogEvent Thread)
  | .beginOp thread => some (.beginOp thread)
  | .loggedWrite thread blockno => some (.loggedWrite thread blockno)
  | .endOp thread => some (.endOp thread)
  | _ => none

end Myfuse
