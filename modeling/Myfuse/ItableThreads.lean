import Myfuse.InodeThreads

/-! The inode table by itself: one event for each section of `iget`, `idup` and `iput`
under `itable.lock`, in any order. What is behind an inode's own lock may change at any
time. -/

namespace Myfuse
open Library

/-- How far a thread is in `iget` or `iput`. -/
inductive ItablePhase where
  | idle
  | getting (inum : Nat)
  /-- `iput` has found the last reference; it keeps `itable.lock` and waits for the inode's. -/
  | waiting (ip : Nat)
  /-- It frees the inode, without `itable.lock`. -/
  | freeing (ip : Nat)
  | dropping (ip : Nat)
  deriving DecidableEq

/-- A pointer in use: who has it, and the number `iget` was asked for. -/
structure Reference (Thread : Type) where
  holder : Thread
  ip : Nat
  inum : Nat
  deriving DecidableEq

structure ItableThreads (Thread : Type) where
  inode : Nat → TableInode Thread
  ninode : Nat
  /-- `itable.lock`, where a thread keeps it between two events. -/
  lock : Option Thread
  phase : Thread → ItablePhase
  held : List (Reference Thread)
  /-- How often `ref` of an entry was incremented, or set to 1, and decremented. -/
  taken : Nat → Nat
  dropped : Nat → Nat

inductive ItableEvent (Thread : Type) where
  | iget (thread : Thread) (inum : Nat)
  | idup (thread : Thread) (ip : Nat)
  | iput (thread : Thread) (ip : Nat)
  /-- The thread's next section inside a function. -/
  | next (thread : Thread)
  /-- A pointer is passed on. -/
  | pass (reference : Reference Thread) (thread : Thread)
  /-- Fields that the inode's own lock is for. -/
  | change (ip : Nat) (owner : Option Thread) (valid : Bool) (copy : Dinode)

namespace ItableThreads
variable {Thread : Type} [DecidableEq Thread]

def enter (state : ItableThreads Thread) (thread : Thread) (phase : ItablePhase) : ItableThreads Thread :=
  { state with phase := assign state.phase thread phase }

def setInode (state : ItableThreads Thread) (ip : Nat) (inode : TableInode Thread) : ItableThreads Thread :=
  { state with inode := assign state.inode ip inode }

/-- A reference is counted, and the pointer returned. -/
def give (state : ItableThreads Thread) (thread : Thread) (ip : Nat) (inode : TableInode Thread) : ItableThreads Thread :=
  { state.setInode ip inode with
    held := ⟨thread, ip, inode.inum⟩ :: state.held
    taken := assign state.taken ip (state.taken ip + 1) }.enter thread .idle

/-- `itable_grow`. -/
def grow (state : ItableThreads Thread) : ItableThreads Thread :=
  { state with
    ninode := state.ninode * 2
    inode := fun ip => if state.ninode ≤ ip ∧ ip < state.ninode * 2 then ⟨0, 0, none, false, Dinode.zero⟩ else state.inode ip }

/-- `iget` under the lock; after `itable_grow` it starts again. -/
def search (state : ItableThreads Thread) (thread : Thread) (inum : Nat) : ItableThreads Thread :=
  match (List.range state.ninode).find? fun ip => (state.inode ip).inum = inum ∧ 0 < (state.inode ip).ref with
  | some ip => state.give thread ip { state.inode ip with ref := (state.inode ip).ref + 1 }
  | none =>
    match (List.range state.ninode).find? fun ip => (state.inode ip).ref = 0 with
    | some ip => state.give thread ip { state.inode ip with inum, ref := 1, valid := false }
    | none => state.grow

def drop (state : ItableThreads Thread) (thread : Thread) (ip : Nat) : ItableThreads Thread :=
  { state.setInode ip { state.inode ip with ref := (state.inode ip).ref - 1 } with
    held := state.held.erase ⟨thread, ip, (state.inode ip).inum⟩
    dropped := assign state.dropped ip (state.dropped ip + 1) }.enter thread .idle

/-- The test of `iput`: the last reference to an inode without links frees it. -/
def Last (state : ItableThreads Thread) (ip : Nat) : Prop :=
  (state.inode ip).ref = 1 ∧ (state.inode ip).valid = true ∧ (state.inode ip).copy.nlink = 0

instance (state : ItableThreads Thread) (ip : Nat) : Decidable (state.Last ip) := inferInstanceAs (Decidable (_ ∧ _ ∧ _))

def advance (state : ItableThreads Thread) (thread : Thread) : ItablePhase → Option (ItableThreads Thread)
  | .idle => none
  | .getting inum => if state.lock = none then some (state.search thread inum) else none
  | .waiting ip =>
    if (state.inode ip).owner = none then
      some ({ state.setInode ip { state.inode ip with owner := some thread } with lock := none }.enter thread (.freeing ip))
    else none
  | .freeing ip => some ((state.setInode ip { state.inode ip with owner := none, valid := false }).enter thread (.dropping ip))
  | .dropping ip => if state.lock = none then some (state.drop thread ip) else none

/-- A thread in a function goes on with it. -/
def step (state : ItableThreads Thread) : ItableEvent Thread → Option (ItableThreads Thread)
  | .next thread => state.advance thread (state.phase thread)
  | .iget thread inum => if state.phase thread = .idle then some (state.enter thread (.getting inum)) else none
  | .idup thread ip =>
    if state.phase thread = .idle ∧ state.lock = none then
      some (state.give thread ip { state.inode ip with ref := (state.inode ip).ref + 1 })
    else none
  | .iput thread ip =>
    if state.phase thread = .idle ∧ state.lock = none then
      if state.Last ip then some ({ state with lock := some thread }.enter thread (.waiting ip)) else some (state.drop thread ip)
    else none
  | .pass reference thread =>
    if state.phase reference.holder = .idle then
      some { state with held := { reference with holder := thread } :: state.held.erase reference }
    else none
  | .change ip owner valid copy => some (state.setInode ip { state.inode ip with owner, valid, copy })

/-- Threads use the pointers they hold. -/
def Holds (state : ItableThreads Thread) : ItableEvent Thread → Prop
  | .idup thread ip | .iput thread ip => ∃ inum, ⟨thread, ip, inum⟩ ∈ state.held
  | .pass reference _ => reference ∈ state.held
  | _ => True

/-- Runs in which threads use the pointers they hold. -/
inductive Runs (start : ItableThreads Thread) : ItableThreads Thread → Prop where
  | nil : Runs start start
  | step {state after : ItableThreads Thread} {event : ItableEvent Thread} (before : Runs start state) (holds : state.Holds event)
      (stepped : state.step event = some after) : Runs start after

/-- After `inode_init`: no entry is in use and no thread has begun. -/
structure Initial (state : ItableThreads Thread) : Prop where
  started : 0 < state.ninode
  unused : ∀ ip, (state.inode ip).ref = 0
  lock : state.lock = none
  idle : ∀ thread, state.phase thread = .idle
  held : state.held = []
  counts : ∀ ip, state.taken ip = 0 ∧ state.dropped ip = 0

end ItableThreads
end Myfuse
