import Myfuse.Inode

/-! The inode table as its threads see it: one event for each section under the lock of
the table, of an inode or of an inode block's buffer, in any order the locks allow. -/

namespace Myfuse
open Library

/-- How far a thread is in `ialloc`, `iget`, `ilock` or `iput`. -/
inductive InodePhase where
  | idle
  /-- `ialloc` looks at this dinode next. -/
  | scanning (type : BitVec 16) (inum : Nat)
  /-- `iget`; with the type, when `ialloc` has written the dinode. -/
  | getting (inum : Nat) (type : Option (BitVec 16))
  /-- `ilock` holds the lock and reads the dinode next. -/
  | reading (ip : Nat)
  /-- `iput` holds the lock, and truncates next. -/
  | truncating (ip : Nat)
  /-- It writes the dinode as unused next. -/
  | freeing (ip : Nat)
  | invalidating (ip : Nat)
  | dropping (ip : Nat)
  deriving DecidableEq

/-- `struct inode`, with the thread that holds its lock. -/
structure TableInode (Thread : Type) where
  inum : Nat
  ref : Int
  owner : Option Thread
  valid : Bool
  copy : Dinode

structure InodeThreads (Thread : Type) where
  /-- `sb.ninodes`. -/
  ninodes : Nat
  dinode : Nat → Dinode
  inode : Nat → TableInode Thread
  ninode : Nat
  phase : Thread → InodePhase
  exited : Option Fatal
  /-- The pointers that `iget` has returned to each thread and that it has not put. -/
  held : List (Thread × Nat)
  /-- What `ialloc` has handed out, and no `iput` has freed since. -/
  live : List Nat
  /-- The pointers from `ialloc` that their thread has not locked yet, with the type asked for. -/
  fresh : List (Thread × Nat × BitVec 16)
  /-- The type asked for, and what the first `ilock` found. -/
  seen : List (BitVec 16 × Dinode)

inductive InodeEvent (Thread : Type) where
  | ialloc (thread : Thread) (type : BitVec 16)
  | iget (thread : Thread) (inum : Nat)
  | ilock (thread : Thread) (ip : Nat)
  | iunlock (thread : Thread) (ip : Nat)
  /-- Fields of the copy are set; the type is not set outside of this file's functions. -/
  | change (thread : Thread) (ip : Nat) (set : Dinode → Dinode)
  | iupdate (thread : Thread) (ip : Nat) (now : Timespec)
  | iput (thread : Thread) (ip : Nat)
  /-- The thread's next step inside a function. -/
  | next (thread : Thread) (now : Timespec)

/-- What `ialloc` writes. -/
def Dinode.allocated (type : BitVec 16) : Dinode := { Dinode.zero with type }

namespace InodeThreads
variable {Thread : Type} [DecidableEq Thread]

def enter (state : InodeThreads Thread) (thread : Thread) (phase : InodePhase) : InodeThreads Thread :=
  { state with phase := assign state.phase thread phase }

def exit (state : InodeThreads Thread) (reason : Fatal) : InodeThreads Thread := { state with exited := some reason }

def setInode (state : InodeThreads Thread) (ip : Nat) (inode : TableInode Thread) : InodeThreads Thread :=
  { state with inode := assign state.inode ip inode }

/-- The loop of `ialloc`, under the lock of the buffer. -/
def scan (state : InodeThreads Thread) (thread : Thread) (type : BitVec 16) (inum : Nat) : InodeThreads Thread :=
  if state.ninodes ≤ inum then state.exit .tooManyFiles
  else if (state.dinode inum).type = T_UNUSE_INODE_MYFUSE then
    { state with dinode := assign state.dinode inum (Dinode.allocated type) }.enter thread (.getting inum (some type))
  else state.enter thread (.scanning type (inum + 1))

/-- `iget` returns the pointer, and `ialloc` with it. -/
def give (state : InodeThreads Thread) (thread : Thread) (inum ip : Nat) : Option (BitVec 16) → InodeThreads Thread
  | none => { state with held := (thread, ip) :: state.held }.enter thread .idle
  | some type =>
    { state with held := (thread, ip) :: state.held, live := inum :: state.live, fresh := (thread, ip, type) :: state.fresh }.enter
      thread .idle

/-- `iget` under the lock of the table; after `itable_grow` it starts again. -/
def get (state : InodeThreads Thread) (thread : Thread) (inum : Nat) (type : Option (BitVec 16)) : InodeThreads Thread :=
  match (List.range state.ninode).find? fun ip => (state.inode ip).inum = inum ∧ 0 < (state.inode ip).ref with
  | some ip => (state.setInode ip { state.inode ip with ref := (state.inode ip).ref + 1 }).give thread inum ip type
  | none =>
    match (List.range state.ninode).find? fun ip => (state.inode ip).ref = 0 with
    | some ip => (state.setInode ip { state.inode ip with inum, ref := 1, valid := false }).give thread inum ip type
    | none =>
      { state with
        ninode := state.ninode * 2
        inode := fun ip => if state.ninode ≤ ip ∧ ip < state.ninode * 2 then ⟨0, 0, none, false, Dinode.zero⟩ else state.inode ip }

/-- Handed out by `ialloc` as this pointer to this thread. -/
def isGift (thread : Thread) (ip : Nat) (given : Thread × Nat × BitVec 16) : Bool := given.1 = thread ∧ given.2.1 = ip

/-- `ilock` returns: what the thread finds in an inode from `ialloc` is noted once. -/
def lockTaken (state : InodeThreads Thread) (thread : Thread) (ip : Nat) : InodeThreads Thread :=
  { state with
    seen := ((state.fresh.filter (isGift thread ip)).map fun (given : Thread × Nat × BitVec 16) => (given.2.2, (state.inode ip).copy)) ++ state.seen
    fresh := state.fresh.filter fun given => !isGift thread ip given }.enter thread .idle

def lock (state : InodeThreads Thread) (thread : Thread) (ip : Nat) : InodeThreads Thread :=
  if (state.inode ip).valid then (state.setInode ip { state.inode ip with owner := some thread }).lockTaken thread ip
  else (state.setInode ip { state.inode ip with owner := some thread }).enter thread (.reading ip)

/-- The dinode is read, and its type tested. -/
def read (state : InodeThreads Thread) (thread : Thread) (ip : Nat) : InodeThreads Thread :=
  let copy := state.dinode (state.inode ip).inum
  let loaded := state.setInode ip { state.inode ip with copy, valid := true }
  if copy.type = T_UNUSE_INODE_MYFUSE then loaded.exit .unusedInode
  else if copy.type ≠ T_FILE_INODE_MYFUSE ∧ copy.type ≠ T_DIR_INODE_MYFUSE ∧ copy.type ≠ T_DEVICE_INODE_MYFUSE then
    loaded.exit .invalidType
  else loaded.lockTaken thread ip

/-- The copy is set, and written to the dinode as `iupdate` does. -/
def store (state : InodeThreads Thread) (ip : Nat) (copy : Dinode) (now : Timespec) : InodeThreads Thread :=
  { state.setInode ip { state.inode ip with copy := { copy with st_ctimespec := now } } with
    dinode := assign state.dinode (state.inode ip).inum { copy with st_ctimespec := now } }

def drop (state : InodeThreads Thread) (thread : Thread) (ip : Nat) : InodeThreads Thread :=
  { state.setInode ip { state.inode ip with ref := (state.inode ip).ref - 1 } with
    held := state.held.erase (thread, ip)
    fresh := state.fresh.filter fun given => !isGift thread ip given }.enter thread .idle

/-- The test of `iput`: the last reference to an inode without links frees it. -/
def Last (state : InodeThreads Thread) (ip : Nat) : Prop :=
  (state.inode ip).ref = 1 ∧ (state.inode ip).valid = true ∧ (state.inode ip).copy.nlink = 0

instance (state : InodeThreads Thread) (ip : Nat) : Decidable (state.Last ip) := inferInstanceAs (Decidable (_ ∧ _ ∧ _))

def advance (state : InodeThreads Thread) (thread : Thread) (now : Timespec) : InodePhase → Option (InodeThreads Thread)
  | .idle => none
  | .scanning type inum => some (state.scan thread type inum)
  | .getting inum type => some (state.get thread inum type)
  | .reading ip => some (state.read thread ip)
  | .truncating ip =>
    some ((state.store ip { (state.inode ip).copy with size := 0, addrs := fun _ => 0 } now).enter thread (.freeing ip))
  | .freeing ip =>
    let freed := state.store ip { (state.inode ip).copy with type := T_UNUSE_INODE_MYFUSE } now
    some ({ freed with live := freed.live.erase (state.inode ip).inum }.enter thread (.invalidating ip))
  | .invalidating ip =>
    some ((state.setInode ip { state.inode ip with valid := false, owner := none }).enter thread (.dropping ip))
  | .dropping ip => some (state.drop thread ip)

/-- Nothing happens after an exit, and a thread in a function goes on with it. A lock
that is taken has to be waited for. -/
def step (state : InodeThreads Thread) (event : InodeEvent Thread) : Option (InodeThreads Thread) :=
  if state.exited.isSome then none
  else
    match event with
    | .next thread now => state.advance thread now (state.phase thread)
    | .ialloc thread type => if state.phase thread = .idle then some (state.enter thread (.scanning type 1)) else none
    | .iget thread inum => if state.phase thread = .idle then some (state.enter thread (.getting inum none)) else none
    | .ilock thread ip =>
      if state.phase thread ≠ .idle then none
      else if (state.inode ip).ref < 1 then some (state.exit .invalidInode)
      else if (state.inode ip).owner = none then some (state.lock thread ip)
      else none
    | .iunlock thread ip =>
      if state.phase thread = .idle then some (state.setInode ip { state.inode ip with owner := none }) else none
    | .change thread ip set =>
      if state.phase thread = .idle then
        some (state.setInode ip { state.inode ip with copy := { set (state.inode ip).copy with type := (state.inode ip).copy.type } })
      else none
    | .iupdate thread ip now => if state.phase thread = .idle then some (state.store ip (state.inode ip).copy now) else none
    | .iput thread ip =>
      if state.phase thread ≠ .idle then none
      else if state.Last ip then
        if (state.inode ip).owner = none then
          some ((state.setInode ip { state.inode ip with owner := some thread }).enter thread (.truncating ip))
        else none
      else some (state.drop thread ip)

/-- Threads use the pointers they hold, change and unlock what they have locked, and
keep a reference to what they have locked. -/
def Holds (state : InodeThreads Thread) : InodeEvent Thread → Prop
  | .ilock thread ip => (thread, ip) ∈ state.held
  | .iunlock thread ip => (thread, ip) ∈ state.held ∧ (state.inode ip).owner = some thread
  | .change thread ip _ => (thread, ip) ∈ state.held ∧ (state.inode ip).owner = some thread
  | .iupdate thread ip _ => (thread, ip) ∈ state.held ∧ (state.inode ip).owner = some thread
  | .iput thread ip => (thread, ip) ∈ state.held ∧ ((state.inode ip).owner = some thread → (thread, ip) ∈ state.held.erase (thread, ip))
  | _ => True

/-- The number names an inode: it is allocated, handed out and locked by its thread since, and no `iput` is freeing it. -/
structure InUse (state : InodeThreads Thread) (inum : Nat) : Prop where
  allocated : (state.dinode inum).type ≠ T_UNUSE_INODE_MYFUSE
  given : ∀ thread type, state.phase thread ≠ .getting inum (some type)
  locked : ∀ given ∈ state.fresh, (state.inode given.2.1).inum ≠ inum
  kept : ∀ thread ip, state.phase thread = .truncating ip ∨ state.phase thread = .freeing ip → (state.inode ip).inum ≠ inum

/-- `ialloc` is asked for a type of inode, and `iget` outside of it for an inode in use. -/
def Sound (state : InodeThreads Thread) : InodeEvent Thread → Prop
  | .ialloc _ type => type ≠ T_UNUSE_INODE_MYFUSE
  | .next thread _ => ∀ inum, state.phase thread = .getting inum none → state.InUse inum
  | _ => True

/-- Runs whose events all meet a rule. -/
inductive Runs (rule : InodeThreads Thread → InodeEvent Thread → Prop) : InodeThreads Thread → InodeThreads Thread → Prop where
  | nil (state : InodeThreads Thread) : Runs rule state state
  | step {start state after : InodeThreads Thread} {event : InodeEvent Thread} (before : Runs rule start state) (allowed : rule state event)
      (stepped : state.step event = some after) : Runs rule start after

/-- After `inode_init`, on any disk: no entry is in use and no thread has begun. -/
structure Initial (state : InodeThreads Thread) : Prop where
  unused : ∀ ip, (state.inode ip).ref = 0 ∧ (state.inode ip).owner = none
  idle : ∀ thread, state.phase thread = .idle
  held : state.held = []
  live : state.live = []
  fresh : state.fresh = []
  seen : state.seen = []

end InodeThreads
end Myfuse
