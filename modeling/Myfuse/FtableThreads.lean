import Myfuse.File

/-! The table of open files by many threads: one step for each section under
`ftable.lock` and for what a thread does to its entry without the lock. -/

namespace Myfuse
open Library Library.Exec

namespace FS

/-- `fileclose` under `ftable.lock`: the inode that is left to put, if this was the last reference. -/
def closeSection (f : Nat) : M (Option (Option Nat)) := do
  let fs ← get
  if (fs.files f).ref < 1 then stop (.errExit .fileclose)
  else
    modifyFile f fun file => { file with ref := file.ref - 1 }
    if (fs.files f).ref - 1 > 0 then pure none else pure (some (fs.files f).ip)

/-- `filedup`, which nothing calls; an error is its `err_exit`. -/
def filedup (f : Nat) (fs : FS) : Except String FS :=
  if (fs.files f).ref < 1 then .error "filedup: ref < 1"
  else .ok { fs with files := assign fs.files f { fs.files f with ref := (fs.files f).ref + 1 } }

/-- `fileclose` after the lock. -/
def putSection : Option (Option Nat) → M Unit
  | none => pure ()
  | some ip => do
    beginOp
    iputPtr ip
    endOp

end FS

/-- A pointer to an entry, of a thread or in a `fuse_file_info`; the opens are numbered. -/
structure FileRef (Thread : Type) where
  holder : Option Thread
  f : Nat
  serial : Nat
  deriving DecidableEq

/-- How far a thread is in an open or in `fileclose`. -/
inductive FtablePhase where
  | idle
  | allocating (ip : Nat) (flags : Option Nat)
  /-- `filealloc` has returned. -/
  | allocated (f serial ip : Nat) (flags : Option Nat)
  /-- `file->type` and `file->ip` are set. -/
  | pointed (f serial ip : Nat) (flags : Option Nat)
  | closing (f serial : Nat)
  /-- After the lock, when it was the last reference. -/
  | putting (ip : Option Nat)

structure FtableThreads (Thread : Type) where
  fs : FS
  phase : Thread → FtablePhase
  refs : List (FileRef Thread)
  /-- The inodes that the opens were for, in the order of their `filealloc`. -/
  opens : List Nat
  /-- The opens that are over, each with the inode that is put. -/
  puts : List (Nat × Option Nat)

inductive FtableEvent (Thread : Type) where
  /-- From where the inode is locked; `myfuse_opendir` looks at no flags. -/
  | open (thread : Thread) (ip : Nat) (flags : Option Nat)
  | filedup (thread : Thread) (ref : FileRef Thread)
  | release (thread : Thread) (ref : FileRef Thread)
  | next (thread : Thread)
  /-- What the other calls do to the rest of the file system. -/
  | other (fs : FS)

namespace FtableThreads
variable {Thread : Type} [DecidableEq Thread]
open FS

def enter (state : FtableThreads Thread) (thread : Thread) (phase : FtablePhase) : FtableThreads Thread :=
  { state with phase := assign state.phase thread phase }

/-- The effect of a program; a process that ends takes no step. -/
def run {α : Type} (state : FtableThreads Thread) (program : M α) : Option (α × FtableThreads Thread) :=
  match program state.fs with
  | (.ok value, fs) => some (value, { state with fs })
  | (.error _, _) => none

/-- `fi->fh = (size_t)file`. -/
def publish (state : FtableThreads Thread) (thread : Thread) (f serial : Nat) : FtableThreads Thread :=
  { state with refs := ⟨none, f, serial⟩ :: state.refs.erase ⟨some thread, f, serial⟩ }.enter thread .idle

def advance (state : FtableThreads Thread) (thread : Thread) : FtablePhase → Option (FtableThreads Thread)
  | .idle => none
  | .allocating ip flags =>
    (state.run filealloc).map fun (f, state) =>
      { state with refs := ⟨some thread, f, state.opens.length⟩ :: state.refs, opens := state.opens ++ [ip] }.enter thread
        (.allocated f state.opens.length ip flags)
  | .allocated f serial ip flags =>
    (state.run (modifyFile f fun file => { file with isInode := true, ip := some ip })).map fun (_, state) =>
      state.enter thread (.pointed f serial ip flags)
  | .pointed f serial _ none => some (state.publish thread f serial)
  | .pointed f serial _ (some flags) => (state.run (setAccess f flags)).map fun (_, state) => state.publish thread f serial
  | .closing f serial =>
    (state.run (closeSection f)).map fun (last, state) =>
      let state := { state with refs := state.refs.erase ⟨some thread, f, serial⟩ }
      match last with
      | none => state.enter thread .idle
      | some ip => { state with puts := (serial, ip) :: state.puts }.enter thread (.putting ip)
  | .putting ip => (state.run (putSection (some ip))).map fun (_, state) => state.enter thread .idle

/-- A thread in a function goes on with it. -/
def step (state : FtableThreads Thread) : FtableEvent Thread → Option (FtableThreads Thread)
  | .next thread => state.advance thread (state.phase thread)
  | .open thread ip flags =>
    match state.phase thread with
    | .idle => some (state.enter thread (.allocating ip flags))
    | _ => none
  | .filedup thread ref =>
    match state.phase thread, FS.filedup ref.f state.fs with
    | .idle, .ok fs => some { state with fs, refs := ref :: state.refs }
    | _, _ => none
  | .release thread ref =>
    match state.phase thread with
    | .idle => some ({ state with refs := ⟨some thread, ref.f, ref.serial⟩ :: state.refs.erase ref }.enter thread (.closing ref.f ref.serial))
    | _ => none
  | .other fs => some { state with fs := { fs with files := state.fs.files, nfile := state.fs.nfile } }

/-- Threads use the handles that are open. -/
def Holds (state : FtableThreads Thread) : FtableEvent Thread → Prop
  | .filedup _ ref | .release _ ref => ref ∈ state.refs ∧ ref.holder = none
  | .open _ _ _ | .next _ | .other _ => True

/-- Runs in which threads use the handles that are open. -/
inductive Runs (start : FtableThreads Thread) : FtableThreads Thread → Prop where
  | nil : Runs start start
  | step {state after : FtableThreads Thread} {event : FtableEvent Thread} (before : Runs start state) (holds : state.Holds event)
      (stepped : state.step event = some after) : Runs start after

/-- After `file_init`. -/
def begun (fs : FS) : FtableThreads Thread :=
  { fs := (fileInit fs).2, phase := fun _ => .idle, refs := [], opens := [], puts := [] }

end FtableThreads
end Myfuse
