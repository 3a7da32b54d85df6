import Myfuse.Inode

/-! Reads and writes of one file by many threads. At a restart a call gives up the
inode's lock and its operation; what it does in between is one step, and `begin_op`
and `end_op` are steps of their own. -/

namespace Myfuse
open Library Library.Exec

/-- What a call does when it has the inode: the whole of it, or what is left after a restart. -/
inductive FilePart where
  | write (data : List Byte) (off : Nat)
  | writeFirst (nbytes : Nat) (data : List Byte) (off : Nat)
  | writeBlocks (nbytes : Nat) (data : List Byte) (inode_blockno : Nat)
  | writeLast (nbytes : Nat) (data : List Byte) (inode_blockno : Nat)
  | read (nbytes off : Nat)
  | readBlocks (got : List Byte) (nbytes inode_blockno : Nat)
  | readLast (got : List Byte) (nbytes inode_blockno : Nat)

inductive FileAnswer where
  | wrote (nbytes : Nat)
  | served (data : List Byte)

/-- How a stretch between two restarts ends. -/
inductive Stretch where
  | again (part : FilePart)
  | done (answer : FileAnswer)

/-- The calls of the threads. -/
inductive IoCall where
  | write (data : List Byte) (off : Nat)
  | read (nbytes off : Nat)

def IoCall.part : IoCall → FilePart
  | .write data off => .write data off
  | .read nbytes off => .read nbytes off

namespace FS

/-- `restart_op_on` up to its `iunlock`. -/
def pauseOn (ip nwrote : Nat) (part : FilePart) (rest : M Stretch) : M Stretch := do
  let fs ← get
  if fs.n_log_wrote ≥ nwrote - 1 then
    iupdate ip
    pure (.again part)
  else rest

def finishWrite (ip nbytes : Nat) : M Stretch := do
  touch ip
  iupdate ip
  pure (.done (.wrote nbytes))

def writeLastPart (ip nbytes : Nat) (data : List Byte) (inode_blockno : Nat) : M Stretch := do
  if data.length ≠ 0 then writeBlock ip inode_blockno 0 data else pure ()
  finishWrite ip nbytes

/-- `inode_write_nbytes_locked` from its loop on. -/
def writeBlocksPart (ip nbytes : Nat) (data : List Byte) (inode_blockno : Nat) : M Stretch :=
  if data.length > BSIZE then
    pauseOn ip (MAXOPBLOCKS - 1 - 3 - 1) (.writeBlocks nbytes data inode_blockno) do
      writeBlock ip inode_blockno 0 (data.take BSIZE)
      writeBlocksPart ip nbytes (data.drop BSIZE) (inode_blockno + 1)
  else
    pauseOn ip (MAXOPBLOCKS - 3 - 1) (.writeLast nbytes data inode_blockno) (writeLastPart ip nbytes data inode_blockno)
  termination_by data.length
  decreasing_by
    rename_i more
    simp only [BSIZE, List.length_drop] at more ⊢
    omega

def writeFirstPart (ip nbytes : Nat) (data : List Byte) (off : Nat) : M Stretch := do
  let n_left := BSIZE - off % BSIZE
  writeBlock ip (off / BSIZE) (off % BSIZE) (data.take n_left)
  if nbytes ≤ n_left then finishWrite ip nbytes
  else writeBlocksPart ip nbytes (data.drop n_left) (off / BSIZE + 1)

def writePart (ip : Nat) (data : List Byte) (off : Nat) : M Stretch := do
  if off > MAXFILE_SIZE then pure (.done (.wrote 0))
  else
    let nbytes := if sizeT (off + data.length) > MAXFILE_SIZE then
      sizeT (data.length + 2 ^ 64 - (sizeT (off + data.length) - MAXFILE_SIZE)) else data.length
    let data := data.take nbytes
    modifyCopy ip fun copy => { copy with size := if copy.size < sizeT (off + nbytes) then sizeT (off + nbytes) else copy.size }
    iupdate ip
    pauseOn ip (MAXOPBLOCKS - 1 - 3 - 1) (.writeFirst nbytes data off) (writeFirstPart ip nbytes data off)

def finishRead (ip : Nat) (got : List Byte) : M Stretch := do
  iupdate ip
  let now ← getCurrentTimespec
  modifyCopy ip fun copy => { copy with st_atimespec := now }
  pure (.done (.served got))

/-- `inode_read_nbytes_locked` from its loop on. -/
def readBlocksPart (ip : Nat) (got : List Byte) (nbytes inode_blockno : Nat) : M Stretch :=
  if nbytes > BSIZE then
    pauseOn ip (MAXOPBLOCKS - 1 - 3) (.readBlocks got nbytes inode_blockno) do
      let data ← readBlock ip inode_blockno 0 BSIZE
      readBlocksPart ip (got ++ data) (nbytes - BSIZE) (inode_blockno + 1)
  else if nbytes ≠ 0 then
    pauseOn ip (MAXOPBLOCKS - 1 - 3) (.readLast got nbytes inode_blockno) do
      let data ← readBlock ip inode_blockno 0 nbytes
      finishRead ip (got ++ data)
  else finishRead ip got
  termination_by nbytes
  decreasing_by
    rename_i more
    simp only [BSIZE] at more ⊢
    omega

def readPart (ip nbytes off : Nat) : M Stretch := do
  let fs ← get
  let size := (fs.inode ip).copy.size
  if off > size then pure (.done (.served []))
  else
    let nbytes := if sizeT (off + nbytes) > size then sizeT (nbytes + 2 ^ 64 - (sizeT (off + nbytes) - size)) else nbytes
    let n_left := BSIZE - off % BSIZE
    let head ← readBlock ip (off / BSIZE) (off % BSIZE) (min n_left nbytes)
    if nbytes ≤ n_left then
      let now ← getCurrentTimespec
      modifyCopy ip fun copy => { copy with st_atimespec := now }
      iupdate ip
      pure (.done (.served head))
    else readBlocksPart ip head (nbytes - n_left) (off / BSIZE + 1)

/-- From where the inode is locked to the next restart or the end. -/
def stretch (ip : Nat) : FilePart → M Stretch
  | .write data off => writePart ip data off
  | .writeFirst nbytes data off => writeFirstPart ip nbytes data off
  | .writeBlocks nbytes data inode_blockno => do
    writeBlock ip inode_blockno 0 (data.take BSIZE)
    writeBlocksPart ip nbytes (data.drop BSIZE) (inode_blockno + 1)
  | .writeLast nbytes data inode_blockno => writeLastPart ip nbytes data inode_blockno
  | .read nbytes off => readPart ip nbytes off
  | .readBlocks got nbytes inode_blockno => do
    let data ← readBlock ip inode_blockno 0 BSIZE
    readBlocksPart ip (got ++ data) (nbytes - BSIZE) (inode_blockno + 1)
  | .readLast got nbytes inode_blockno => do
    let data ← readBlock ip inode_blockno 0 nbytes
    finishRead ip (got ++ data)

/-- The call when no other thread is there. -/
def ioAlone (ip : Nat) : IoCall → M FileAnswer
  | .write data off => do
    let nbytes ← inodeWriteNbytesUnlocked ip data off
    pure (.wrote nbytes)
  | .read nbytes off => do
    let data ← inodeReadNbytesUnlocked ip nbytes off
    pure (.served data)

end FS

/-- Where a thread is in its call; `n_log_wrote` is its own. -/
inductive FilePhase where
  | outside (part : FilePart)
  | opened (part : FilePart) (n_log_wrote : Nat)
  | closing (stretch : Stretch) (n_log_wrote : Nat)
  | returned (answer : FileAnswer)

structure WriteThreads (Thread : Type) where
  fs : FS
  phase : Thread → FilePhase

namespace WriteThreads
variable {Thread : Type} [DecidableEq Thread]

/-- Where a thread is after its `end_op`. -/
def outsideAfter : Stretch → FilePhase
  | .again part => .outside part
  | .done answer => .returned answer

def opens (part : FilePart) : M FilePhase := do
  FS.beginOp
  let fs ← get
  pure (.opened part fs.n_log_wrote)

def works (ip : Nat) (part : FilePart) (n_log_wrote : Nat) : M FilePhase := do
  modify fun fs => { fs with n_log_wrote }
  FS.ilock ip
  let stretch ← FS.stretch ip part
  FS.iunlock ip
  let fs ← get
  pure (.closing stretch fs.n_log_wrote)

def closes (stretch : Stretch) (n_log_wrote : Nat) : M FilePhase := do
  modify fun fs => { fs with n_log_wrote }
  FS.endOp
  pure (outsideAfter stretch)

/-- What a thread does next, and where it is then. -/
def next (ip : Nat) : FilePhase → M FilePhase
  | .outside part => opens part
  | .opened part n_log_wrote => works ip part n_log_wrote
  | .closing stretch n_log_wrote => closes stretch n_log_wrote
  | .returned answer => pure (.returned answer)

/-- A thread that has to wait, and a process that ends, take no step. -/
def step (ip : Nat) (state : WriteThreads Thread) (thread : Thread) : Option (WriteThreads Thread) :=
  match next ip (state.phase thread) state.fs with
  | (.ok phase, fs) => some { fs, phase := assign state.phase thread phase }
  | (.error _, _) => none

/-- The steps of any threads in any order. -/
inductive Runs (ip : Nat) (start : WriteThreads Thread) : WriteThreads Thread → Prop where
  | nil : Runs ip start start
  | step {state after : WriteThreads Thread} {thread : Thread} (before : Runs ip start state)
      (stepped : state.step ip thread = some after) : Runs ip start after

/-- Every thread is about to make its call. -/
def begun (fs : FS) (calls : Thread → IoCall) : WriteThreads Thread := { fs, phase := fun thread => .outside (calls thread).part }

end WriteThreads
end Myfuse
