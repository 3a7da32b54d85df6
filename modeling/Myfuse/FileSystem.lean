import Myfuse.Library.Assign
import Myfuse.Library.Exec
import Myfuse.Log

/-! The state that the layers above the log share, and the logged block access
they use. One thread runs at a time, so a buffer is what `bread` serves, and
waiting for oneself is a way of not returning. -/

namespace Myfuse
open Library Library.Exec

abbrev T_UNUSE_INODE_MYFUSE : BitVec 16 := 0
abbrev T_DIR_INODE_MYFUSE : BitVec 16 := 1
abbrev T_FILE_INODE_MYFUSE : BitVec 16 := 2
abbrev T_DEVICE_INODE_MYFUSE : BitVec 16 := 3

structure Timespec where
  tv_sec : Nat
  tv_nsec : Nat
  deriving DecidableEq, Repr

/-- `struct dinode`; `struct inode` holds a copy of every field. -/
structure Dinode where
  type : BitVec 16
  major : BitVec 16
  minor : BitVec 16
  nlink : BitVec 16
  size : Nat
  st_atimespec : Timespec
  st_mtimespec : Timespec
  st_ctimespec : Timespec
  perm : Nat
  addrs : Nat → Nat

/-- `struct inode`. -/
structure Inode where
  inum : Nat
  ref : Int
  locked : Bool
  valid : Bool
  copy : Dinode

/-- The `uint` fields are kept below `2 ^ 32`; -1 is `2 ^ 32 - 1` in `first_free_cache`. -/
structure BmapCache where
  cache_buf : Nat → Byte
  first_unalloced : Nat → Int
  n_alloced : Nat → Nat
  n_cache : Nat
  first_free_cache : Nat

/-- `struct file`; pointers into the inode table are its indices. -/
structure File where
  isInode : Bool
  ref : Int
  readable : Bool
  writable : Bool
  ip : Option Nat
  off : Int

/-- What a run did, for statements about its course; no function reads it. -/
inductive Event where
  | beginOp
  | logged (blockno : Nat)
  | endOp
  /-- The disk a commit leaves. -/
  | committed (disk : Nat → Block)
  /-- A restart inside a truncation, with the inode's slots in memory and on disk. -/
  | restart (memory disk : Nat → Nat)
  | blockAlloc (blockno : Nat)
  | blockFree (blockno : Nat)

structure FS where
  sb : Superblock
  /-- What `bread` serves. -/
  store : Nat → Block
  /-- What the last commit left on the disk. -/
  device : Nat → Block
  log : Fslog
  n_log_wrote : Nat
  bmap : BmapCache
  inode : Nat → Inode
  ninode : Nat
  files : Nat → File
  nfile : Nat
  /-- The clock `get_current_timespec` reads, and how often it was read. -/
  clock : Nat → Timespec
  ticks : Nat
  /-- Newest first. -/
  history : List Event

abbrev M := Exec Exit FS

/-- A `size_t`. -/
def sizeT (n : Nat) : Nat := n % 2 ^ 64

namespace FS

def note (event : Event) : M Unit := modify fun fs => { fs with history := event :: fs.history }

/-- `begin_op`; a lone thread that has to wait waits for ever. -/
def beginOp : M Unit := do
  let fs ← get
  if fs.log.admits then
    modify fun fs =>
      { fs with log := { fs.log with outstanding := fs.log.outstanding + 1 }, n_log_wrote := 0 }
    note .beginOp
  else stop .blocked

/-- `commit`, as the whole of its raw writes leaves it; with an empty list it changes nothing. -/
def commit : M Unit := do
  modify fun fs =>
    { fs with
      device := fun blockno => if blockno ∈ fs.log.block then fs.store blockno else fs.device blockno
      log := { fs.log with block := [] } }
  let fs ← get
  note (.committed fs.device)

def endOp : M Unit := do
  modify fun fs => { fs with log := { fs.log with outstanding := fs.log.outstanding - 1 } }
  let fs ← get
  if fs.log.committing then stop (.errExit .committing)
  else
    note .endOp
    if fs.log.outstanding = 0 then commit else pure ()

def loggedRead (blockno : Nat) : M Block := do
  let fs ← get
  pure (fs.store blockno)

def loggedWrite (blockno : Nat) : M Unit := do
  let fs ← get
  if fs.log.tooBig then stop (.errExit .tooBigTransaction)
  else if fs.log.outstanding < 1 then stop (.errExit .loggedWriteOutside)
  else
    modify fun fs => { fs with n_log_wrote := fs.n_log_wrote + 1, log := fs.log.absorb blockno }
    note (.logged blockno)

/-- A change in place of a buffer the caller has read, and its `logged_write`. -/
def loggedUpdate (blockno : Nat) (change : Block → Block) : M Unit := do
  modify fun fs => { fs with store := assign fs.store blockno (change (fs.store blockno)) }
  loggedWrite blockno

def getCurrentTimespec : M Timespec := do
  let fs ← get
  modify fun fs => { fs with ticks := fs.ticks + 1 }
  pure (fs.clock fs.ticks)

end FS
end Myfuse
