import Myfuse.Library.Exec
import Myfuse.Library.DiskWrites
import Myfuse.Log

/-! The log over the buffer cache and the raw device, as `log.c` runs it. Every
raw block write is recorded in the order it is issued, so a crash is a prefix of
that record. Which unreferenced buffers the cache recycles is left open. -/

namespace Myfuse
open Library Library.Exec

/-- A cached buffer whose data has been read (`valid = 1`). -/
structure Buf where
  data : Block
  refcnt : Nat

structure Machine where
  disk : Nat → Block
  cache : Nat → Option Buf
  log : Fslog
  /-- The raw writes so far, oldest first. -/
  written : List (Nat × Block)
  /-- Counts `bread` calls. -/
  tick : Nat

abbrev LogM := Exec Exit Machine

/-! The header block: `int n` and then `int block[NLOG]`. -/

def headerN (header : Block) : Int := (BitVec.ofNat 32 (header.field 0 4)).toInt

def headerBlocks (header : Block) : List Nat :=
  (List.range (headerN header).toNat).map fun i => header.field (4 + 4 * i) 4

/-- `lh->block[i] = ...` for each listed block from index `i` on. -/
def putBlocks (header : Block) : Nat → List Nat → Block
  | _, [] => header
  | i, block :: blocks => putBlocks (header.setField (4 + 4 * i) 4 block) (i + 1) blocks

def putHeader (header : Block) (blocks : List Nat) : Block :=
  putBlocks (header.setField 0 4 blocks.length) 0 blocks

namespace Machine

def setCache (m : Machine) (blockno : Nat) (buf : Buf) : Machine :=
  { m with cache := Function.update m.cache blockno (some buf) }

/-- The cache drops any unreferenced buffers it likes. -/
def recycle (recycled : Nat → Nat → Bool) (m : Machine) : Machine :=
  { m with
    cache := fun blockno => (m.cache blockno).filter fun buf => !(buf.refcnt == 0 && recycled m.tick blockno)
    tick := m.tick + 1 }

/-- `bget` and the read of an invalid buffer: one more reference to the block's buffer. -/
def hold (m : Machine) (blockno : Nat) : Machine :=
  match m.cache blockno with
  | some buf => m.setCache blockno { buf with refcnt := buf.refcnt + 1 }
  | none => m.setCache blockno { data := m.disk blockno, refcnt := 1 }

/-- What `bread` finds in a block. -/
def contents (m : Machine) (blockno : Nat) : Block :=
  match m.cache blockno with
  | some buf => buf.data
  | none => m.disk blockno

/-- The references to a block's buffer, 0 when it is not cached. -/
def refs (m : Machine) (blockno : Nat) : Nat :=
  match m.cache blockno with
  | some buf => buf.refcnt
  | none => 0

end Machine

section
variable (recycled : Nat → Nat → Bool)

def bread (blockno : Nat) : LogM Block := do
  modify fun m => (m.recycle recycled).hold blockno
  let m ← get
  pure (m.contents blockno)

/-- `memcpy`/`memmove` into the data of a buffer the caller holds. -/
def setData (blockno : Nat) (data : Block) : LogM Unit := do
  let m ← get
  match m.cache blockno with
  | some buf => modify fun m => m.setCache blockno { buf with data }
  | none => stop .undefined

def bwrite (blockno : Nat) : LogM Unit := do
  let m ← get
  match m.cache blockno with
  | some buf => modify fun m =>
      { m with disk := Function.update m.disk blockno buf.data, written := m.written ++ [(blockno, buf.data)] }
  | none => stop .undefined

def bpin (blockno : Nat) : LogM Unit := do
  let m ← get
  match m.cache blockno with
  | some buf => modify fun m => m.setCache blockno { buf with refcnt := buf.refcnt + 1 }
  | none => stop .undefined

def bunpin (blockno : Nat) : LogM Unit := do
  let m ← get
  match m.cache blockno with
  | some buf => modify fun m => m.setCache blockno { buf with refcnt := buf.refcnt - 1 }
  | none => stop .undefined

/-- The reference goes away; the lock and the timestamp play no part here. -/
def brelse (blockno : Nat) : LogM Unit := bunpin blockno

def installTransaction (recovering : Bool) : LogM Unit := do
  let m ← get
  forRange 0 m.log.n fun tail => do
    let log_buf := m.log.start + tail + 1
    let data ← bread recycled log_buf
    let dst_buf := m.log.block.getD tail 0
    let _ ← bread recycled dst_buf
    setData dst_buf data
    bwrite dst_buf
    if recovering then pure () else bunpin dst_buf
    brelse log_buf
    brelse dst_buf

/-- A negative count reads nothing; one above `NLOG` would run over `lh.block`. -/
def readLogHeaderFromDisk : LogM Unit := do
  let m ← get
  let header ← bread recycled m.log.start
  if headerN header > NLOG then stop .undefined
  else
    modify fun m => { m with log := { m.log with block := headerBlocks header } }
    brelse m.log.start

def writeLogHeaderToDisk : LogM Unit := do
  let m ← get
  let header ← bread recycled m.log.start
  setData m.log.start (putHeader header m.log.block)
  bwrite m.log.start
  brelse m.log.start

def recoverFromLog : LogM Unit := do
  readLogHeaderFromDisk recycled
  installTransaction recycled true
  modify fun m => { m with log := { m.log with block := [] } }
  writeLogHeaderToDisk recycled

def writeFromCacheToLog : LogM Unit := do
  let m ← get
  forRange 0 m.log.n fun tail => do
    let to_buf := m.log.start + tail + 1
    let _ ← bread recycled to_buf
    let from_buf := m.log.block.getD tail 0
    let data ← bread recycled from_buf
    setData to_buf data
    bwrite to_buf
    brelse to_buf
    brelse from_buf

def commit : LogM Unit := do
  let m ← get
  if m.log.n > 0 then
    writeFromCacheToLog recycled
    writeLogHeaderToDisk recycled
    installTransaction recycled false
    modify fun m => { m with log := { m.log with block := [] } }
    writeLogHeaderToDisk recycled
  else pure ()

def beginOp : LogM Unit := do
  let m ← get
  if m.log.admits then modify fun m => { m with log := { m.log with outstanding := m.log.outstanding + 1 } }
  else stop .blocked

def endOp : LogM Unit := do
  modify fun m => { m with log := { m.log with outstanding := m.log.outstanding - 1 } }
  let m ← get
  if m.log.committing then stop (.errExit .committing)
  else if m.log.outstanding = 0 then
    modify fun m => { m with log := { m.log with committing := true } }
    commit recycled
    modify fun m => { m with log := { m.log with committing := false } }
  else pure ()

def loggedWrite (blockno : Nat) : LogM Unit := do
  let m ← get
  if m.log.tooBig then stop (.errExit .tooBigTransaction)
  else if m.log.outstanding < 1 then stop (.errExit .loggedWriteOutside)
  else
    if blockno ∈ m.log.block then pure () else bpin blockno
    modify fun m => { m with log := m.log.absorb blockno }

/-! Runs of the log by any callers: what reaches it is a sequence of these calls. -/

inductive LogAction where
  | beginOp
  | endOp
  /-- `logged_read` and `logged_relse` with no change. -/
  | read (blockno : Nat)
  /-- `logged_read`, new contents in place, `logged_write`, `logged_relse`. -/
  | write (blockno : Nat) (data : Block)

def act : LogAction → LogM Unit
  | .beginOp => beginOp
  | .endOp => endOp recycled
  | .read blockno => do
    let _ ← bread recycled blockno
    brelse blockno
  | .write blockno data => do
    let _ ← bread recycled blockno
    setData blockno data
    loggedWrite blockno
    brelse blockno

def runActions : List LogAction → LogM Unit
  | [] => pure ()
  | action :: rest => do
    act recycled action
    runActions rest

/-- `log_init`, on a cold cache, and then the calls. -/
def logRun (actions : List LogAction) : LogM Unit := do
  recoverFromLog recycled
  runActions recycled actions

end

/-- A process that has just opened the device. -/
def Machine.boot (logstart nlog : Nat) (disk : Nat → Block) : Machine :=
  { disk, cache := fun _ => none, log := Fslog.init logstart nlog, written := [], tick := 0 }

end Myfuse
