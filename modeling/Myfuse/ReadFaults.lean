import Myfuse.BufCache

/-! `buf_cache.c` and `log.c` on a device whose raw reads may fail. `bread` looks at
no result: it marks the buffer valid in any case. -/

namespace Myfuse.ReadFaults
open Library Library.Exec

inductive RawRead where
  | whole
  /-- `read` returns fewer than `BSIZE` bytes, none at the end of the device. -/
  | short (nbytes : Fin BSIZE)
  /-- `read` returns -1. -/
  | failed
  /-- `lseek` goes elsewhere: -1 is returned with `disk_lock` locked. -/
  | noSeek
  deriving DecidableEq

/-- What is returned, and the bytes of the buffer afterwards. -/
def RawRead.transfer (block buf : Block) : RawRead → Int × Block
  | .whole => (BSIZE, block)
  | .short nbytes => (nbytes, Bytes.ofFn fun index => if index < nbytes then block.byte index else buf.byte index)
  | .failed => (-1, buf)
  | .noSeek => (-1, buf)

structure Machine where
  cached : CacheMachine
  /-- Counts the raw reads issued. -/
  reads : Nat
  disk_lock : Bool

abbrev FaultM := Exec CacheStop Machine

/-- What does not read the device. -/
def lift {α : Type} (program : CacheM α) : FaultM α := fun m => ((program m.cached).1, { m with cached := (program m.cached).2 })

section
variable (device : Nat → RawRead)

def readBlockRaw (block_id : Nat) (buf : Block) : FaultM (Int × Block) := do
  let m ← get
  if m.disk_lock then stop .blocked
  else
    modify fun m => { m with reads := m.reads + 1, disk_lock := decide (device m.reads = .noSeek) }
    pure ((device m.reads).transfer (m.cached.disk block_id) buf)

def bread (blockno : Nat) : FaultM Handle := do
  let b ← lift (BufCache.bget blockno)
  let m ← get
  if (m.cached.bcache.buf b).valid then pure b
  else
    let (_, data) ← readBlockRaw device blockno (m.cached.bcache.buf b).data
    lift (BufCache.setBuf b fun buf => { buf with data, valid := true })
    pure b

def bwrite (b : Handle) : FaultM Unit := do
  let m ← get
  if m.disk_lock then stop .blocked else lift (BufCache.bwrite b)

variable (clock : Nat → BitVec 64)

def installTransaction (recovering : Bool) : FaultM Unit := do
  let m ← get
  forRange 0 m.cached.log.n fun tail => do
    let log_buf ← bread device (m.cached.log.start + tail + 1)
    let dst_buf ← bread device (m.cached.log.block.getD tail 0)
    let copy ← lift (BufCache.data log_buf)
    lift (BufCache.setData dst_buf copy)
    bwrite dst_buf
    if recovering then pure () else lift (BufCache.bunpin dst_buf)
    lift (BufCache.brelse clock log_buf)
    lift (BufCache.brelse clock dst_buf)

def readLogHeaderFromDisk : FaultM Unit := do
  let m ← get
  let buf ← bread device m.cached.log.start
  let lh ← lift (BufCache.data buf)
  if headerN lh > NLOG then stop .undefined
  else
    lift (modify fun m => { m with log := { m.log with block := headerBlocks lh } })
    lift (BufCache.brelse clock buf)

def writeLogHeaderToDisk : FaultM Unit := do
  let m ← get
  let buf ← bread device m.cached.log.start
  let lh ← lift (BufCache.data buf)
  lift (BufCache.setData buf (putHeader lh m.cached.log.block))
  bwrite buf
  lift (BufCache.brelse clock buf)

def recoverFromLog : FaultM Unit := do
  readLogHeaderFromDisk device clock
  installTransaction device clock true
  lift (modify fun m => { m with log := { m.log with block := [] } })
  writeLogHeaderToDisk device clock

def writeFromCacheToLog : FaultM Unit := do
  let m ← get
  forRange 0 m.cached.log.n fun tail => do
    let to_buf ← bread device (m.cached.log.start + tail + 1)
    let from_buf ← bread device (m.cached.log.block.getD tail 0)
    let copy ← lift (BufCache.data from_buf)
    lift (BufCache.setData to_buf copy)
    bwrite to_buf
    lift (BufCache.brelse clock to_buf)
    lift (BufCache.brelse clock from_buf)

def commit : FaultM Unit := do
  let m ← get
  if m.cached.log.n > 0 then
    writeFromCacheToLog device clock
    writeLogHeaderToDisk device clock
    installTransaction device clock false
    lift (modify fun m => { m with log := { m.log with block := [] } })
    writeLogHeaderToDisk device clock
  else pure ()

def endOp : FaultM Unit := do
  lift (modify fun m => { m with log := { m.log with outstanding := m.log.outstanding - 1 } })
  let m ← get
  if m.cached.log.committing then stop (.errExit .committing)
  else if m.cached.log.outstanding = 0 then
    lift (modify fun m => { m with log := { m.log with committing := true } })
    commit device clock
    lift (modify fun m => { m with log := { m.log with committing := false } })
  else pure ()

def run : List (Nat × Handle) → List BufCache.Call → FaultM (List Block)
  | _, [] => pure []
  | held, .beginOp :: rest => do
    lift BufCache.beginOp
    run held rest
  | held, .endOp :: rest => do
    endOp device clock
    run held rest
  | held, .loggedRead blockno :: rest => do
    let b ← bread device blockno
    let contents ← lift (BufCache.data b)
    let others ← run ((blockno, b) :: held) rest
    pure (contents :: others)
  | held, .loggedWrite blockno contents :: rest =>
    match held.lookup blockno with
    | none => stop .undefined
    | some b => do
      lift (BufCache.setData b contents)
      lift (BufCache.loggedWrite b)
      run held rest
  | held, .loggedRelse blockno :: rest =>
    match held.lookup blockno with
    | none => stop .undefined
    | some b => do
      lift (BufCache.brelse clock b)
      run (held.filter (·.1 != blockno)) rest

def mounted (calls : List BufCache.Call) : FaultM (List Block) := do
  recoverFromLog device clock
  run device clock [] calls

end

def Machine.boot (logstart nlog : Nat) (disk : Nat → Block) : Machine :=
  { cached := CacheMachine.boot logstart nlog disk, reads := 0, disk_lock := false }

end Myfuse.ReadFaults
