import Myfuse.LogDevice

/-! `buf_cache.c` with its buffers, hash lists and recycling, and `log.c` over it,
for one thread on a device that does not fail. -/

namespace Myfuse
open Library Library.Exec

abbrev NCACHE_BUF : Nat := MAXOPBLOCKS * 8

abbrev BCACHE_HASH_SIZE : Nat := 29

/-- `struct bcache_buf`, less its links. -/
structure BcacheBuf where
  valid : Bool
  blockno : Nat
  locked : Bool
  refcnt : Nat
  timestamp : BitVec 64
  data : Block

/-- A buffer is named by its index in `buf`. -/
structure Bcache where
  buf : Nat → BcacheBuf
  /-- Each list from `head.next` to `head.prev`. -/
  hash : Nat → List Nat

def bcacheHash (blockno : Nat) : Nat := blockno % BCACHE_HASH_SIZE

namespace Bcache

/-- `bcache_init`: every buffer goes to the front of list 0. -/
def init : Bcache :=
  { buf := fun _ => { valid := false, blockno := 0, locked := false, refcnt := 0, timestamp := 0, data := Bytes.zero }
    hash := fun hashid => if hashid = 0 then (List.range NCACHE_BUF).reverse else [] }

def setBuf (c : Bcache) (b : Nat) (change : BcacheBuf → BcacheBuf) : Bcache :=
  { c with buf := Function.update c.buf b (change (c.buf b)) }

/-- The first search of `bget`. -/
def cached (c : Bcache) (blockno : Nat) : Option Nat :=
  (c.hash (bcacheHash blockno)).find? fun b => (c.buf b).blockno == blockno

/-- The search of the block's own list, from the back. The limit is set again for every
buffer, so the first free one is taken. -/
def recyclable (c : Bcache) (hashid : Nat) : Option Nat :=
  (c.hash hashid).reverse.find? fun b => (c.buf b).refcnt == 0 && decide ((c.buf b).timestamp ≤ BitVec.allOnes 64)

/-- The scan of another list: the free buffer with the least time stamp. -/
def leastRecent (c : Bcache) (buffers : List Nat) : Option Nat :=
  (buffers.foldl (fun (least : Option Nat × BitVec 64) b =>
    if (c.buf b).refcnt = 0 then
      if (c.buf b).timestamp ≤ least.2 then (some b, (c.buf b).timestamp) else least
    else least) (none, BitVec.allOnes 64)).1

/-- The search of the other lists, in order. -/
def victim (c : Bcache) (hashid : Nat) : Option (Nat × Nat) :=
  (List.range BCACHE_HASH_SIZE).findSome? fun hidx =>
    if hidx = hashid then none else (c.leastRecent (c.hash hidx).reverse).map fun b => (hidx, b)

def claim (c : Bcache) (b blockno : Nat) : Bcache :=
  c.setBuf b fun buf => { buf with blockno, refcnt := 1, valid := false }

/-- Unlink from one list, link at the front of another. -/
def move (c : Bcache) (b hidx hashid : Nat) : Bcache :=
  let unlinked := { c with hash := Function.update c.hash hidx ((c.hash hidx).erase b) }
  { unlinked with hash := Function.update unlinked.hash hashid (b :: unlinked.hash hashid) }

/-- `bget` before it takes the buffer's lock; `none` when its search never ends. -/
def bget (c : Bcache) (blockno : Nat) : Option (Nat × Bcache) :=
  match c.cached blockno with
  | some b => some (b, c.setBuf b fun buf => { buf with refcnt := buf.refcnt + 1 })
  | none =>
    match c.recyclable (bcacheHash blockno) with
    | some b => some (b, c.claim b blockno)
    | none => (c.victim (bcacheHash blockno)).map fun (hidx, b) => (b, (c.claim b blockno).move b hidx (bcacheHash blockno))

end Bcache

structure CacheMachine where
  disk : Nat → Block
  bcache : Bcache
  log : Fslog
  written : List (Nat × Block)
  /-- Counts `gettimeofday` calls. -/
  now : Nat

inductive CacheStop where
  /-- `bget` finds no free buffer and searches for ever. -/
  | noBuffer
  /-- The thread waits for a buffer lock that it holds. -/
  | deadlock
  | blocked
  | errExit (fatal : Fatal)
  /-- A header count above `NLOG`, or a buffer the caller does not hold. -/
  | undefined
  deriving DecidableEq, Repr

abbrev CacheM := Exec CacheStop CacheMachine

/-- The handles of `bread` are indices into `buf`. -/
abbrev Handle := Nat

namespace BufCache
variable (clock : Nat → BitVec 64)

def setBuf (b : Handle) (change : BcacheBuf → BcacheBuf) : CacheM Unit :=
  modify fun m => { m with bcache := m.bcache.setBuf b change }

def bget (blockno : Nat) : CacheM Handle := do
  let m ← get
  match m.bcache.bget blockno with
  | none => stop .noBuffer
  | some (b, bcache) =>
    if (bcache.buf b).locked then stop .deadlock
    else
      modify fun m => { m with bcache := bcache.setBuf b fun buf => { buf with locked := true } }
      pure b

def bread (blockno : Nat) : CacheM Handle := do
  let b ← bget blockno
  let m ← get
  if (m.bcache.buf b).valid then pure b
  else
    setBuf b fun buf => { buf with data := m.disk blockno, valid := true }
    pure b

/-- `b->data`. -/
def data (b : Handle) : CacheM Block := do
  let m ← get
  pure (m.bcache.buf b).data

def setData (b : Handle) (data : Block) : CacheM Unit := setBuf b fun buf => { buf with data }

def bwrite (b : Handle) : CacheM Unit := do
  let m ← get
  let buf := m.bcache.buf b
  modify fun m =>
    { m with disk := Function.update m.disk buf.blockno buf.data, written := m.written ++ [(buf.blockno, buf.data)] }

def brelse (b : Handle) : CacheM Unit := do
  let m ← get
  let refcnt := (m.bcache.buf b).refcnt - 1
  setBuf b fun buf => { buf with locked := false, refcnt }
  if refcnt = 0 then
    setBuf b fun buf => { buf with timestamp := clock m.now }
    modify fun m => { m with now := m.now + 1 }
  else pure ()

def bpin (b : Handle) : CacheM Unit := setBuf b fun buf => { buf with refcnt := buf.refcnt + 1 }

def bunpin (b : Handle) : CacheM Unit := setBuf b fun buf => { buf with refcnt := buf.refcnt - 1 }

def installTransaction (recovering : Bool) : CacheM Unit := do
  let m ← get
  forRange 0 m.log.n fun tail => do
    let log_buf ← bread (m.log.start + tail + 1)
    let dst_buf ← bread (m.log.block.getD tail 0)
    let copy ← data log_buf
    setData dst_buf copy
    bwrite dst_buf
    if recovering then pure () else bunpin dst_buf
    brelse clock log_buf
    brelse clock dst_buf

def readLogHeaderFromDisk : CacheM Unit := do
  let m ← get
  let buf ← bread m.log.start
  let lh ← data buf
  if headerN lh > NLOG then stop .undefined
  else
    modify fun m => { m with log := { m.log with block := headerBlocks lh } }
    brelse clock buf

def writeLogHeaderToDisk : CacheM Unit := do
  let m ← get
  let buf ← bread m.log.start
  let lh ← data buf
  setData buf (putHeader lh m.log.block)
  bwrite buf
  brelse clock buf

def recoverFromLog : CacheM Unit := do
  readLogHeaderFromDisk clock
  installTransaction clock true
  modify fun m => { m with log := { m.log with block := [] } }
  writeLogHeaderToDisk clock

def writeFromCacheToLog : CacheM Unit := do
  let m ← get
  forRange 0 m.log.n fun tail => do
    let to_buf ← bread (m.log.start + tail + 1)
    let from_buf ← bread (m.log.block.getD tail 0)
    let copy ← data from_buf
    setData to_buf copy
    bwrite to_buf
    brelse clock to_buf
    brelse clock from_buf

def commit : CacheM Unit := do
  let m ← get
  if m.log.n > 0 then
    writeFromCacheToLog clock
    writeLogHeaderToDisk clock
    installTransaction clock false
    modify fun m => { m with log := { m.log with block := [] } }
    writeLogHeaderToDisk clock
  else pure ()

def beginOp : CacheM Unit := do
  let m ← get
  if m.log.admits then modify fun m => { m with log := { m.log with outstanding := m.log.outstanding + 1 } }
  else stop .blocked

def endOp : CacheM Unit := do
  modify fun m => { m with log := { m.log with outstanding := m.log.outstanding - 1 } }
  let m ← get
  if m.log.committing then stop (.errExit .committing)
  else if m.log.outstanding = 0 then
    modify fun m => { m with log := { m.log with committing := true } }
    commit clock
    modify fun m => { m with log := { m.log with committing := false } }
  else pure ()

def loggedWrite (b : Handle) : CacheM Unit := do
  let m ← get
  if m.log.tooBig then stop (.errExit .tooBigTransaction)
  else if m.log.outstanding < 1 then stop (.errExit .loggedWriteOutside)
  else
    let blockno := (m.bcache.buf b).blockno
    if blockno ∈ m.log.block then pure () else bpin b
    modify fun m => { m with log := m.log.absorb blockno }

/-- What a caller of the log does, by block number. -/
inductive Call where
  | beginOp
  | endOp
  | loggedRead (blockno : Nat)
  /-- New contents in place, in a buffer that was read and not yet released, and `logged_write`. -/
  | loggedWrite (blockno : Nat) (data : Block)
  | loggedRelse (blockno : Nat)

/-- The calls of one thread with the buffers it holds, and what its reads return. -/
def run : List (Nat × Handle) → List Call → CacheM (List Block)
  | _, [] => pure []
  | held, .beginOp :: rest => do
    beginOp
    run held rest
  | held, .endOp :: rest => do
    endOp clock
    run held rest
  | held, .loggedRead blockno :: rest => do
    let b ← bread blockno
    let contents ← data b
    let others ← run ((blockno, b) :: held) rest
    pure (contents :: others)
  | held, .loggedWrite blockno contents :: rest =>
    match held.lookup blockno with
    | none => stop .undefined
    | some b => do
      setData b contents
      loggedWrite b
      run held rest
  | held, .loggedRelse blockno :: rest =>
    match held.lookup blockno with
    | none => stop .undefined
    | some b => do
      brelse clock b
      run (held.filter (·.1 != blockno)) rest

/-- `bcache_init` and `log_init`, and then the calls. -/
def mounted (calls : List Call) : CacheM (List Block) := do
  recoverFromLog clock
  run clock [] calls

end BufCache

def CacheMachine.boot (logstart nlog : Nat) (disk : Nat → Block) : CacheMachine :=
  { disk, bcache := Bcache.init, log := Fslog.init logstart nlog, written := [], now := 0 }

/-! The memory a caller of the log should see: no cache, no log region, no recycling. -/

structure Plain where
  memory : Nat → Block
  /-- The blocks whose buffers the caller holds. -/
  held : List Nat
  /-- The distinct blocks logged since the last commit. -/
  logged : List Nat
  outstanding : Nat

namespace Plain
open BufCache

/-- The log as the caller may know it. -/
def log (logstart nlog : Nat) (p : Plain) : Fslog :=
  { Fslog.init logstart nlog with outstanding := p.outstanding, block := p.logged }

/-- One call and what it returns; `none` when the log refuses it or the caller would wait for itself. -/
def step (logstart nlog : Nat) (p : Plain) : Call → Option (List Block × Plain)
  | .beginOp => if (p.log logstart nlog).admits then some ([], { p with outstanding := p.outstanding + 1 }) else none
  | .endOp =>
    if p.outstanding = 0 then none
    else if p.outstanding = 1 then
      if ∀ blockno ∈ p.held, blockno ∉ p.logged then some ([], { p with outstanding := 0, logged := [] }) else none
    else some ([], { p with outstanding := p.outstanding - 1 })
  | .loggedRead blockno =>
    if (blockno < logstart ∨ logstart + nlog ≤ blockno) ∧ blockno ∉ p.held then
      some ([p.memory blockno], { p with held := blockno :: p.held })
    else none
  | .loggedWrite blockno data =>
    if blockno ∈ p.held ∧ p.outstanding ≠ 0 ∧ (p.log logstart nlog).tooBig = false then
      some ([], { p with
        memory := Function.update p.memory blockno data
        logged := ((p.log logstart nlog).absorb blockno).block })
    else none
  | .loggedRelse blockno =>
    if blockno ∈ p.held then some ([], { p with held := p.held.filter (· != blockno) }) else none

/-- What the reads of a whole run return. -/
def run (logstart nlog : Nat) : Plain → List Call → Option (List Block)
  | _, [] => some []
  | p, call :: rest =>
    match p.step logstart nlog call with
    | none => none
    | some (returned, next) => (run logstart nlog next rest).map (returned ++ ·)

def start (disk : Nat → Block) : Plain := { memory := disk, held := [], logged := [], outstanding := 0 }

end Plain
end Myfuse
