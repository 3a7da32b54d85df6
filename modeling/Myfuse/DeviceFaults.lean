import Myfuse.LogDevice

/-! `commit` on a device that may fail. A raw write that fails leaves its block
unchanged; `bwrite` passes the result on and no caller looks at it. (After a failed
`lseek` the next raw access waits for `disk_lock` for ever: no commit finishes so.) -/

namespace Myfuse.DeviceFaults
open Library Library.Exec

section
variable (fails : Nat → Bool) (recycled : Nat → Nat → Bool)

/-- Whether the raw write wrote `BSIZE` bytes; the `fails` pattern counts the writes issued since boot. -/
def bwrite (blockno : Nat) : LogM Bool := do
  let m ← get
  match m.cache blockno with
  | some buf =>
    modify fun m =>
      { m with
        disk := if fails m.written.length then m.disk else Function.update m.disk blockno buf.data
        written := m.written ++ [(blockno, buf.data)] }
    pure (!fails m.written.length)
  | none => stop .undefined

def installTransaction (recovering : Bool) : LogM Unit := do
  let m ← get
  forRange 0 m.log.n fun tail => do
    let log_buf := m.log.start + tail + 1
    let data ← bread recycled log_buf
    let dst_buf := m.log.block.getD tail 0
    let _ ← bread recycled dst_buf
    setData dst_buf data
    let _ ← bwrite fails dst_buf
    if recovering then pure () else bunpin dst_buf
    brelse log_buf
    brelse dst_buf

def writeLogHeaderToDisk : LogM Unit := do
  let m ← get
  let header ← bread recycled m.log.start
  setData m.log.start (putHeader header m.log.block)
  let _ ← bwrite fails m.log.start
  brelse m.log.start

def writeFromCacheToLog : LogM Unit := do
  let m ← get
  forRange 0 m.log.n fun tail => do
    let to_buf := m.log.start + tail + 1
    let _ ← bread recycled to_buf
    let from_buf := m.log.block.getD tail 0
    let data ← bread recycled from_buf
    setData to_buf data
    let _ ← bwrite fails to_buf
    brelse to_buf
    brelse from_buf

def commit : LogM Unit := do
  let m ← get
  if m.log.n > 0 then
    writeFromCacheToLog fails recycled
    writeLogHeaderToDisk fails recycled
    installTransaction fails recycled false
    modify fun m => { m with log := { m.log with block := [] } }
    writeLogHeaderToDisk fails recycled
  else pure ()

end

end Myfuse.DeviceFaults
