import Myfuse.FileSystem
import Myfuse.Library.Assign
import Myfuse.Library.Simulation

/-! `block_device.c`: many threads read and write one device. They share its file
position, and `disk_lock` is to keep a position from one thread's `lseek` to its transfer. -/

namespace Myfuse
open Library

/-- A raw access. Only the first `nbytes` bytes of the buffer of `read_block_raw_nbytes` are looked at. -/
inductive RawCall where
  | writeBlockRaw (block_id : BitVec 32) (buf : Block)
  | readBlockRaw (block_id : BitVec 32) (buf : Block)
  | readBlockRawNbytes (block_id : BitVec 32) (buf : Block) (nbytes : BitVec 32)

namespace RawCall

def block_id : RawCall → BitVec 32
  | .writeBlockRaw block_id _ | .readBlockRaw block_id _ | .readBlockRawNbytes block_id _ _ => block_id

def buf : RawCall → Block
  | .writeBlockRaw _ buf | .readBlockRaw _ buf | .readBlockRawNbytes _ buf _ => buf

/-- What `read` or `write` is asked for. -/
def nbytes : RawCall → Nat
  | .writeBlockRaw _ _ | .readBlockRaw _ _ => BSIZE
  | .readBlockRawNbytes _ _ nbytes => if nbytes.toNat > BSIZE then BSIZE else nbytes.toNat

/-- `block_id * BSIZE`, an `unsigned long`. -/
def offset (call : RawCall) : Nat := sizeT (call.block_id.toNat * BSIZE)

end RawCall

/-- Where a thread is in a raw access. -/
inductive RawPhase where
  | idle
  | asked (call : RawCall)
  | locked (call : RawCall)
  | placed (call : RawCall)
  | moved (nbytes : Int) (buf : Block)

/-- The calls and their answers, with the buffer as they leave it. -/
inductive RawEvent (Thread : Type) where
  | asks (thread : Thread) (call : RawCall)
  | answers (thread : Thread) (nbytes : Int) (buf : Block)

/-- What a thread does not decide itself: which call it makes, and how a system call ends. -/
inductive RawChoice where
  | call (call : RawCall)
  | goes
  | seekFails
  | moves (nbytes : Nat)
  /-- `read` and `write` may leave the position anywhere when they fail. -/
  | transferFails (position : Nat)

structure BlockDevice (Thread : Type) where
  bytes : Nat → Byte
  position : Nat
  disk_lock : Option Thread
  phase : Thread → RawPhase

namespace BlockDevice
variable {Thread : Type} [DecidableEq Thread]

/-- After `block_device_init`. -/
def init (bytes : Nat → Byte) : BlockDevice Thread := { bytes, position := 0, disk_lock := none, phase := fun _ => .idle }

/-- `write(fd, buf, ...)` that wrote `nbytes`. -/
def writes (device : BlockDevice Thread) (buf : Block) (nbytes : Nat) : BlockDevice Thread :=
  { device with
    bytes := fun p => if device.position ≤ p ∧ p < device.position + nbytes then buf.byte (p - device.position) else device.bytes p
    position := device.position + nbytes }

/-- The buffer after `read(fd, buf, ...)` that read `nbytes`. -/
def reads (device : BlockDevice Thread) (buf : Block) (nbytes : Nat) : Block :=
  Bytes.ofFn fun index => if index < nbytes then device.bytes (device.position + index) else buf.byte index

/-- A transfer of `nbytes` bytes, no more than were asked for. -/
def transfers (device : BlockDevice Thread) (thread : Thread) (call : RawCall) (nbytes : Nat) : BlockDevice Thread :=
  match call with
  | .writeBlockRaw _ buf => { device.writes buf nbytes with phase := assign device.phase thread (.moved nbytes buf) }
  | .readBlockRaw _ buf | .readBlockRawNbytes _ buf _ =>
    { device with position := device.position + nbytes, phase := assign device.phase thread (.moved nbytes (device.reads buf nbytes)) }

/-- The next step of a thread; a thread that has to wait for `disk_lock` takes none. -/
def step (device : BlockDevice Thread) (thread : Thread) (choice : RawChoice) : Option (BlockDevice Thread × Option (RawEvent Thread)) :=
  match device.phase thread, choice with
  | .idle, .call call => some ({ device with phase := assign device.phase thread (.asked call) }, some (.asks thread call))
  | .asked call, .goes =>
    if device.disk_lock.isNone then
      some ({ device with disk_lock := some thread, phase := assign device.phase thread (.locked call) }, none)
    else none
  | .locked call, .goes => some ({ device with position := call.offset, phase := assign device.phase thread (.placed call) }, none)
  -- `return -1` without an unlock.
  | .locked call, .seekFails =>
    some ({ device with phase := assign device.phase thread .idle }, some (.answers thread (-1) call.buf))
  | .placed call, .moves nbytes => if nbytes ≤ call.nbytes then some (device.transfers thread call nbytes, none) else none
  | .placed call, .transferFails position =>
    some ({ device with position, phase := assign device.phase thread (.moved (-1) call.buf) }, none)
  | .moved nbytes buf, .goes =>
    some ({ device with disk_lock := none, phase := assign device.phase thread .idle }, some (.answers thread nbytes buf))
  | _, _ => none

/-- Any thread takes its next step. -/
def system : System (BlockDevice Thread) (RawEvent Thread) where
  step device event after := ∃ thread choice, device.step thread choice = some (after, event)

end BlockDevice
end Myfuse
