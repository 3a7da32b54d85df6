import Myfuse.Inode

/-! `disk-diagnostic`: it records the blocks that allocated inodes reach, and reports the
other blocks that are set in the bitmap. The printed text is left out. -/

namespace Myfuse
open Library Library.Exec

/-- The process after `disk_init`. A number in the `std::set<int>` has the bits of a
block number, and the `int` counters are enough below `2 ^ 31` blocks. -/
structure Diagnostic where
  fs : FS
  /-- The blocks whose buffers are locked. -/
  locked : List Nat
  block_used : List Nat
  leak : List Nat

abbrev DiagnosticM := Exec Exit Diagnostic

namespace Diagnostic

/-- The lock of a buffer is not recursive. -/
def loggedRead (blockno : Nat) : DiagnosticM Block := do
  let state ← get
  if blockno ∈ state.locked then stop .blocked
  else
    modify fun state => { state with locked := blockno :: state.locked }
    pure (state.fs.store blockno)

def loggedRelse (blockno : Nat) : DiagnosticM Unit := modify fun state => { state with locked := state.locked.erase blockno }

/-- `block_used.insert(blockno)`. -/
def use (blockno : Nat) : DiagnosticM Unit := modify fun state => { state with block_used := state.block_used.insert blockno }

def printDirectMap (addrs : Nat → Nat) (n : Nat) : DiagnosticM Unit :=
  forRange 0 n fun i => if addrs i ≠ 0 then use (addrs i) else pure ()

/-- The loop of the three functions for index blocks. -/
def printIndirectMap (below : (Nat → Nat) → Nat → DiagnosticM Unit) (addrs : Nat → Nat) (n : Nat) : DiagnosticM Unit :=
  forRange 0 n fun i =>
    if addrs i ≠ 0 then do
      use (addrs i)
      let bp ← loggedRead (addrs i)
      below (FS.entry bp) NINDIRECT1
      loggedRelse (addrs i)
    else pure ()

def printIndirect1Map (addrs : Nat → Nat) (n : Nat) : DiagnosticM Unit := printIndirectMap printDirectMap addrs n

def printIndirect2Map (addrs : Nat → Nat) (n : Nat) : DiagnosticM Unit := printIndirectMap printIndirect1Map addrs n

def printIndirect3Map (addrs : Nat → Nat) (n : Nat) : DiagnosticM Unit := printIndirectMap printIndirect2Map addrs n

/-- `if (dip->addrs[slot])`, and one of the functions on `&dip->addrs[slot]` with `n` 1. -/
def printSlot (print : (Nat → Nat) → Nat → DiagnosticM Unit) (dip : Dinode) (slot : Nat) : DiagnosticM Unit :=
  if dip.addrs slot ≠ 0 then print (fun i => dip.addrs (slot + i)) 1 else pure ()

def outputDinode (dip : Dinode) : DiagnosticM Unit := do
  printDirectMap dip.addrs NDIRECT
  printSlot printIndirect1Map dip NDIRECT
  printSlot printIndirect2Map dip (NDIRECT + 1)
  printSlot printIndirect3Map dip (NDIRECT + 2)

def countInodes (filler : Dinode → DiagnosticM Unit) : DiagnosticM Unit := do
  let state ← get
  forRange 1 (state.fs.sb.ninodes - 1) fun inum => do
    let bp ← loggedRead (state.fs.sb.iblock inum)
    let dip := Dinode.read bp (Dinode.offsetOf inum)
    (if dip.type ≠ T_UNUSE_INODE_MYFUSE then filler dip else pure ())
    loggedRelse (state.fs.sb.iblock inum)

/-- The first block is computed in a `uint`. -/
def countLeakblock : DiagnosticM Unit := do
  let state ← get
  let first := (state.fs.sb.size + 2 ^ 32 - state.fs.sb.nblocks) % 2 ^ 32
  forRange first (state.fs.sb.size - first) fun i => do
    let state ← get
    if state.fs.bmap.bmapBlockStatueGet i ≠ 0 then
      if i ∉ state.block_used then modify fun state => { state with leak := state.leak ++ [i] } else pure ()
    else pure ()

/-- The part of `disk_init` after `log_init`; `file_init` concerns nothing that is read here. -/
def diskInit : DiagnosticM Unit := fun state =>
  match FS.inodeInit state.fs.sb state.fs with
  | (result, fs) => (result, { state with fs })

def main : DiagnosticM Unit := do
  diskInit
  countInodes outputDinode
  countLeakblock

/-- With nothing recorded yet. -/
def start (fs : FS) : Diagnostic := { fs, locked := [], block_used := [], leak := [] }

end Diagnostic
end Myfuse
