import Myfuse.File
import Myfuse.LogDevice
import Myfuse.Mkfs

/-! The super block on disk, the whole of mkfs, and mounting what it leaves. -/

namespace Myfuse
open Library Library.Exec

abbrev SUPERBLOCK_ID : Nat := 1

namespace Superblock

/-- `memmove(data, &sb, sizeof(struct superblock))`. -/
def write (data : Block) (sb : Superblock) : Block :=
  let data := data.setField 0 4 sb.magic
  let data := data.setField 4 4 sb.size
  let data := data.setField 8 4 sb.nblocks
  let data := data.setField 12 4 sb.ninodes
  let data := data.setField 16 4 sb.nlog
  let data := data.setField 20 4 sb.logstart
  let data := data.setField 24 4 sb.inodestart
  data.setField 28 4 sb.bmapstart

/-- A block read into a `struct superblock`. -/
def read (data : Block) : Superblock :=
  { magic := data.field 0 4
    size := data.field 4 4
    nblocks := data.field 8 4
    ninodes := data.field 12 4
    nlog := data.field 16 4
    logstart := data.field 20 4
    inodestart := data.field 24 4
    bmapstart := data.field 28 4 }

end Superblock

namespace FS

/-- The raw writes of mkfs: zeros over `nmeta_blocks` blocks, then the super block. -/
def mkfsRaw (sb : Superblock) (disk : Nat → Block) : Nat → Block :=
  let nmeta_blocks := (sb.size + 2 ^ 32 - sb.nblocks) % 2 ^ 32
  let zeroed := (List.range nmeta_blocks).foldl (fun disk i => assign disk i Bytes.zero) disk
  assign zeroed 1 (Superblock.write Bytes.zero sb)

/-- "write sb to disk". -/
def writeSuperblock : M Unit := do
  let fs ← get
  beginOp
  loggedUpdate 1 fun data => Superblock.write data fs.sb
  endOp

def addRootinode : M Unit := do
  beginOp
  let ip ← ialloc T_DIR_INODE_MYFUSE
  let fs ← get
  assert ((fs.inode ip).inum = ROOTINO)
  ilock ip
  modifyCopy ip fun copy => { copy with nlink := 1, type := T_DIR_INODE_MYFUSE }
  let now ← getCurrentTimespec
  modifyCopy ip fun copy => { copy with st_atimespec := now, st_mtimespec := now, st_ctimespec := now }
  iupdate ip
  iunlockput ip
  endOp

/-- `main` of mkfs after `log_init`. -/
def mkfs : M Unit := do
  mkfsBitmap
  writeSuperblock
  addRootinode

/-- What `mkfs` starts from: a disk that the raw writes went to. -/
def unformatted (disk_size : Nat) (disk : Nat → Block) (clock : Nat → Timespec) : FS :=
  boot (initSuperBlock disk_size) (mkfsRaw (initSuperBlock disk_size) disk) clock

end FS

/-- The ways mounting ends the process. -/
inductive MountExit where
  | badMagic (magic : Nat)
  | stopped (exit : Exit)

/-- The message of `err_exit`, where it is one of mounting itself. -/
def MountExit.message : MountExit → Option String
  | .badMagic magic => some ("disk magic not match! read " ++ String.ofList (Nat.toDigits 16 magic))
  | .stopped _ => none

/-- `myfuse_init`; `recycled` is what the cache drops while the log recovers. -/
def myfuseInit (recycled : Nat → Nat → Bool) (device : Nat → Block) (clock : Nat → Timespec) : Except MountExit FS :=
  let sb := Superblock.read (device SUPERBLOCK_ID)
  if sb.magic ≠ FSMAGIC then .error (.badMagic sb.magic)
  else
    match recoverFromLog recycled (Machine.boot sb.logstart sb.nlog device) with
    | (.error exit, _) => .error (.stopped exit)
    | (.ok _, recovered) =>
      match (do FS.inodeInit sb; FS.fileInit : M Unit) (FS.boot sb recovered.disk clock) with
      | (.error exit, _) => .error (.stopped exit)
      | (.ok _, fs) => .ok fs

end Myfuse
