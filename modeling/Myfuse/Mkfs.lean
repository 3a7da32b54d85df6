import Myfuse.Inode

/-! The part of mkfs that makes the bitmap. -/

namespace Myfuse
open Library Library.Exec

namespace FS

/-- The body of mkfs' loop over the bitmap blocks. -/
def zeroBitmapBlock (i : Nat) : M Unit := do
  let fs ← get
  beginOp
  loggedZeroABlock (fs.sb.bmapstart + i)
  endOp

/-- `main` of mkfs from `inode_init` to the second refresh. -/
def mkfsBitmap : M Unit := do
  let fs ← get
  inodeInit fs.sb
  forRange 0 (ROUNDUP fs.sb.size BPB / BPB) zeroBitmapBlock
  blockAllocatorRefresh fs.sb
  initMetaBlocksBmap
  blockAllocatorRefresh fs.sb

end FS
end Myfuse
