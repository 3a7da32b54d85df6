import Myfuse.File

/-! The calls of `file.c` that work on paths and handles, as FUSE makes them. -/

namespace Myfuse
open Library Library.Exec

inductive FuseCall where
  | getattr (path : List Byte)
  | readdir (full : List (Name × Stat) → Name × Stat → Bool) (fi : Option FuseFileInfo)
  | opendir (path : List Byte) (fi : FuseFileInfo)
  | openFile (path : List Byte) (fi : FuseFileInfo)
  | create (path : List Byte) (mode : Nat) (fi : FuseFileInfo)
  /-- Also `releasedir`. -/
  | release (fi : Option FuseFileInfo)
  | mkdir (path : List Byte) (mode : Nat)
  | unlink (path : List Byte)
  | rmdir (path : List Byte)
  | read (size offset : Nat) (fi : FuseFileInfo)
  | write (data : List Byte) (offset : Nat) (fi : FuseFileInfo)
  | truncate (path : List Byte) (size : Nat)
  | access (path : List Byte)
  | chmod (path : List Byte) (mode : Nat)
  | rename (source target : List Byte) (flags : Nat)

namespace FuseCall
open FS

/-- The handle that came with a value; a call that fails hands out none. -/
def handed (value : Int × FuseFileInfo) : Int × Option Nat := (value.1, if value.1 = 0 then value.2.fh else none)

/-- The value returned, and the handle that was given out. -/
def run : FuseCall → M (Int × Option Nat)
  | getattr path => do
    let value ← myfuseGetattr path
    pure (value.1, none)
  | readdir full fi => do
    let value ← myfuseReaddir full fi
    pure (value.1, none)
  | opendir path fi => do
    let value ← myfuseOpendir path fi
    pure (handed value)
  | openFile path fi => do
    let value ← myfuseOpen path fi
    pure (handed value)
  | create path mode fi => do
    let value ← myfuseCreate path mode fi
    pure (handed value)
  | release fi => do
    let value ← myfuseRelease fi
    pure (value.1, none)
  | mkdir path mode => do
    let value ← myfuseMkdir path mode
    pure (value, none)
  | unlink path => do
    let value ← myfuseUnlink path
    pure (value, none)
  | rmdir path => do
    let value ← myfuseRmdir path
    pure (value, none)
  | read size offset fi => do
    let value ← myfuseRead size offset fi
    pure (value.1, none)
  | write data offset fi => do
    let value ← myfuseWrite data offset fi
    pure (value, none)
  | truncate path size => do
    let value ← myfuseTruncate path size
    pure (value, none)
  | access path => do
    let value ← myfuseAccess path
    pure (value, none)
  | chmod path mode => do
    let value ← myfuseChmod path mode
    pure (value, none)
  | rename source target flags => do
    let value ← myfuseRename source target flags
    pure (value, none)

end FuseCall
end Myfuse
