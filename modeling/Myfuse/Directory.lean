import Myfuse.Inode

/-! `directory.c`: directory entries, the search and the insertion of a name, and
path walks. A `char name[DIRSIZE]` is the list of its bytes before the NUL, all
`DIRSIZE` of them when there is none; a path is the list of its bytes. -/

namespace Myfuse
open Library Library.Exec

abbrev DIRSIZE : Nat := 60
/-- `sizeof(struct dirent)`. -/
abbrev direntSize : Nat := 64

abbrev Name := List Byte

abbrev slash : Byte := 47

/-- The unsigned little-endian number of the first `width` bytes. -/
def leNat (data : List Byte) : (width : Nat) → Nat
  | 0 => 0
  | width + 1 => (data.getD 0 0).toNat + 256 * leNat data.tail width

/-- `strncmp(a, b, DIRSIZE) == 0` for the bytes `a` of a buffer and the name `b`;
`none` when the buffer ends before the comparison. -/
def dirnamecmp : (count : Nat) → List Byte → Name → Option Bool
  | 0, _, _ => some true
  | _ + 1, [], _ => none
  | _ + 1, byte :: _, [] => some (decide (byte = 0))
  | count + 1, byte :: bytes, char :: chars =>
    if byte ≠ char then some false
    else if byte = 0 then some true
    else dirnamecmp count bytes chars

/-- How often the loops over the entries run: their counter is an `int`, which turns negative at `2 ^ 31`. -/
def direntCount (size : Nat) : Nat := min ((size + (direntSize - 1)) / direntSize) (2 ^ 31 / direntSize)

/-- The loop of `dirlookup` from `off` on: the number and the offset of the first
entry in use with this name. The outer `none` is an access past the buffer. -/
def findDirent (data : List Byte) (name : Name) : (count off : Nat) → Option (Option (Nat × Nat))
  | 0, _ => some none
  | count + 1, off =>
    if data.length < off + 4 then none
    else if leNat (data.drop off) 4 = 0 then findDirent data name count (off + direntSize)
    else
      match dirnamecmp DIRSIZE (data.drop (off + 4)) name with
      | none => none
      | some true => some (some (leNat (data.drop off) 4, off))
      | some false => findDirent data name count (off + direntSize)

/-- The loop of `dirlink` from `off` on: where it ends, and the place of the last entry it looked at. -/
def emptyDirent (data : List Byte) : (count off de : Nat) → Option (Nat × Nat)
  | 0, off, de => some (off, de)
  | count + 1, off, _ =>
    if data.length < off + 4 then none
    else if leNat (data.drop off) 4 = 0 then some (off, off)
    else emptyDirent data count (off + direntSize) off

/-- `strncpy(de->name, name, DIRSIZE); de->inum = inum;`. -/
def direntBytes (inum : Nat) (name : Name) : List Byte :=
  let chars := (name.take DIRSIZE).takeWhile (· ≠ 0)
  [Bytes.byteOf inum 0, Bytes.byteOf inum 1, Bytes.byteOf inum 2, Bytes.byteOf inum 3] ++ chars ++
    List.replicate (DIRSIZE - chars.length) 0

/-- `memset(&zero_de, 0, sizeof(zero_de))`. -/
def zeroDirent : List Byte := List.replicate direntSize 0

/-- The next element of a path, cut to `DIRSIZE` bytes, and the path after it without leading slashes. -/
def skipelem (path : List Byte) : Option (Name × List Byte) :=
  let start := path.dropWhile (· = slash)
  if start = [] then none
  else some ((start.takeWhile (· ≠ slash)).take DIRSIZE, (start.dropWhile (· ≠ slash)).dropWhile (· = slash))

/-- `while ((path = skipelem(path, name)) != 0)`, at most `count` times. -/
def elementsFrom : (count : Nat) → List Byte → List Name
  | 0, _ => []
  | count + 1, path =>
    match skipelem path with
    | none => []
    | some (name, rest) => name :: elementsFrom count rest

/-- All elements; every step shortens the path. -/
def elements (path : List Byte) : List Name := elementsFrom path.length path

namespace FS

/-- The inode, and the offset stored in `*poff`. -/
def dirlookup (dp : Nat) (name : Name) : M (Option (Nat × Nat)) := do
  let fs ← get
  let size := (fs.inode dp).copy.size
  let data ← inodeReadNbytesLocked dp size 0
  if data.length ≠ size then stop (.errExit .dirlookupRead)
  else
    match findDirent data name (direntCount size) 0 with
    | none => stop .undefined
    | some none => pure none
    | some (some (inum, off)) => do
      let ip ← iget inum
      pure (some (ip, off))

/-- Where `dirlink` writes. The entry is built in the buffer that was read, in the
last place looked at; the counter ends as a negative `int`, a huge `size_t`. -/
def dirlinkOffset (dp : Nat) : M Nat := do
  let fs ← get
  let size := (fs.inode dp).copy.size
  if size ≠ 0 then do
    let data ← inodeReadNbytesLocked dp size 0
    if data.length ≠ size then stop (.errExit .dirlinkRead)
    else
      match emptyDirent data (direntCount size) 0 0 with
      | none => stop .undefined
      | some (off, de) =>
        if size < de + direntSize then stop .undefined
        else pure (if off < 2 ^ 31 then off else 2 ^ 64 - 2 ^ 31)
  else pure 0

def dirlink (dp : Nat) (name : Name) (inum : Nat) : M Int := do
  match ← dirlookup dp name with
  | some (ip, _) => do
    iput ip
    pure (-1)
  | none => do
    let off ← dirlinkOffset dp
    let count ← inodeWriteNbytesLocked dp (direntBytes inum name) off
    if count ≠ direntSize then stop (.errExit .dirlinkWrite) else pure 0

/-- The loop of `namex` over the elements left. The parent comes with the last element. -/
def namexFrom (nameiparent : Bool) : List Name → (ip : Nat) → M (Option (Nat × Name))
  | [], ip =>
    if nameiparent then do
      iput ip
      pure none
    else pure (some (ip, []))
  | name :: rest, ip => do
    ilock ip
    let fs ← get
    if (fs.inode ip).copy.type ≠ T_DIR_INODE_MYFUSE then do
      iunlockput ip
      pure none
    else if nameiparent ∧ rest = [] then do
      iunlock ip
      pure (some (ip, name))
    else do
      match ← dirlookup ip name with
      | none => do
        iunlockput ip
        pure none
      | some (next, _) => do
        iunlockput ip
        namexFrom nameiparent rest next

def namex (path : List Byte) (nameiparent : Bool) : M (Option (Nat × Name)) :=
  if path.head? = some slash then do
    let ip ← iget ROOTINO
    namexFrom nameiparent (elements path) ip
  else stop (.errExit .cwdNotImplemented)

def path2inode (path : List Byte) : M (Option Nat) := do
  let found ← namex path false
  pure (found.map Prod.fst)

def path2parentinode (path : List Byte) : M (Option (Nat × Name)) := namex path true

end FS
end Myfuse
