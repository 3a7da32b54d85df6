import Myfuse.Directory

/-! `file.c`: the table of open files and the operations that FUSE calls. Results
are the `int`s of the source; a pointer is an `Option`. -/

namespace Myfuse
open Library Library.Exec

abbrev ENOENT : Int := 2
abbrev EEXIST : Int := 17
abbrev ENOTDIR : Int := 20
abbrev EISDIR : Int := 21
abbrev EINVAL : Int := 22
abbrev ENOTEMPTY : Int := 39

abbrev O_RDONLY : Nat := 0
abbrev O_WRONLY : Nat := 1
abbrev O_RDWR : Nat := 2
abbrev O_CREAT : Nat := 0o100

abbrev SEEK_SET : Int := 0
abbrev SEEK_CUR : Int := 1
abbrev SEEK_END : Int := 2

abbrev S_IFDIR : Nat := 0o40000
abbrev S_IFREG : Nat := 0o100000

abbrev RENAME_NOREPLACE : Nat := 1
abbrev RENAME_EXCHANGE : Nat := 2

abbrev NFILE_INIT : Nat := 50

/-- A `calloc`ed file; its type is `FD_NONE`. -/
def File.zero : File := { isInode := false, ref := 0, readable := false, writable := false, ip := none, off := 0 }

/-- The fields of `struct stat` that are set; the mode only for a file or a directory. -/
structure Stat where
  st_nlink : BitVec 16
  st_size : Nat
  st_ino : Nat
  st_blksize : Nat
  st_atim : Timespec
  st_ctim : Timespec
  st_mtim : Timespec
  st_mode : Option Nat

/-- `struct fuse_file_info`: the handle is an index of the file table. -/
structure FuseFileInfo where
  flags : Nat
  fh : Option Nat

/-- The fields of `struct statvfs` that are set. -/
structure Statvfs where
  f_blocks : Nat
  f_bsize : Nat
  f_bfree : Nat
  f_fsid : Nat
  f_namemax : Nat

/-- A C `long` cut to an `int`. -/
def toInt (n : Nat) : Int := (BitVec.ofNat 32 n).toInt

/-- An `off_t`, 64 bits with a sign. -/
abbrev OffT := { off : Int // -2 ^ 63 ≤ off ∧ off < 2 ^ 63 }

/-- The `off_t` of a `size_t` sum. -/
def toOffT (n : Int) : Int := (BitVec.ofInt 64 n).toInt

namespace FS

/-- `int` result and `struct stat`. -/
def statInode (inode : Inode) : Int × Stat :=
  let stat (mode : Option Nat) : Stat :=
    { st_nlink := inode.copy.nlink, st_size := inode.copy.size, st_ino := inode.inum, st_blksize := BSIZE,
      st_atim := inode.copy.st_atimespec, st_ctim := inode.copy.st_ctimespec, st_mtim := inode.copy.st_mtimespec,
      st_mode := mode }
  if inode.copy.type = T_DIR_INODE_MYFUSE then (0, stat (some (S_IFDIR ||| inode.copy.perm)))
  else if inode.copy.type = T_FILE_INODE_MYFUSE then (0, stat (some (S_IFREG ||| inode.copy.perm)))
  else (-ENOENT, stat none)

def statInum (inum : Nat) : M (Int × Stat) := do
  let ip ← iget inum
  ilock ip
  let fs ← get
  let res := statInode (fs.inode ip)
  iunlockput ip
  pure res

def modifyFile (f : Nat) (change : File → File) : M Unit :=
  modify fun fs => { fs with files := assign fs.files f (change (fs.files f)) }

def fileInit : M Unit := modify fun fs => { fs with nfile := NFILE_INIT, files := fun _ => File.zero }

def ftableGrow : M Unit :=
  modify fun fs =>
    { fs with
      nfile := fs.nfile * 2
      files := fun f => if fs.nfile ≤ f ∧ f < fs.nfile * 2 then File.zero else fs.files f }

def filealloc : M Nat := do
  let fs ← get
  match (List.range fs.nfile).find? fun f => (fs.files f).ref = 0 with
  | some f => do
    modifyFile f fun file => { file with ref := 1 }
    pure f
  | none => do
    ftableGrow
    modifyFile fs.nfile fun file => { file with ref := 1 }
    pure fs.nfile

/-- `ilock`, `iunlock` and `iput` of a pointer that may be null. -/
def ilockPtr : Option Nat → M Unit
  | none => stop (.errExit .invalidInode)
  | some ip => ilock ip

def iputPtr : Option Nat → M Unit
  | none => stop .undefined
  | some ip => iput ip

def fileclose (f : Nat) : M Unit := do
  let fs ← get
  if (fs.files f).ref < 1 then stop (.errExit .fileclose)
  else
    modifyFile f fun file => { file with ref := file.ref - 1 }
    if (fs.files f).ref - 1 > 0 then pure ()
    else
      beginOp
      iputPtr (fs.files f).ip
      endOp

def myfuseGetattr (path : List Byte) : M (Int × Option Stat) := do
  beginOp
  match ← path2inode path with
  | none => do
    endOp
    pure (-ENOENT, none)
  | some ip => do
    ilock ip
    let fs ← get
    let res := statInode (fs.inode ip)
    iunlockput ip
    endOp
    pure (res.1, some res.2)

/-- `strcpy(file_name, de->name)` into `DIRSIZE + 1` bytes: up to the NUL, wherever in the buffer it is. -/
def dirnamecpy (bytes : List Byte) : Option Name :=
  let chars := bytes.takeWhile (· ≠ 0)
  if bytes.length ≤ chars.length ∨ DIRSIZE < chars.length then none else some chars

/-- The loop of `myfuse_readdir` from `off` on. `full` answers for the filler, given what it took. -/
def readdirFrom (dp : Nat) (data : List Byte) (full : List (Name × Stat) → Name × Stat → Bool) :
    (count off : Nat) → List (Name × Stat) → M (List (Name × Stat))
  | 0, _, filled => pure filled
  | count + 1, off, filled => do
    if data.length < off + 4 then stop .undefined
    else
      let inum := leNat (data.drop off) 4
      if inum = 0 then readdirFrom dp data full count (off + direntSize) filled
      else
        match dirnamecpy (data.drop (off + 4)) with
        | none => stop .undefined
        | some file_name => do
          let fs ← get
          let st ← if inum ≠ (fs.inode dp).inum then statInum inum else pure (statInode (fs.inode dp))
          if st.1 = 0 then
            if full filled (file_name, st.2) then pure (filled ++ [(file_name, st.2)])
            else readdirFrom dp data full count (off + direntSize) (filled ++ [(file_name, st.2)])
          else readdirFrom dp data full count (off + direntSize) filled

/-- The entries come with what was passed to the filler. -/
def myfuseReaddir (full : List (Name × Stat) → Name × Stat → Bool) (fi : Option FuseFileInfo) : M (Int × List (Name × Stat)) :=
  match fi with
  | none => pure (-ENOENT, [])
  | some fi => do
    beginOp
    match fi.fh with
    | none => stop .undefined
    | some f => do
      let fs ← get
      match (fs.files f).ip with
      | none => do
        endOp
        pure (-ENOENT, [])
      | some dp => do
        ilock dp
        let fs ← get
        let size := (fs.inode dp).copy.size
        let data ← inodeReadNbytesLocked dp size 0
        if data.length ≠ size then stop (.errExit .readdirRead)
        else
          let filled ← readdirFrom dp data full (direntCount size) 0 []
          iunlock dp
          endOp
          pure (0, filled)

def myfuseOpendir (path : List Byte) (fi : FuseFileInfo) : M (Int × FuseFileInfo) := do
  beginOp
  match ← path2inode path with
  | none => do
    endOp
    pure (-ENOENT, fi)
  | some dir_inode => do
    ilock dir_inode
    let fs ← get
    if (fs.inode dir_inode).copy.type ≠ T_DIR_INODE_MYFUSE then do
      iunlockput dir_inode
      endOp
      pure (-ENOTDIR, fi)
    else do
      let file ← filealloc
      modifyFile file fun f => { f with isInode := true, ip := some dir_inode }
      iunlock dir_inode
      endOp
      pure (0, { fi with fh := some file })

/-- The handle's access from its open flags; `O_RDONLY` is 0, so its test never holds. -/
def setAccess (file flags : Nat) : M Unit :=
  if flags &&& O_RDONLY ≠ 0 then modifyFile file fun f => { f with readable := true, writable := false }
  else if flags &&& O_WRONLY ≠ 0 then modifyFile file fun f => { f with readable := false, writable := true }
  else if flags &&& O_RDWR ≠ 0 then modifyFile file fun f => { f with readable := true, writable := true }
  else modifyFile file fun f => { f with readable := true, writable := true }

/-- The end of `myfuse_open` and `myfuse_create`: the locked inode gets a handle. -/
def openHandle (file_inode flags : Nat) : M Nat := do
  let file ← filealloc
  modifyFile file fun f => { f with isInode := true, ip := some file_inode }
  setAccess file flags
  iunlock file_inode
  endOp
  pure file

/-- The new inode is not locked, so its link count is set in memory only and read over by `ilock`. -/
def myfuseOpen (path : List Byte) (fi : FuseFileInfo) : M (Int × FuseFileInfo) := do
  beginOp
  match ← path2inode path with
  | some file_inode => do
    ilock file_inode
    let file ← openHandle file_inode fi.flags
    pure (0, { fi with fh := some file })
  | none =>
    if fi.flags &&& O_CREAT = 0 then pure (-ENOENT, fi)
    else do
      match ← path2parentinode path with
      | none => do
        endOp
        pure (-ENOENT, fi)
      | some (dir_inode, filename) => do
        let file_inode ← ialloc T_FILE_INODE_MYFUSE
        modifyCopy file_inode fun copy => { copy with nlink := copy.nlink + 1 }
        iupdate dir_inode
        ilock dir_inode
        let fs ← get
        let _ ← dirlink dir_inode filename (fs.inode file_inode).inum
        iunlockput dir_inode
        ilock file_inode
        let file ← openHandle file_inode fi.flags
        pure (0, { fi with fh := some file })

/-- `myfuse_release` and `myfuse_releasedir`; the handle in `fi` is cleared first. -/
def myfuseRelease (fi : Option FuseFileInfo) : M (Int × Option FuseFileInfo) :=
  match fi with
  | none => pure (0, none)
  | some fi =>
    match fi.fh with
    | none => pure (0, some fi)
    | some file => do
      fileclose file
      pure (0, some { fi with fh := none })

def myfuseMkdir (path : List Byte) (mode : Nat) : M Int := do
  beginOp
  let dp ← path2parentinode path
  let ip ← ialloc T_DIR_INODE_MYFUSE
  ilock ip
  match dp with
  | none => stop (.errExit .invalidInode)
  | some (dp, name) => do
    ilock dp
    let fs ← get
    let linked ← dirlink dp name (fs.inode ip).inum
    if linked ≠ 0 then do
      iunlockput ip
      endOp
      pure (-EEXIST)
    else do
      iunlockput dp
      modifyCopy ip fun copy => { copy with nlink := 1, perm := mode }
      let now ← getCurrentTimespec
      modifyCopy ip fun copy => { copy with st_atimespec := now, st_mtimespec := now, st_ctimespec := now }
      iupdate ip
      iunlockput ip
      endOp
      pure 0

/-- The entry is looked up and overwritten with zeros; the inode found comes back referenced. -/
def clearDirent (dp : Nat) (name : Name) : M (Option Nat) := do
  match ← dirlookup dp name with
  | none => pure none
  | some (found_ip, poff) => do
    let _ ← inodeWriteNbytesLocked dp zeroDirent poff
    pure (some found_ip)

def myfuseUnlink (path : List Byte) : M Int := do
  beginOp
  match ← path2inode path with
  | none => do
    endOp
    pure (-ENOENT)
  | some ip => do
    match ← path2parentinode path with
    | none => stop (.errExit .invalidInode)
    | some (dp, name) => do
      ilock dp
      ilock ip
      let fs ← get
      if (fs.inode ip).copy.nlink = 0 then do
        iunlockput dp
        iunlockput ip
        endOp
        pure (-ENOENT)
      else do
        modifyCopy ip fun copy => { copy with nlink := copy.nlink - 1 }
        let fs ← get
        if (fs.inode ip).copy.nlink = 0 then do
          match ← clearDirent dp name with
          | none => pure ()
          | some found_ip => iput found_ip
        else pure ()
        iupdate ip
        iunlockput ip
        iunlockput dp
        endOp
        pure 0

/-- The loop of `myfuse_rmdir`: some entry is in use. -/
def anyDirent (data : List Byte) : (count off : Nat) → Option Bool
  | 0, _ => some false
  | count + 1, off =>
    if data.length < off + 4 then none
    else if leNat (data.drop off) 4 ≠ 0 then some true
    else anyDirent data count (off + direntSize)

/-- Whether the locked inode has an entry in use. -/
def hasDirent (ip : Nat) : M Bool := do
  let fs ← get
  let size := (fs.inode ip).copy.size
  if size ≠ 0 then do
    let data ← inodeReadNbytesLocked ip size 0
    if data.length ≠ size then stop (.errExit .rmdirRead)
    else
      match anyDirent data (direntCount size) 0 with
      | none => stop .undefined
      | some found => pure found
  else pure false

def myfuseRmdir (path : List Byte) : M Int := do
  beginOp
  match ← path2inode path with
  | none => do
    endOp
    pure (-ENOENT)
  | some ip => do
    ilock ip
    if ← hasDirent ip then do
      iunlockput ip
      endOp
      pure (-ENOTEMPTY)
    else do
      match ← path2parentinode path with
      | none => stop (.errExit .invalidInode)
      | some (dp, name) => do
        ilock dp
        modifyCopy ip fun copy => { copy with nlink := copy.nlink - 1 }
        let fs ← get
        if (fs.inode ip).copy.nlink = 0 then do
          let _ ← clearDirent dp name
          pure ()
        else pure ()
        iupdate ip
        iunlockput dp
        iunlockput ip
        endOp
        pure 0

/-- `((struct file*)fi->fh)->ip`. -/
def handleInode (fi : FuseFileInfo) : M (Option Nat) := do
  match fi.fh with
  | none => stop .undefined
  | some file => do
    let fs ← get
    pure (fs.files file).ip

def myfuseRead (size offset : Nat) (fi : FuseFileInfo) : M (Int × List Byte) := do
  match ← handleInode fi with
  | none => do
    beginOp
    stop (.errExit .invalidInode)
  | some ip => do
    let data ← inodeReadNbytesUnlocked ip size offset
    pure (toInt data.length, data)

def myfuseWrite (data : List Byte) (offset : Nat) (fi : FuseFileInfo) : M Int := do
  match ← handleInode fi with
  | none => do
    beginOp
    stop (.errExit .invalidInode)
  | some ip => do
    let nbytes ← inodeWriteNbytesUnlocked ip data offset
    pure (toInt nbytes)

/-- `size` is the `size_t` of the `off_t`; the type is read before the inode is locked. -/
def myfuseTruncate (path : List Byte) (size : Nat) : M Int := do
  beginOp
  match ← path2inode path with
  | none => do
    endOp
    pure (-ENOENT)
  | some ip => do
    let fs ← get
    if (fs.inode ip).copy.type = T_DIR_INODE_MYFUSE then do
      endOp
      pure (-EISDIR)
    else do
      ilock ip
      itrunc2size ip size
      iunlockput ip
      endOp
      pure 0

def myfuseAccess (path : List Byte) : M Int := do
  beginOp
  match ← path2inode path with
  | none => pure (-ENOENT)
  | some ip => do
    iput ip
    endOp
    pure 0

/-- What `dirlink` returns is not looked at. -/
def myfuseCreate (path : List Byte) (mode : Nat) (fi : FuseFileInfo) : M (Int × FuseFileInfo) := do
  if mode &&& S_IFREG = 0 then stop (.errExit .notRegular)
  else
    beginOp
    match ← path2parentinode path with
    | none => do
      endOp
      pure (-ENOENT, fi)
    | some (dir_inode, filename) => do
      let file_inode ← ialloc T_FILE_INODE_MYFUSE
      ilock file_inode
      modifyCopy file_inode fun copy => { copy with nlink := copy.nlink + 1, perm := mode &&& 0o777 }
      let now ← getCurrentTimespec
      modifyCopy file_inode fun copy => { copy with st_atimespec := now, st_mtimespec := now, st_ctimespec := now }
      iupdate file_inode
      ilock dir_inode
      let fs ← get
      let _ ← dirlink dir_inode filename (fs.inode file_inode).inum
      iunlockput dir_inode
      let file ← openHandle file_inode mode
      pure (0, { fi with fh := some file })

def myfuseChmod (path : List Byte) (mode : Nat) : M Int := do
  beginOp
  match ← path2inode path with
  | none => pure (-ENOENT)
  | some ip => do
    ilock ip
    modifyCopy ip fun copy => { copy with perm := mode &&& 0o777 }
    iupdate ip
    iunlockput ip
    endOp
    pure 0

/-- `iput(dirlookup(dp, name, &poff))`, then the entry is overwritten with zeros. -/
def dropDirent (dp : Nat) (name : Name) : M Unit := do
  let found ← dirlookup dp name
  iputPtr (found.map Prod.fst)
  let _ ← inodeWriteNbytesLocked dp zeroDirent ((found.map Prod.snd).getD 0)
  pure ()

/-- `if (ip != NULL) iput(ip);`. -/
def iputSome : Option Nat → M Unit
  | none => pure ()
  | some ip => iput ip

/-- The branches of `myfuse_rename` on the target, after the source is unlinked. The
type of the target is read from its entry, which may not be valid. -/
def renameTarget (from_ip from_dp : Nat) (from_name : Name) (target_ip : Option Nat) (target : Option (Nat × Name))
    (flags : Nat) : M Int := do
  let fs ← get
  match target_ip with
  | none =>
    match target with
    | none => stop (.errExit .invalidInode)
    | some (target_dp, target_name) => do
      ilock target_dp
      let _ ← dirlink target_dp target_name (fs.inode from_ip).inum
      iunlock target_dp
      pure 0
  | some target_ip =>
    if (fs.inode target_ip).copy.type = T_DIR_INODE_MYFUSE then do
      ilock target_ip
      let _ ← dirlink target_ip from_name (fs.inode from_ip).inum
      iunlock target_ip
      pure 0
    else if flags &&& RENAME_EXCHANGE ≠ 0 then do
      match target with
      | none => stop (.errExit .invalidInode)
      | some (target_dp, target_name) => do
        ilock target_dp
        ilock target_ip
        dropDirent target_dp target_name
        let _ ← dirlink target_dp from_name (fs.inode from_ip).inum
        let _ ← dirlink from_dp from_name (fs.inode target_ip).inum
        iunlock target_ip
        iunlock target_dp
        pure 0
    else if flags &&& RENAME_NOREPLACE ≠ 0 then pure (-EEXIST)
    else pure 0

def myfuseRename (source target : List Byte) (flags : Nat) : M Int := do
  beginOp
  let target_ip ← path2inode target
  let target_dp ← path2parentinode target
  let from_ip ← path2inode source
  let from_dp ← path2parentinode source
  match from_ip, from_dp with
  | some from_ip, some (from_dp, from_name) =>
    if target_ip = none ∧ target_dp = none then pure (-ENOENT)
    else do
      ilock from_ip
      ilock from_dp
      dropDirent from_dp from_name
      iunlock from_dp
      iunlock from_ip
      let res ← renameTarget from_ip from_dp from_name target_ip target_dp flags
      iputSome target_ip
      iputSome (target_dp.map Prod.fst)
      iput from_ip
      iput from_dp
      endOp
      pure res
  | _, _ => pure (-ENOENT)

/-- What the branches of `myfuse_lseek` have in common. -/
def seekTo (file ip : Nat) (off : Int) : M Int := do
  modifyFile file fun f => { f with off }
  iunlock ip
  pure off

/-- The sum of `SEEK_CUR` is signed, that of `SEEK_END` is not. -/
def myfuseLseek (off : OffT) (whence : Int) (fi : FuseFileInfo) : M Int := do
  match fi.fh with
  | none => stop .undefined
  | some file => do
    let fs ← get
    match (fs.files file).ip with
    | none => stop (.errExit .invalidInode)
    | some ip => do
      ilock ip
      let fs ← get
      if whence = SEEK_SET then seekTo file ip off.1
      else if whence = SEEK_CUR then
        let sum := (fs.files file).off + off.1
        if sum < -2 ^ 63 ∨ 2 ^ 63 ≤ sum then stop .undefined else seekTo file ip sum
      else if whence = SEEK_END then seekTo file ip (toOffT ((fs.inode ip).copy.size + off.1))
      else do
        iunlock ip
        pure (-EINVAL)

/-- The bits of `sb.size` blocks are counted. -/
def myfuseStatfs : M Statvfs := do
  let fs ← get
  let free_blocks := (List.range fs.sb.size).countP fun i => fs.bmap.bmapBlockStatueGet i = 0
  pure { f_blocks := fs.sb.nblocks, f_bsize := BSIZE, f_bfree := free_blocks, f_fsid := FSMAGIC, f_namemax := DIRSIZE }

end FS
end Myfuse
