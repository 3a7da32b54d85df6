import Myfuse.BlockAllocator

/-! `inode.c`: the inode table, the block map of a file, truncation, and reads
and writes with their restarts of the running operation. -/

namespace Myfuse
open Library Library.Exec

/-! The dinode format: 256 bytes, `IPB` to a block. -/

namespace Dinode

/-- All fields zero, as `calloc` and `memset` leave them. -/
def zero : Dinode :=
  { type := 0, major := 0, minor := 0, nlink := 0, size := 0, st_atimespec := ⟨0, 0⟩, st_mtimespec := ⟨0, 0⟩,
    st_ctimespec := ⟨0, 0⟩, perm := 0, addrs := fun _ => 0 }

def readTimespec (data : Block) (offset : Nat) : Timespec := ⟨data.field offset 8, data.field (offset + 8) 8⟩

def writeTimespec (data : Block) (offset : Nat) (time : Timespec) : Block :=
  (data.setField offset 8 time.tv_sec).setField (offset + 8) 8 time.tv_nsec

/-- `ip->... = dip->...` for every field of the dinode at `offset`. -/
def read (data : Block) (offset : Nat) : Dinode :=
  { type := BitVec.ofNat 16 (data.field offset 2)
    major := BitVec.ofNat 16 (data.field (offset + 2) 2)
    minor := BitVec.ofNat 16 (data.field (offset + 4) 2)
    nlink := BitVec.ofNat 16 (data.field (offset + 6) 2)
    size := data.field (offset + 8) 8
    st_atimespec := readTimespec data (offset + 16)
    st_mtimespec := readTimespec data (offset + 32)
    st_ctimespec := readTimespec data (offset + 48)
    perm := data.field (offset + 64) 4
    addrs := fun k => if k < NBLOCKADDR then data.field (offset + 68 + 4 * k) 4 else 0 }

/-- `memmove(dip->addrs, ip->addrs, sizeof(ip->addrs))`, from slot `k` on. -/
def writeAddrs (data : Block) (offset : Nat) (addrs : Nat → Nat) (k : Nat) : Nat → Block
  | 0 => data
  | count + 1 => writeAddrs (data.setField (offset + 68 + 4 * k) 4 (addrs k)) offset addrs (k + 1) count

/-- `dip->... = ip->...` for every field. -/
def write (data : Block) (offset : Nat) (copy : Dinode) : Block :=
  let data := data.setField offset 2 copy.type.toNat
  let data := data.setField (offset + 2) 2 copy.major.toNat
  let data := data.setField (offset + 4) 2 copy.minor.toNat
  let data := data.setField (offset + 6) 2 copy.nlink.toNat
  let data := data.setField (offset + 8) 8 copy.size
  let data := data.setField (offset + 64) 4 copy.perm
  let data := writeTimespec data (offset + 16) copy.st_atimespec
  let data := writeTimespec data (offset + 32) copy.st_mtimespec
  let data := writeTimespec data (offset + 48) copy.st_ctimespec
  writeAddrs data offset copy.addrs 0 NBLOCKADDR

/-- `(struct dinode*)bp->data + inum % IPB`. -/
def offsetOf (inum : Nat) : Nat := inum % IPB * dinodeSize

end Dinode

/-- A `calloc`ed table entry. -/
def Inode.zero : Inode := { inum := 0, ref := 0, locked := false, valid := false, copy := Dinode.zero }

namespace FS

abbrev NINODE_INIT : Nat := 30

/-- The dinode of `inum` in the store. -/
def dinode (fs : FS) (inum : Nat) : Dinode := Dinode.read (fs.store (fs.sb.iblock inum)) (Dinode.offsetOf inum)

def modifyInode (ip : Nat) (change : Inode → Inode) : M Unit :=
  modify fun fs => { fs with inode := assign fs.inode ip (change (fs.inode ip)) }

/-- A change of fields that live on disk. -/
def modifyCopy (ip : Nat) (change : Dinode → Dinode) : M Unit :=
  modifyInode ip fun inode => { inode with copy := change inode.copy }

def inodeInit (sb : Superblock) : M Unit := do
  modify fun fs => { fs with ninode := NINODE_INIT, inode := fun _ => Inode.zero, bmap := BmapCache.zero }
  blockAllocatorRefresh sb

/-- A fresh process after `log_init` has found an empty log on `disk`. A statement
about a run from here is not to be evaluated. -/
@[irreducible] def boot (sb : Superblock) (disk : Nat → Block) (clock : Nat → Timespec) : FS :=
  { sb, store := disk, device := disk, log := Fslog.init sb.logstart sb.nlog, n_log_wrote := 0, bmap := BmapCache.zero,
    inode := fun _ => Inode.zero, ninode := 0, files := fun _ => ⟨false, 0, false, false, none, 0⟩, nfile := 0, clock,
    ticks := 0, history := [] }

section
variable (sb : Superblock) (disk : Nat → Block) (clock : Nat → Timespec)

@[simp] theorem boot_sb : (boot sb disk clock).sb = sb := by unfold boot; rfl

@[simp] theorem boot_store : (boot sb disk clock).store = disk := by unfold boot; rfl

@[simp] theorem boot_device : (boot sb disk clock).device = disk := by unfold boot; rfl

@[simp] theorem boot_log : (boot sb disk clock).log = Fslog.init sb.logstart sb.nlog := by unfold boot; rfl

end

/-- `itable_grow`. -/
def itableGrow : M Unit :=
  modify fun fs =>
    { fs with
      ninode := fs.ninode * 2
      inode := fun ip => if fs.ninode ≤ ip ∧ ip < fs.ninode * 2 then Inode.zero else fs.inode ip }

/-- An empty entry becomes the in-memory copy of `inum`, not read yet. -/
def igetClaim (ip inum : Nat) : M Nat := do
  modifyInode ip fun inode => { inode with inum, ref := 1, valid := false }
  pure ip

/-- After `itable_grow` the search is repeated: it then finds the first new entry empty. -/
def iget (inum : Nat) : M Nat := do
  let fs ← get
  match (List.range fs.ninode).find? fun ip => (fs.inode ip).inum = inum ∧ 0 < (fs.inode ip).ref with
  | some ip =>
    modifyInode ip fun inode => { inode with ref := inode.ref + 1 }
    pure ip
  | none =>
    match (List.range fs.ninode).find? fun ip => (fs.inode ip).ref = 0 with
    | some ip => igetClaim ip inum
    | none =>
      itableGrow
      igetClaim fs.ninode inum

/-- The loop of `ialloc` from `inum` on. -/
def iallocFrom (type : BitVec 16) : (count inum : Nat) → M Nat
  | 0, _ => stop (.errExit .tooManyFiles)
  | count + 1, inum => do
    let fs ← get
    let bp ← loggedRead (fs.sb.iblock inum)
    if (Dinode.read bp (Dinode.offsetOf inum)).type = T_UNUSE_INODE_MYFUSE then
      loggedUpdate (fs.sb.iblock inum) fun data =>
        (data.splice (Dinode.offsetOf inum) (List.replicate dinodeSize 0)).setField (Dinode.offsetOf inum) 2 type.toNat
      iget inum
    else iallocFrom type count (inum + 1)

def ialloc (type : BitVec 16) : M Nat := do
  let fs ← get
  iallocFrom type (fs.sb.ninodes - 1) 1

def ilock (ip : Nat) : M Unit := do
  let fs ← get
  if (fs.inode ip).ref < 1 then stop (.errExit .invalidInode)
  else if (fs.inode ip).locked then stop .blocked
  else
    modifyInode ip fun inode => { inode with locked := true }
    if (fs.inode ip).valid then pure ()
    else
      let _ ← loggedRead (fs.sb.iblock (fs.inode ip).inum)
      let type := (fs.dinode (fs.inode ip).inum).type
      modifyInode ip fun inode => { inode with copy := fs.dinode inode.inum, valid := true }
      if type = T_UNUSE_INODE_MYFUSE then stop (.errExit .unusedInode)
      else if type ≠ T_FILE_INODE_MYFUSE ∧ type ≠ T_DIR_INODE_MYFUSE ∧ type ≠ T_DEVICE_INODE_MYFUSE then
        stop (.errExit .invalidType)
      else pure ()

def iunlock (ip : Nat) : M Unit := modifyInode ip fun inode => { inode with locked := false }

/-- The status change time is set on the way. -/
def iupdate (ip : Nat) : M Unit := do
  let now ← getCurrentTimespec
  modifyCopy ip fun copy => { copy with st_ctimespec := now }
  let fs ← get
  let inode := fs.inode ip
  loggedUpdate (fs.sb.iblock inode.inum) fun data => Dinode.write data (Dinode.offsetOf inode.inum) inode.copy

/-! The block map. Slots `NDIRECT`, `NDIRECT + 1` and `NDIRECT + 2` hold trees of
one, two and three levels of index blocks. -/

/-- `a[index]` of an index block. -/
def entry (block : Block) (index : Nat) : Nat := block.field (4 * index) 4

/-- `if ((addr = ip->addrs[slot]) == 0) ip->addrs[slot] = addr = block_alloc();` -/
def addrsFindOrAlloc (ip slot : Nat) : M Nat := do
  let fs ← get
  let addr := (fs.inode ip).copy.addrs slot
  if addr = 0 then
    let addr ← blockAlloc
    modifyCopy ip fun copy => { copy with addrs := assign copy.addrs slot addr }
    pure addr
  else pure addr

/-- The same for `a[index]` of the index block `blockno`, with its `logged_write`. -/
def indexFindOrAlloc (blockno index : Nat) : M Nat := do
  let bp ← loggedRead blockno
  if entry bp index = 0 then
    let addr ← blockAlloc
    loggedUpdate blockno fun data => data.setField (4 * index) 4 addr
    pure addr
  else pure (entry bp index)

def assert (condition : Prop) [Decidable condition] : M Unit := if condition then pure () else stop .assertion

def assertNoNeedToRestartOpInImap2blockno : M Unit := do
  let fs ← get
  if fs.n_log_wrote ≥ MAXOPBLOCKS - 1 - 3 then stop (.errExit .tooManyBlocks) else pure ()

def imap2blockno (ip bn : Nat) : M Nat := do
  assertNoNeedToRestartOpInImap2blockno
  if bn < NDIRECT then addrsFindOrAlloc ip bn
  else
    let bn := bn - NDIRECT
    if bn < NINDIRECT1 then
      let addr ← addrsFindOrAlloc ip NDIRECT
      indexFindOrAlloc addr bn
    else
      let bn := bn - NINDIRECT1
      if bn < NINDIRECT2 then
        let addr ← addrsFindOrAlloc ip (NDIRECT + 1)
        assert (bn / NINDIRECT1 * 4 < BSIZE)
        let addr ← indexFindOrAlloc addr (bn / NINDIRECT1)
        indexFindOrAlloc addr (bn % NINDIRECT1)
      else
        let bn := bn - NINDIRECT2
        if bn < NINDIRECT3 then
          let addr ← addrsFindOrAlloc ip (NDIRECT + 2)
          assert (bn / NINDIRECT2 * 4 < BSIZE)
          let addr ← indexFindOrAlloc addr (bn / NINDIRECT2)
          assert (bn % NINDIRECT2 / NINDIRECT1 * 4 < BSIZE)
          let addr ← indexFindOrAlloc addr (bn % NINDIRECT2 / NINDIRECT1)
          indexFindOrAlloc addr (bn % NINDIRECT2 % NINDIRECT1)
        else stop (.errExit .inodeTooBig)

/-- The loops of `itrunc` over one index block: its entries at `level` 0 are data
blocks, above that they are index blocks, freed with all they list. -/
def freeEntries : (level blockno : Nat) → M Unit
  | 0, blockno => do
    let bp ← loggedRead blockno
    forRange 0 NINDIRECT1 fun i => if entry bp i ≠ 0 then blockFree (entry bp i) else pure ()
  | level + 1, blockno => do
    let bp ← loggedRead blockno
    forRange 0 NINDIRECT1 fun i =>
      if entry bp i ≠ 0 then do
        freeEntries level (entry bp i)
        blockFree (entry bp i)
      else pure ()

/-- `if (ip->addrs[slot]) { ... }` for the slot that holds a tree of `level + 1` levels. -/
def freeTree (ip slot level : Nat) : M Unit := do
  let fs ← get
  let addr := (fs.inode ip).copy.addrs slot
  if addr ≠ 0 then
    freeEntries level addr
    blockFree addr
  else pure ()

def itrunc (ip : Nat) : M Unit := do
  forRange 0 NDIRECT fun i => do
    let fs ← get
    let addr := (fs.inode ip).copy.addrs i
    if addr ≠ 0 then blockFree addr else pure ()
  freeTree ip NDIRECT 0
  freeTree ip (NDIRECT + 1) 1
  freeTree ip (NDIRECT + 2) 2
  modifyCopy ip fun copy => { copy with addrs := fun _ => 0, size := 0 }
  iupdate ip

/-- A negative link count is no zero. -/
def iput (ip : Nat) : M Unit := do
  let fs ← get
  let inode := fs.inode ip
  if inode.ref = 1 ∧ inode.valid = true ∧ inode.copy.nlink = 0 then
    if inode.locked then stop .blocked
    else
      itrunc ip
      modifyCopy ip fun copy => { copy with type := T_UNUSE_INODE_MYFUSE }
      iupdate ip
      modifyInode ip fun inode => { inode with valid := false }
  else pure ()
  modifyInode ip fun inode => { inode with ref := inode.ref - 1 }

def iunlockput (ip : Nat) : M Unit := do
  iunlock ip
  iput ip

/-- `itrunc2size_log_op_restart_helper`. Callers hold `ip`; the event keeps its
slots in memory and on disk, and the source passes no inode. -/
def itrunc2sizeLogOpRestartHelper (ip : Nat) : M Unit := do
  let fs ← get
  if fs.n_log_wrote ≥ MAXOPBLOCKS - 1 - 3 then
    note (.restart (fs.inode ip).copy.addrs (fs.dinode (fs.inode ip).inum).addrs)
    endOp
    beginOp
  else pure ()

/-- `block_free_safe(ip->addrs[slot])`. -/
def addrsFreeSafe (ip slot : Nat) : M Unit := do
  let fs ← get
  let addr := (fs.inode ip).copy.addrs slot
  if addr ≠ 0 then
    itrunc2sizeLogOpRestartHelper ip
    blockFree addr
    modifyCopy ip fun copy => { copy with addrs := assign copy.addrs slot 0 }
  else pure ()

/-- `block_free_safe(a[index])` and its `logged_write`. -/
def indexFreeSafe (ip blockno index : Nat) : M Unit := do
  let bp ← loggedRead blockno
  if entry bp index ≠ 0 then
    itrunc2sizeLogOpRestartHelper ip
    blockFree (entry bp index)
    loggedUpdate blockno fun data => data.setField (4 * index) 4 0
  else pure ()

/-- `if ((addr = a[index]) == 0) return;` before the rest of the walk. -/
def indexFollow (blockno index : Nat) (rest : Nat → M Unit) : M Unit := do
  let bp ← loggedRead blockno
  if entry bp index = 0 then pure () else rest (entry bp index)

/-- The second level tree is allocated here when it is missing, unlike the others. -/
def imap2blocknoFree (ip bn : Nat) : M Unit := do
  assertNoNeedToRestartOpInImap2blockno
  if bn < NDIRECT then addrsFreeSafe ip bn
  else
    let bn := bn - NDIRECT
    let fs ← get
    if bn < NINDIRECT1 then
      let addr := (fs.inode ip).copy.addrs NDIRECT
      if addr = 0 then pure () else indexFreeSafe ip addr bn
    else
      let bn := bn - NINDIRECT1
      if bn < NINDIRECT2 then
        let addr ← addrsFindOrAlloc ip (NDIRECT + 1)
        assert (bn / NINDIRECT1 * 4 < BSIZE)
        indexFollow addr (bn / NINDIRECT1) fun addr => indexFreeSafe ip addr (bn % NINDIRECT1)
      else
        let bn := bn - NINDIRECT2
        if bn < NINDIRECT3 then
          let addr := (fs.inode ip).copy.addrs (NDIRECT + 2)
          if addr = 0 then pure ()
          else
            assert (bn / NINDIRECT2 * 4 < BSIZE)
            indexFollow addr (bn / NINDIRECT2) fun addr => do
              assert (bn % NINDIRECT2 / NINDIRECT1 * 4 < BSIZE)
              indexFollow addr (bn % NINDIRECT2 / NINDIRECT1) fun addr =>
                indexFreeSafe ip addr (bn % NINDIRECT2 % NINDIRECT1)
        else stop (.errExit .inodeTooBigFree)

/-- `ROUNDUP(size, BSIZE) / BSIZE`; the sum is a `size_t`. -/
def blocksOf (size : Nat) : Nat := sizeT (size + (BSIZE - 1)) / BSIZE

/-- The loop counters are `uint`s; `imap2blockno` exits before they could wrap. -/
def itrunc2size (ip size : Nat) : M Unit := do
  let fs ← get
  if size = (fs.inode ip).copy.size then pure ()
  else
    if size = 0 then itrunc ip else pure ()
    let fs ← get
    let target_blockno := blocksOf size
    let origin_blockno := blocksOf (fs.inode ip).copy.size
    if target_blockno ≥ origin_blockno then
      forRange (origin_blockno % 2 ^ 32) (target_blockno - origin_blockno % 2 ^ 32) fun i => do
        itrunc2sizeLogOpRestartHelper ip
        let _ ← imap2blockno ip i
    else
      forRange (target_blockno % 2 ^ 32) (origin_blockno - target_blockno % 2 ^ 32) fun i => do
        itrunc2sizeLogOpRestartHelper ip
        imap2blocknoFree ip i
  modifyCopy ip fun copy => { copy with size }
  iupdate ip

def restartOpOn (ip nwrote : Nat) : M Unit := do
  let fs ← get
  if fs.n_log_wrote ≥ nwrote - 1 then
    iupdate ip
    iunlock ip
    endOp
    beginOp
    ilock ip
  else pure ()

/-- The block is mapped, changed and logged. -/
def writeBlock (ip bn offset : Nat) (data : List Byte) : M Unit := do
  let blockno ← imap2blockno ip bn
  loggedUpdate blockno fun block => block.splice offset data

/-- The access and modification times of a finished write. -/
def touch (ip : Nat) : M Unit := do
  let now ← getCurrentTimespec
  modifyCopy ip fun copy => { copy with st_atimespec := now, st_mtimespec := now }

/-- `for (; nbytes > BSIZE; nbytes -= BSIZE)` over the data left; returns what is left and the next block. -/
def writeBlocks (ip : Nat) (data : List Byte) (inode_blockno : Nat) : M (List Byte × Nat) :=
  if data.length > BSIZE then do
    restartOpOn ip (MAXOPBLOCKS - 1 - 3 - 1)
    writeBlock ip inode_blockno 0 (data.take BSIZE)
    writeBlocks ip (data.drop BSIZE) (inode_blockno + 1)
  else pure (data, inode_blockno)
  termination_by data.length
  decreasing_by
    rename_i more
    simp only [BSIZE, List.length_drop] at more ⊢
    omega

def inodeWriteNbytesLocked (ip : Nat) (data : List Byte) (off : Nat) : M Nat := do
  if off > MAXFILE_SIZE then pure 0
  else
    let nbytes := if sizeT (off + data.length) > MAXFILE_SIZE then
      sizeT (data.length + 2 ^ 64 - (sizeT (off + data.length) - MAXFILE_SIZE)) else data.length
    let data := data.take nbytes
    modifyCopy ip fun copy => { copy with size := if copy.size < sizeT (off + nbytes) then sizeT (off + nbytes) else copy.size }
    iupdate ip
    let inode_block_start := off / BSIZE
    let from_start := off % BSIZE
    let n_left := BSIZE - from_start
    restartOpOn ip (MAXOPBLOCKS - 1 - 3 - 1)
    writeBlock ip inode_block_start from_start (data.take n_left)
    if nbytes ≤ n_left then
      touch ip
      iupdate ip
      pure nbytes
    else
      let (data, inode_blockno) ← writeBlocks ip (data.drop n_left) (inode_block_start + 1)
      restartOpOn ip (MAXOPBLOCKS - 3 - 1)
      if data.length ≠ 0 then writeBlock ip inode_blockno 0 data else pure ()
      touch ip
      iupdate ip
      pure nbytes

def readBlock (ip bn offset count : Nat) : M (List Byte) := do
  let blockno ← imap2blockno ip bn
  let bp ← loggedRead blockno
  pure (bp.slice offset count)

/-- `for (; nbytes > BSIZE; nbytes -= BSIZE)` and the last block. -/
def readBlocks (ip nbytes inode_blockno : Nat) : M (List Byte) :=
  if nbytes > BSIZE then do
    restartOpOn ip (MAXOPBLOCKS - 1 - 3)
    let head ← readBlock ip inode_blockno 0 BSIZE
    let rest ← readBlocks ip (nbytes - BSIZE) (inode_blockno + 1)
    pure (head ++ rest)
  else if nbytes ≠ 0 then do
    restartOpOn ip (MAXOPBLOCKS - 1 - 3)
    readBlock ip inode_blockno 0 nbytes
  else pure []
  termination_by nbytes
  decreasing_by
    rename_i more
    simp only [BSIZE] at more ⊢
    omega

/-- The bytes copied to `data`; their number is the value returned. The access time
is not written back. -/
def inodeReadNbytesLocked (ip nbytes off : Nat) : M (List Byte) := do
  let fs ← get
  let size := (fs.inode ip).copy.size
  if off > size then pure []
  else
    let nbytes := if sizeT (off + nbytes) > size then sizeT (nbytes + 2 ^ 64 - (sizeT (off + nbytes) - size)) else nbytes
    let inode_block_start := off / BSIZE
    let from_start := off % BSIZE
    let n_left := BSIZE - from_start
    let head ← readBlock ip inode_block_start from_start (min n_left nbytes)
    if nbytes ≤ n_left then
      let now ← getCurrentTimespec
      modifyCopy ip fun copy => { copy with st_atimespec := now }
      iupdate ip
      pure head
    else
      let rest ← readBlocks ip (nbytes - n_left) (inode_block_start + 1)
      iupdate ip
      let now ← getCurrentTimespec
      modifyCopy ip fun copy => { copy with st_atimespec := now }
      pure (head ++ rest)

def inodeWriteNbytesUnlocked (ip : Nat) (data : List Byte) (off : Nat) : M Nat := do
  beginOp
  ilock ip
  let nbytes ← inodeWriteNbytesLocked ip data off
  iunlock ip
  endOp
  pure nbytes

def inodeReadNbytesUnlocked (ip nbytes off : Nat) : M (List Byte) := do
  beginOp
  ilock ip
  let data ← inodeReadNbytesLocked ip nbytes off
  iunlock ip
  endOp
  pure data

end FS
end Myfuse
