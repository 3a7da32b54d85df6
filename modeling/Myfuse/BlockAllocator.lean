import Myfuse.FileSystem

/-! `block_allocator.c`: the bitmap on disk, its copy in memory and the
summaries that find a free block. -/

namespace Myfuse
open Library Library.Exec

namespace BmapCache

/-- `(cache_buf[byte] >> bit) & 1`; the shifted `char` is sign extended first. -/
def bmapBlockStatueGet (bmap : BmapCache) (blockno : Nat) : Nat :=
  ((((bmap.cache_buf (blockno / 8)).signExtend 32).sshiftRight (blockno % 8)) &&& 1).toNat

/-- The loop over one bitmap block in `block_allocator_refresh`: `count` bits from
`blockno` on, with the set bits and the first clear one so far. -/
def scanBits (bmap : BmapCache) : (count blockno n_alloced : Nat) → (first_unalloced : Int) → Nat × Int
  | 0, _, n_alloced, first_unalloced => (n_alloced, first_unalloced)
  | count + 1, blockno, n_alloced, first_unalloced =>
    if bmap.bmapBlockStatueGet blockno ≠ 0 then scanBits bmap count (blockno + 1) (n_alloced + 1) first_unalloced
    else
      scanBits bmap count (blockno + 1) n_alloced
        (if first_unalloced = -1 then ((blockno % BPB : Nat) : Int) else first_unalloced)

/-- `memmove(bmap_cache.cache_buf + i * BSIZE, bp->data, BSIZE)`. -/
def fill (bmap : BmapCache) (i : Nat) (data : Block) : BmapCache :=
  { bmap with
    cache_buf := fun byte => if i * BSIZE ≤ byte ∧ byte < (i + 1) * BSIZE then data.byte (byte - i * BSIZE)
      else bmap.cache_buf byte }

/-- After `memset(&bmap_cache, 0, sizeof(bmap_cache))`. -/
def zero : BmapCache :=
  { cache_buf := fun _ => 0, first_unalloced := fun _ => 0, n_alloced := fun _ => 0, n_cache := 0, first_free_cache := 0 }

end BmapCache

namespace FS

def modifyBmap (change : BmapCache → BmapCache) : M Unit := modify fun fs => { fs with bmap := change fs.bmap }

/-- The outer loop from bitmap block `i` on. `first_free` starts at 0, so it stays there. -/
def refreshFrom (sb : Superblock) : (count i first_free : Nat) → M Unit
  | 0, _, _ => pure ()
  | count + 1, i, first_free => do
    let data ← loggedRead (i + sb.bmapstart)
    modifyBmap (·.fill i data)
    let fs ← get
    let (n_alloced, first_unalloced) := fs.bmap.scanBits BPB (i * BPB) 0 (-1)
    modifyBmap fun bmap =>
      { bmap with
        n_alloced := assign bmap.n_alloced i n_alloced
        first_unalloced := assign bmap.first_unalloced i first_unalloced }
    refreshFrom sb count (i + 1) (if first_unalloced ≠ -1 ∧ first_free ≠ 0 then i else first_free)

/-- `first_free_cache` is a `uint`, so the warning at the end is never given. -/
def blockAllocatorRefresh (sb : Superblock) : M Unit := do
  modifyBmap fun bmap => { bmap with n_cache := ROUNDUP sb.size BPB / BPB }
  beginOp
  refreshFrom sb (ROUNDUP sb.size BPB / BPB) 0 0
  endOp

/-- Set or clear one bit, in memory and in the logged bitmap block. -/
def bmapBlockStatueSet (blockno i : Nat) : M Unit := do
  let fs ← get
  if fs.bmap.n_cache * BSIZE ≤ blockno / 8 then stop .undefined
  else
    let flag := (1 : Byte) <<< (blockno % 8)
    let old := fs.bmap.cache_buf (blockno / 8)
    let bits_flag := if i % 2 = 1 then old ||| flag else old &&& ~~~flag
    modifyBmap fun bmap => { bmap with cache_buf := assign bmap.cache_buf (blockno / 8) bits_flag }
    loggedUpdate (fs.sb.bblock blockno) fun data => data.splice (blockno % BPB / 8) [bits_flag]

/-- The body of both loops of `init_meta_blocks_bmap`. -/
def initMetaBlock (i : Nat) : M Unit := do
  beginOp
  bmapBlockStatueSet i 1
  endOp

/-- The counters are `int`s, which is enough below `2 ^ 31` blocks. -/
def initMetaBlocksBmap : M Unit := do
  let fs ← get
  let nmeta_bloks := (fs.sb.size + 2 ^ 32 - fs.sb.nblocks) % 2 ^ 32
  forRange 0 nmeta_bloks initMetaBlock
  forRange fs.sb.size (ROUNDUP fs.sb.size BPB - fs.sb.size) initMetaBlock

def loggedZeroABlock (bno : Nat) : M Unit := loggedUpdate bno fun _ => Bytes.zero

/-- "third, update the cache" of `block_alloc`. -/
def blockAllocUpdateCache (free_cache_index first_free_block : Nat) : M Unit := do
  modifyBmap fun bmap =>
    { bmap with
      n_alloced := assign bmap.n_alloced free_cache_index ((bmap.n_alloced free_cache_index + 1) % 2 ^ 32) }
  let fs ← get
  if fs.bmap.n_alloced free_cache_index = BPB then
    modifyBmap fun bmap => { bmap with first_unalloced := assign bmap.first_unalloced free_cache_index (-1) }
    let fs ← get
    match (List.range fs.bmap.n_cache).find? fun i => fs.bmap.first_unalloced i ≠ -1 with
    | some i => modifyBmap fun bmap => { bmap with first_free_cache := i }
    | none =>
      modifyBmap fun bmap => { bmap with first_free_cache := 2 ^ 32 - 1 }
      stop (.errExit .noFreeSpace)
  else
    let next := (first_free_block + 1) % 2 ^ 32
    match (List.range' next (BPB - next)).find? fun i =>
        fs.bmap.bmapBlockStatueGet (i + free_cache_index * BPB) = 0 with
    | some i =>
      modifyBmap fun bmap => { bmap with first_unalloced := assign bmap.first_unalloced free_cache_index i }
    | none => pure ()

/-- `first_free_cache` is a `uint`, so it is never below 0; an index past the arrays is out of bounds. -/
def blockAlloc : M Nat := do
  let fs ← get
  let free_cache_index := fs.bmap.first_free_cache
  if fs.bmap.n_cache ≤ free_cache_index then stop .undefined
  else
    let first_free_block := (fs.bmap.first_unalloced free_cache_index % 2 ^ 32).toNat
    let victim_blockno := (first_free_block + free_cache_index * BPB) % 2 ^ 32
    bmapBlockStatueSet victim_blockno 1
    blockAllocUpdateCache free_cache_index first_free_block
    note (.blockAlloc victim_blockno)
    loggedZeroABlock victim_blockno
    pure victim_blockno

/-- The comparison is between `uint`s, so -1 counts as the largest. -/
def blockFree (blockno : Nat) : M Unit := do
  let cache_index := blockno / BPB
  let bmapno := blockno % BPB
  bmapBlockStatueSet blockno 0
  modifyBmap fun bmap =>
    { bmap with
      n_alloced := assign bmap.n_alloced cache_index ((bmap.n_alloced cache_index + 2 ^ 32 - 1) % 2 ^ 32)
      first_unalloced := assign bmap.first_unalloced cache_index
        (if (bmap.first_unalloced cache_index % 2 ^ 32).toNat > bmapno then (bmapno : Int)
          else bmap.first_unalloced cache_index)
      first_free_cache := cache_index }
  note (.blockFree blockno)

end FS
end Myfuse
