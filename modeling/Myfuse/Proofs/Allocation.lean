import Mathlib.Data.List.Find
import Myfuse.Library.Bitmap
import Myfuse.BlockAllocator

/-! What `block_alloc` and `block_free` do to the bitmap and its summaries. -/

namespace Myfuse
open Library Library.Exec

theorem bmapBlockStatueGet_eq (bmap : BmapCache) (blockno : Nat) :
    bmap.bmapBlockStatueGet blockno = if (bmap.cache_buf (blockno / 8)).getLsbD (blockno % 8) then 1 else 0 := by
  have low : blockno % 8 < 8 := Nat.mod_lt _ (by decide)
  have bit : (((bmap.cache_buf (blockno / 8)).signExtend 32).sshiftRight (blockno % 8)).getLsbD 0 =
      (bmap.cache_buf (blockno / 8)).getLsbD (blockno % 8) := by
    rw [BitVec.getLsbD_sshiftRight, BitVec.getLsbD_signExtend]
    simp [low, show blockno % 8 < 32 by omega]
  have one : (1 : BitVec 32) = 1#32 := rfl
  rw [BmapCache.bmapBlockStatueGet, one, BitVec.and_one_eq_setWidth_ofBool_getLsbD, bit]
  cases (bmap.cache_buf (blockno / 8)).getLsbD (blockno % 8) <;> rfl

/-- The memory copy of the bitmap is the one in the store. -/
def Cached (sb : Superblock) (store : Nat → Block) (bmap : BmapCache) : Prop :=
  ∀ c < sb.nbitmap, ∀ k < BSIZE, bmap.cache_buf (c * BSIZE + k) = (store (c + sb.bmapstart)).byte k

/-- The memory copy and the summaries match the bitmap blocks of the store. -/
structure Summaries (sb : Superblock) (store : Nat → Block) (bmap : BmapCache) : Prop where
  n_cache : bmap.n_cache = sb.nbitmap
  cached : Cached sb store bmap
  counted : ∀ c < sb.nbitmap, bmap.n_alloced c = countSet BPB (store (c + sb.bmapstart)).bit
  lowest : ∀ c < sb.nbitmap, bmap.first_unalloced c = lowestClear BPB (store (c + sb.bmapstart)).bit

/-- `first_free_cache` names a bitmap block with a clear bit. -/
def FirstFree (sb : Superblock) (store : Nat → Block) (bmap : BmapCache) : Prop :=
  bmap.first_free_cache < sb.nbitmap ∧ lowestClear BPB (store (bmap.first_free_cache + sb.bmapstart)).bit ≠ -1

/-- The bitmap bit of a block. -/
def bitOf (sb : Superblock) (store : Nat → Block) (blockno : Nat) : Bool :=
  (store (sb.bblock blockno)).bit (blockno % BPB)

/-- The store with one bitmap bit changed. -/
def setBitOf (sb : Superblock) (store : Nat → Block) (blockno : Nat) (value : Bool) : Nat → Block :=
  assign store (sb.bblock blockno) ((store (sb.bblock blockno)).setBit (blockno % BPB) value)

variable {sb : Superblock} {store store' : Nat → Block} {bmap : BmapCache}

theorem cached_bit (same : Cached sb store bmap) {blockno : Nat} (inside : blockno < sb.nbitmap * BPB) :
    (bmap.cache_buf (blockno / 8)).getLsbD (blockno % 8) = bitOf sb store blockno := by
  simp only [BPB, BSIZE] at inside
  have cached := same (blockno / BPB) (by simp only [BPB, BSIZE]; omega) (blockno % BPB / 8)
    (by simp only [BPB, BSIZE]; omega)
  have place : blockno / BPB * BSIZE + blockno % BPB / 8 = blockno / 8 := by simp only [BPB, BSIZE]; omega
  have flag : blockno % BPB % 8 = blockno % 8 := by simp only [BPB, BSIZE]; omega
  rw [place] at cached
  rw [bitOf, Bytes.bit, Superblock.bblock, flag, cached]

theorem statueGet_bit (same : Cached sb store bmap) {blockno : Nat} (inside : blockno < sb.nbitmap * BPB) :
    bmap.bmapBlockStatueGet blockno = 0 ↔ bitOf sb store blockno = false := by
  rw [bmapBlockStatueGet_eq, cached_bit same inside]
  cases bitOf sb store blockno <;> simp

theorem bitOf_setBitOf (sb : Superblock) (store : Nat → Block) (blockno other : Nat) (value : Bool) :
    bitOf sb (setBitOf sb store blockno value) other = if other = blockno then value else bitOf sb store other := by
  have low : other % BPB < BSIZE * 8 := Nat.mod_lt _ (by simp [BPB, BSIZE])
  unfold bitOf setBitOf
  by_cases block : sb.bblock other = sb.bblock blockno
  · rw [block, assign_self, Bytes.bit_setBit _ _ low]
    have same : other % BPB = blockno % BPB ↔ other = blockno := by
      simp only [Superblock.bblock, BPB, BSIZE] at block ⊢
      omega
    simp only [same]
  · rw [assign_of_ne block, if_neg fun same => block (by rw [same])]

/-- Bitmap blocks are read through their contents only. -/
theorem Summaries.congr (summaries : Summaries sb store bmap)
    (same : ∀ c < sb.nbitmap, store' (c + sb.bmapstart) = store (c + sb.bmapstart)) : Summaries sb store' bmap where
  n_cache := summaries.n_cache
  cached c inside k low := by rw [same c inside]; exact summaries.cached c inside k low
  counted c inside := by rw [same c inside]; exact summaries.counted c inside
  lowest c inside := by rw [same c inside]; exact summaries.lowest c inside

theorem FirstFree.congr (free : FirstFree sb store bmap)
    (same : ∀ c < sb.nbitmap, store' (c + sb.bmapstart) = store (c + sb.bmapstart)) : FirstFree sb store' bmap :=
  ⟨free.1, by rw [same _ free.1]; exact free.2⟩

/-- The memory copy after `bmap_block_statue_set`. -/
def setCached (bmap : BmapCache) (blockno : Nat) (value : Bool) : BmapCache :=
  { bmap with
    cache_buf := assign bmap.cache_buf (blockno / 8)
      (Bytes.setFlag (bmap.cache_buf (blockno / 8)) (blockno % 8) value) }

theorem cached_set (same : Cached sb store bmap) (blockno : Nat) (value : Bool) :
    Cached sb (setBitOf sb store blockno value) (setCached bmap blockno value) := by
  intro c inside k low
  have old := same c inside k low
  have flag : blockno % BPB % 8 = blockno % 8 := by simp only [BPB, BSIZE]; omega
  have place : c * BSIZE + k = blockno / 8 ↔ blockno / BPB = c ∧ k = blockno % BPB / 8 := by
    simp only [BPB, BSIZE] at low ⊢
    omega
  simp only [setCached, setBitOf, Superblock.bblock]
  by_cases block : blockno / BPB = c
  · rw [block, assign_self, Bytes.byte_setBit _ _ low, flag, ← old]
    by_cases byte : k = blockno % BPB / 8
    · rw [if_pos byte, place.mpr ⟨block, byte⟩, assign_self]
    · rw [if_neg byte, assign_of_ne fun same => byte (place.mp same).2]
  · rw [assign_of_ne fun same => block (place.mp same).1, assign_of_ne (by omega), old]

/-! The logged block access. -/

namespace FS

/-- What `logged_write` records. -/
def logged (fs : FS) (blockno : Nat) : FS :=
  { fs with n_log_wrote := fs.n_log_wrote + 1, log := fs.log.absorb blockno, history := .logged blockno :: fs.history }

/-- `logged_write` found no room. -/
def LogFull (reason : Exit) (after : FS) : Prop :=
  reason = .errExit .tooBigTransaction ∧ after.log.tooBig = true

variable {fs : FS}

theorem loggedUpdate_spec (inOp : 1 ≤ fs.log.outstanding) (blockno : Nat) (change : Block → Block) :
    Ensures (loggedUpdate blockno change) fs
      (fun _ after => fs.log.tooBig = false ∧ after =
        { fs with store := assign fs.store blockno (change (fs.store blockno)) }.logged blockno)
      LogFull := by
  simp only [loggedUpdate, loggedWrite, note, ensures_bind, ensures_modify, ensures_get, ensures_ite, ensures_stop]
  refine ⟨fun full => ⟨rfl, full⟩, fun room => ⟨fun outside => absurd outside (Int.not_lt.mpr inOp), fun _ => ?_⟩⟩
  exact ⟨Bool.not_eq_true _ ▸ room, rfl⟩

/-- One bit changed, in memory and in the logged bitmap block. -/
def withBit (fs : FS) (blockno : Nat) (value : Bool) : FS :=
  { fs with store := setBitOf fs.sb fs.store blockno value, bmap := setCached fs.bmap blockno value }

theorem bmapBlockStatueSet_spec (inOp : 1 ≤ fs.log.outstanding) (n_cache : fs.bmap.n_cache = fs.sb.nbitmap)
    (same : Cached fs.sb fs.store fs.bmap) {blockno : Nat} (inside : blockno < fs.sb.nbitmap * BPB) (i : Nat) :
    Ensures (bmapBlockStatueSet blockno i) fs
      (fun _ after => fs.log.tooBig = false ∧
        after = (fs.withBit blockno (decide (i % 2 = 1))).logged (fs.sb.bblock blockno))
      LogFull := by
  have bounded : ¬ fs.bmap.n_cache * BSIZE ≤ blockno / 8 := by
    rw [n_cache]
    simp only [BPB, BSIZE] at inside ⊢
    omega
  have old : fs.bmap.cache_buf (blockno / 8) = (fs.store (fs.sb.bblock blockno)).byte (blockno % BPB / 8) := by
    have cached := same (blockno / BPB) (by simp only [BPB, BSIZE] at inside ⊢; omega) (blockno % BPB / 8)
      (by simp only [BPB, BSIZE]; omega)
    have place : blockno / BPB * BSIZE + blockno % BPB / 8 = blockno / 8 := by simp only [BPB, BSIZE]; omega
    rwa [place] at cached
  have flag : blockno % BPB % 8 = blockno % 8 := by simp only [BPB, BSIZE]; omega
  have flagged : (if i % 2 = 1 then fs.bmap.cache_buf (blockno / 8) ||| ((1 : Byte) <<< (blockno % 8))
        else fs.bmap.cache_buf (blockno / 8) &&& ~~~((1 : Byte) <<< (blockno % 8))) =
      Bytes.setFlag (fs.bmap.cache_buf (blockno / 8)) (blockno % 8) (decide (i % 2 = 1)) := by
    by_cases one : i % 2 = 1 <;> simp [Bytes.setFlag, one]
  simp only [bmapBlockStatueSet, ensures_bind, ensures_get, if_neg bounded, modifyBmap, ensures_modify]
  generalize called : ({ fs with bmap := { fs.bmap with cache_buf := _ } } : FS) = current
  have inOp' : 1 ≤ current.log.outstanding := by rw [← called]; exact inOp
  refine (loggedUpdate_spec inOp' _ _).weaken fun _ after done => ?_
  rw [done.2, ← called]
  refine ⟨by rw [← called] at done; exact done.1, ?_⟩
  simp only [flagged, withBit, setBitOf, setCached, Bytes.setBit, flag, ← old]

/-- The bitmap blocks after a bit of block `c` has changed. -/
private theorem setBitOf_block {c j : Nat} (low : j < BPB) (value : Bool) (other : Nat) :
    setBitOf sb store (j + c * BPB) value (other + sb.bmapstart) =
      if other = c then (store (c + sb.bmapstart)).setBit j value else store (other + sb.bmapstart) := by
  have block : (j + c * BPB) / BPB = c := by
    rw [Nat.add_mul_div_right _ _ (by simp [BPB, BSIZE]), Nat.div_eq_of_lt low, Nat.zero_add]
  have index : (j + c * BPB) % BPB = j := by rw [Nat.add_mul_mod_self_right, Nat.mod_eq_of_lt low]
  simp only [setBitOf, Superblock.bblock, block, index]
  by_cases same : other = c
  · rw [same, assign_self, if_pos rfl]
  · rw [assign_of_ne (by omega), if_neg same]

private theorem bit_setBit_block {block : Block} {j : Nat} (value : Bool) :
    ∀ other < BPB, (block.setBit j value).bit other = if other = j then value else block.bit other :=
  fun _ inside => Bytes.bit_setBit block value inside

theorem blockAllocUpdateCache_spec {c j : Nat} (before : Summaries fs.sb store bmap) (inside : c < fs.sb.nbitmap)
    (isFirst : lowestClear BPB (store (c + fs.sb.bmapstart)).bit = j) (first_free : bmap.first_free_cache = c)
    (storeIs : fs.store = setBitOf fs.sb store (j + c * BPB) true) (bmapIs : fs.bmap = setCached bmap (j + c * BPB) true) :
    Ensures (blockAllocUpdateCache c j) fs
      (fun _ after => ∃ bmap', after = { fs with bmap := bmap' } ∧ Summaries fs.sb fs.store bmap' ∧
        FirstFree fs.sb fs.store bmap')
      (fun reason _ => reason = .errExit .noFreeSpace ∧
        ∀ blockno < fs.sb.nbitmap * BPB, bitOf fs.sb fs.store blockno = true) := by
  obtain ⟨low, clear, _⟩ := lowestClear_eq_iff.mp isFirst
  have blocks : ∀ other, fs.store (other + fs.sb.bmapstart) =
      if other = c then (store (c + fs.sb.bmapstart)).setBit j true else store (other + fs.sb.bmapstart) := by
    rw [storeIs]
    exact setBitOf_block low true
  have here : fs.store (c + fs.sb.bmapstart) = (store (c + fs.sb.bmapstart)).setBit j true := by rw [blocks, if_pos rfl]
  have cached : Cached fs.sb fs.store fs.bmap := by
    rw [storeIs, bmapIs]
    exact cached_set before.cached _ true
  -- The two summaries of block `c` with its bit set.
  have spread : ∀ other, (if other = j then true else (store (c + fs.sb.bmapstart)).bit other) =
      if other = j then true else (store (c + fs.sb.bmapstart)).bit other := fun _ => rfl
  have count : countSet BPB (fs.store (c + fs.sb.bmapstart)).bit = fs.bmap.n_alloced c + 1 := by
    rw [here, countSet_congr (bit_setBit_block true), countSet_set low clear spread, bmapIs]
    rw [show (setCached bmap (j + c * BPB) true).n_alloced c = bmap.n_alloced c from rfl, before.counted c inside]
  have count_small : fs.bmap.n_alloced c + 1 ≤ BPB := count ▸ countSet_le
  have width : BPB = 32768 := rfl
  have wrapped : (fs.bmap.n_alloced c + 1) % 2 ^ 32 = fs.bmap.n_alloced c + 1 := Nat.mod_eq_of_lt (by omega)
  have others : ∀ other < fs.sb.nbitmap, other ≠ c → fs.bmap.n_alloced other =
        countSet BPB (fs.store (other + fs.sb.bmapstart)).bit ∧
      fs.bmap.first_unalloced other = lowestClear BPB (fs.store (other + fs.sb.bmapstart)).bit := by
    intro other small apart
    rw [blocks, if_neg apart, bmapIs]
    exact ⟨before.counted other small, before.lowest other small⟩
  have n_cache : fs.bmap.n_cache = fs.sb.nbitmap := by
    rw [bmapIs]
    exact before.n_cache
  -- The summaries hold once both entries of block `c` are right.
  have summarized : ∀ bmap' : BmapCache, bmap'.cache_buf = fs.bmap.cache_buf → bmap'.n_cache = fs.bmap.n_cache →
      bmap'.n_alloced = assign fs.bmap.n_alloced c (fs.bmap.n_alloced c + 1) →
      (∃ value, bmap'.first_unalloced = assign fs.bmap.first_unalloced c value ∧
        value = lowestClear BPB (fs.store (c + fs.sb.bmapstart)).bit) →
      Summaries fs.sb fs.store bmap' := by
    rintro bmap' buf cache alloced ⟨value, unalloced, valueIs⟩
    refine ⟨by rw [cache, n_cache], fun other small k low => by rw [buf]; exact cached other small k low, fun other small => ?_, fun other small => ?_⟩
    · by_cases same : other = c
      · rw [alloced, same, assign_self, count]
      · rw [alloced, assign_of_ne same]
        exact (others other small same).1
    · by_cases same : other = c
      · rw [unalloced, same, assign_self, valueIs]
      · rw [unalloced, assign_of_ne same]
        exact (others other small same).2
  simp only [blockAllocUpdateCache, modifyBmap, ensures_bind, ensures_modify, ensures_get, assign_self, wrapped]
  split
  next full =>
    have all : ∀ other < BPB, (fs.store (c + fs.sb.bmapstart)).bit other = true := countSet_eq_width.mp (by rw [count, full])
    have none := lowestClear_eq_neg_one.mpr all
    simp only [ensures_bind, ensures_modify, ensures_get]
    split
    next i found =>
      obtain ⟨some, small, _⟩ := List.find?_range_eq_some.mp found
      rw [List.mem_range, n_cache] at small
      have some : assign fs.bmap.first_unalloced c (-1) i ≠ -1 := by simpa using some
      rw [ensures_modify]
      refine ⟨_, rfl, summarized _ rfl rfl rfl ⟨-1, rfl, none.symm⟩, small, ?_⟩
      have apart : i ≠ c := by
        rintro rfl
        simp at some
      rw [assign_of_ne apart] at some
      rwa [← (others i small apart).2]
    next found =>
      have nowhere := List.find?_range_eq_none.mp found
      simp only [ensures_bind, ensures_modify, ensures_stop]
      refine ⟨trivial, fun blockno bound => ?_⟩
      rw [width] at bound
      have small : blockno / BPB < fs.sb.nbitmap := by rw [width]; omega
      have all' : lowestClear BPB (fs.store (blockno / BPB + fs.sb.bmapstart)).bit = -1 := by
        by_cases same : blockno / BPB = c
        · rw [same, none]
        · have full : assign fs.bmap.first_unalloced c (-1) (blockno / BPB) = -1 := by
            simpa using nowhere (blockno / BPB) (by rw [n_cache]; exact small)
          rwa [assign_of_ne same, (others _ small same).2] at full
      exact lowestClear_eq_neg_one.mp all' _ (Nat.mod_lt _ (by rw [width]; decide))
  next some =>
    have next : (j + 1) % 2 ^ 32 = j + 1 := Nat.mod_eq_of_lt (by omega)
    have notFull : lowestClear BPB (fs.store (c + fs.sb.bmapstart)).bit ≠ -1 := fun none =>
      some (by rw [← count]; exact countSet_eq_width.mpr (lowestClear_eq_neg_one.mp none))
    have scan : ∀ i < BPB, fs.bmap.bmapBlockStatueGet (i + c * BPB) = 0 ↔
        (fs.store (c + fs.sb.bmapstart)).bit i = false := by
      intro i small
      rw [statueGet_bit cached (by rw [width] at small ⊢; omega), bitOf, Superblock.bblock,
        Nat.add_mul_div_right _ _ (by rw [width]; decide), Nat.div_eq_of_lt small, Nat.zero_add,
        Nat.add_mul_mod_self_right, Nat.mod_eq_of_lt small]
    have sameBit : ∀ other < BPB, (fs.store (c + fs.sb.bmapstart)).bit other =
        if other = j then true else (store (c + fs.sb.bmapstart)).bit other := fun other small => by
      rw [here]
      exact bit_setBit_block true other small
    have lowest : lowestClear BPB (fun other => if other = j then true else (store (c + fs.sb.bmapstart)).bit other) = _ :=
      lowestClear_set isFirst fun _ => rfl
    rw [← lowestClear_congr sameBit, firstClear] at lowest
    have sameFind : (List.range' (j + 1) (BPB - (j + 1))).find? (fun other =>
          !(if other = j then true else (store (c + fs.sb.bmapstart)).bit other)) =
        (List.range' (j + 1) (BPB - (j + 1))).find? (fun i => decide (fs.bmap.bmapBlockStatueGet (i + c * BPB) = 0)) := by
      refine List.find?_congr fun other member => ?_
      have small : other < BPB := by
        have := List.mem_range'_1.mp member
        omega
      rw [← sameBit other small]
      have clearIff := scan other small
      cases set : (fs.store (c + fs.sb.bmapstart)).bit other <;> simp [clearIff, set]
    rw [next]
    rw [sameFind] at lowest
    split
    next i found =>
      rw [ensures_modify]
      have found : (List.range' (j + 1) (BPB - (j + 1))).find?
          (fun i => decide (fs.bmap.bmapBlockStatueGet (i + c * BPB) = 0)) = Option.some i := found
      rw [found] at lowest
      dsimp only at lowest
      have here : fs.bmap.first_free_cache = c := by rw [bmapIs]; exact first_free
      refine ⟨_, rfl, summarized _ rfl rfl rfl ⟨i, rfl, lowest.symm⟩, ?_, ?_⟩
      · simp only [here]
        exact inside
      · simp only [here]
        exact notFull
    next found =>
      have found : (List.range' (j + 1) (BPB - (j + 1))).find?
          (fun i => decide (fs.bmap.bmapBlockStatueGet (i + c * BPB) = 0)) = none := found
      rw [found] at lowest
      exact absurd lowest notFull

/-- What `block_alloc` has done when it returns `blockno`. -/
structure Allocated (fs : FS) (blockno : Nat) (after : FS) : Prop where
  inside : blockno < fs.sb.nbitmap * BPB
  clear : bitOf fs.sb fs.store blockno = false
  moved : ∃ bmap', after = { fs with
      store := assign (setBitOf fs.sb fs.store blockno true) blockno Bytes.zero
      bmap := bmap'
      log := (fs.log.absorb (fs.sb.bblock blockno)).absorb blockno
      n_log_wrote := fs.n_log_wrote + 2
      history := .logged blockno :: .blockAlloc blockno :: .logged (fs.sb.bblock blockno) :: fs.history } ∧
    Summaries fs.sb (setBitOf fs.sb fs.store blockno true) bmap' ∧
    FirstFree fs.sb (setBitOf fs.sb fs.store blockno true) bmap'

/-- It stops when the log is full, or when it takes the last clear bit. -/
theorem blockAlloc_spec (inOp : 1 ≤ fs.log.outstanding) (summaries : Summaries fs.sb fs.store fs.bmap)
    (free : FirstFree fs.sb fs.store fs.bmap) (uint : fs.sb.nbitmap * BPB ≤ 2 ^ 32) :
    Ensures blockAlloc fs (Allocated fs) fun reason after =>
      (reason = .errExit .noFreeSpace ∧ ∃ last, ∀ blockno < fs.sb.nbitmap * BPB,
        bitOf fs.sb fs.store blockno = false → blockno = last) ∨ LogFull reason after := by
  obtain ⟨c, cIs⟩ : ∃ c, fs.bmap.first_free_cache = c := ⟨_, rfl⟩
  obtain ⟨inside, some⟩ := free
  rw [cIs] at inside some
  obtain ⟨j, low, isFirst, clear⟩ := (lowestClear_cases BPB (fs.store (c + fs.sb.bmapstart)).bit).resolve_left some
  have width : BPB = 32768 := rfl
  have fits : j + c * BPB < fs.sb.nbitmap * BPB := by
    rw [width] at low ⊢
    omega
  have first : (fs.bmap.first_unalloced c % 2 ^ 32).toNat = j := by
    rw [summaries.lowest c inside, isFirst]
    omega
  have victim : (j + c * BPB) % 2 ^ 32 = j + c * BPB := Nat.mod_eq_of_lt (by omega)
  have block : (j + c * BPB) / BPB = c := by
    rw [Nat.add_mul_div_right _ _ (by rw [width]; decide), Nat.div_eq_of_lt low, Nat.zero_add]
  have index : (j + c * BPB) % BPB = j := by rw [Nat.add_mul_mod_self_right, Nat.mod_eq_of_lt low]
  have wasClear : bitOf fs.sb fs.store (j + c * BPB) = false := by
    rw [bitOf, Superblock.bblock, block, index]
    exact clear
  unfold blockAlloc
  rw [ensures_bind, ensures_get]
  simp only [cIs, first, victim]
  rw [if_neg (by rw [summaries.n_cache]; omega)]
  refine Ensures.bind ((bmapBlockStatueSet_spec inOp summaries.n_cache summaries.cached fits 1).mono (fun _ _ same => same) fun _ _ => .inr) ?_
  rintro _ after₁ ⟨room, rfl⟩
  have updates : Ensures (blockAllocUpdateCache c j) ((fs.withBit (j + c * BPB) true).logged (fs.sb.bblock (j + c * BPB))) _ _ :=
    blockAllocUpdateCache_spec summaries inside isFirst cIs rfl rfl
  refine Ensures.bind (updates.mono (fun _ _ same => same) fun reason _ stopped => .inl ⟨stopped.1, j + c * BPB, ?_⟩) ?_
  · intro blockno bound unset
    by_contra apart
    have set : bitOf fs.sb (setBitOf fs.sb fs.store (j + c * BPB) true) blockno = true := stopped.2 blockno bound
    rw [bitOf_setBitOf, if_neg apart, unset] at set
    cases set
  · rintro _ after₂ ⟨bmap', rfl, summaries', free'⟩
    unfold note
    rw [ensures_bind, ensures_modify]
    unfold loggedZeroABlock
    refine Ensures.bind ((loggedUpdate_spec ?_ _ _).mono (fun _ _ same => same) fun _ _ => .inr) ?_
    · simpa [logged, withBit] using inOp
    · rintro _ after₃ ⟨_, rfl⟩
      exact (ensures_pure _).mpr ⟨fits, wasClear, bmap', rfl, summaries', free'⟩

/-- What `block_free` leaves. -/
structure Freed (fs : FS) (blockno : Nat) (after : FS) : Prop where
  moved : ∃ bmap', after = { fs with
      store := setBitOf fs.sb fs.store blockno false
      bmap := bmap'
      log := fs.log.absorb (fs.sb.bblock blockno)
      n_log_wrote := fs.n_log_wrote + 1
      history := .blockFree blockno :: .logged (fs.sb.bblock blockno) :: fs.history } ∧
    Summaries fs.sb (setBitOf fs.sb fs.store blockno false) bmap' ∧
    FirstFree fs.sb (setBitOf fs.sb fs.store blockno false) bmap'

theorem blockFree_spec (inOp : 1 ≤ fs.log.outstanding) (summaries : Summaries fs.sb fs.store fs.bmap) {blockno : Nat}
    (inside : blockno < fs.sb.nbitmap * BPB) (set : bitOf fs.sb fs.store blockno = true) :
    Ensures (blockFree blockno) fs (fun _ after => Freed fs blockno after) LogFull := by
  have width : BPB = 32768 := rfl
  obtain ⟨c, j, low, rfl⟩ : ∃ c j, j < BPB ∧ blockno = j + c * BPB :=
    ⟨blockno / BPB, blockno % BPB, Nat.mod_lt _ (by rw [width]; decide), by rw [Nat.mul_comm, Nat.mod_add_div]⟩
  have block : (j + c * BPB) / BPB = c := by
    rw [Nat.add_mul_div_right _ _ (by rw [width]; decide), Nat.div_eq_of_lt low, Nat.zero_add]
  have index : (j + c * BPB) % BPB = j := by rw [Nat.add_mul_mod_self_right, Nat.mod_eq_of_lt low]
  have small : c < fs.sb.nbitmap := by
    rw [width] at inside
    omega
  have isSet : (fs.store (c + fs.sb.bmapstart)).bit j = true := by
    rwa [bitOf, Superblock.bblock, block, index] at set
  have blocks : ∀ other, setBitOf fs.sb fs.store (j + c * BPB) false (other + fs.sb.bmapstart) =
      if other = c then (fs.store (c + fs.sb.bmapstart)).setBit j false else fs.store (other + fs.sb.bmapstart) :=
    setBitOf_block low false
  have spread : ∀ other, (if other = j then false else (fs.store (c + fs.sb.bmapstart)).bit other) =
      if other = j then false else (fs.store (c + fs.sb.bmapstart)).bit other := fun _ => rfl
  have count := countSet_clear low isSet spread
  have lowest := lowestClear_clear low spread
  rw [← countSet_congr (bit_setBit_block false), ← summaries.counted c small] at count
  rw [← lowestClear_congr (bit_setBit_block false), ← summaries.lowest c small] at lowest
  have bounded : fs.bmap.n_alloced c ≤ BPB := by rw [summaries.counted c small]; exact countSet_le
  have counted : (fs.bmap.n_alloced c + 2 ^ 32 - 1) % 2 ^ 32 =
      countSet BPB ((fs.store (c + fs.sb.bmapstart)).setBit j false).bit := by
    rw [width] at bounded count ⊢
    omega
  have first : (if (fs.bmap.first_unalloced c % 2 ^ 32).toNat > j then (j : Int) else fs.bmap.first_unalloced c) =
      lowestClear BPB ((fs.store (c + fs.sb.bmapstart)).setBit j false).bit := by
    rw [lowest]
    have range : fs.bmap.first_unalloced c = -1 ∨ 0 ≤ fs.bmap.first_unalloced c ∧ fs.bmap.first_unalloced c < BPB := by
      rw [summaries.lowest c small]
      rcases lowestClear_cases BPB (fs.store (c + fs.sb.bmapstart)).bit with none | ⟨first, below, isFirst, _⟩
      · exact .inl none
      · rw [isFirst]
        exact .inr ⟨by omega, by omega⟩
    have uint : (fs.bmap.first_unalloced c % 2 ^ 32).toNat > j ↔
        fs.bmap.first_unalloced c = -1 ∨ (j : Int) < fs.bmap.first_unalloced c := by
      rw [width] at low range
      omega
    simp only [uint]
  have someClear : lowestClear BPB ((fs.store (c + fs.sb.bmapstart)).setBit j false).bit ≠ -1 := fun none => by
    have := lowestClear_eq_neg_one.mp none j low
    rw [bit_setBit_block false j low, if_pos rfl] at this
    cases this
  unfold blockFree
  simp only [block, index]
  refine Ensures.bind (bmapBlockStatueSet_spec inOp summaries.n_cache summaries.cached inside 0) ?_
  rintro _ after₁ ⟨_, rfl⟩
  simp only [modifyBmap, note, ensures_bind, ensures_modify]
  refine ⟨_, rfl, ⟨summaries.n_cache, cached_set summaries.cached _ false, fun other bound => ?_, fun other bound => ?_⟩, small, ?_⟩
  · simp only [logged, withBit, setCached, blocks]
    by_cases same : other = c
    · rw [same, assign_self, if_pos rfl, counted]
    · rw [assign_of_ne same, if_neg same, summaries.counted other bound]
  · simp only [logged, withBit, setCached, blocks]
    by_cases same : other = c
    · rw [same, assign_self, if_pos rfl]
      exact first
    · rw [assign_of_ne same, if_neg same, summaries.lowest other bound]
  · rw [blocks, if_pos rfl]
    exact someClear

end FS
end Myfuse
