import Myfuse.Proofs.Allocation
import Myfuse.Proofs.LogUse

/-! What mounting makes of the bitmap on disk: the summaries are right for every
bitmap, and `first_free_cache` is left at 0. -/

namespace Myfuse
open Library Library.Exec

variable {sb : Superblock} {store : Nat → Block} {bmap : BmapCache}

/-- The first `count` bitmap blocks are read and summarized. -/
structure Filled (sb : Superblock) (store : Nat → Block) (count : Nat) (bmap : BmapCache) : Prop where
  cached : ∀ c < count, ∀ k < BSIZE, bmap.cache_buf (c * BSIZE + k) = (store (c + sb.bmapstart)).byte k
  counted : ∀ c < count, bmap.n_alloced c = countSet BPB (store (c + sb.bmapstart)).bit
  lowest : ∀ c < count, bmap.first_unalloced c = lowestClear BPB (store (c + sb.bmapstart)).bit

/-- The scan of the bits from `j` on of bitmap block `c`. -/
theorem scanBits_eq {block : Block} {c : Nat} (cached : ∀ k < BSIZE, bmap.cache_buf (c * BSIZE + k) = block.byte k)
    (count j n_alloced : Nat) (first_unalloced : Int) (fits : j + count = BPB) :
    bmap.scanBits count (c * BPB + j) n_alloced first_unalloced =
      (n_alloced + (List.range' j count).countP block.bit,
        if first_unalloced = -1 then firstClear (List.range' j count) block.bit else first_unalloced) := by
  have width : BPB = 32768 := rfl
  induction count generalizing j n_alloced first_unalloced with
  | zero =>
    simp only [BmapCache.scanBits, List.range'_zero, List.countP_nil, Nat.add_zero, firstClear, List.find?_nil]
    by_cases unset : first_unalloced = -1 <;> simp [unset]
  | succ count ih =>
    have bit : bmap.bmapBlockStatueGet (c * BPB + j) = if block.bit j then 1 else 0 := by
      have place : (c * BPB + j) / 8 = c * BSIZE + j / 8 := by
        simp only [BPB, BSIZE]
        omega
      have flag : (c * BPB + j) % 8 = j % 8 := by
        simp only [BPB, BSIZE]
        omega
      rw [bmapBlockStatueGet_eq, place, flag, cached _ (by simp only [BSIZE]; omega), Bytes.bit]
    have index : (c * BPB + j) % BPB = j := by
      rw [width] at fits ⊢
      omega
    rw [BmapCache.scanBits, bit, List.range'_succ, List.countP_cons, firstClear, List.find?_cons]
    have later : j + 1 + count = BPB := by omega
    cases set : block.bit j with
    | true =>
      simp only [if_true, Bool.not_true]
      rw [if_pos (by decide), Nat.add_assoc, ih _ _ _ later, firstClear]
      simp only [Nat.add_assoc, Nat.add_comm 1]
    | false =>
      simp only [Bool.false_eq_true, if_false, Bool.not_false, ne_eq, not_true_eq_false, index, Nat.add_zero]
      rw [Nat.add_assoc, ih _ _ _ later]
      by_cases unset : first_unalloced = -1
      · rw [if_pos unset, if_neg (by omega)]
      · rw [if_neg unset, if_neg unset]

/-- One more bitmap block read and summarized. -/
theorem Filled.summarize {i : Nat} (filled : Filled sb store i bmap) :
    Filled sb store (i + 1)
      { bmap.fill i (store (i + sb.bmapstart)) with
        n_alloced := assign bmap.n_alloced i (countSet BPB (store (i + sb.bmapstart)).bit)
        first_unalloced := assign bmap.first_unalloced i (lowestClear BPB (store (i + sb.bmapstart)).bit) } where
  cached c bound k low := by
    simp only [BmapCache.fill, BSIZE] at low ⊢
    by_cases here : c = i
    · subst here
      rw [if_pos (by omega), Nat.add_sub_cancel_left]
    · rw [if_neg (by omega)]
      exact filled.cached c (by omega) k low
  counted c bound := by
    by_cases here : c = i
    · simp only [here, assign_self]
    · simp only [assign_of_ne here]
      exact filled.counted c (by omega)
  lowest c bound := by
    by_cases here : c = i
    · simp only [here, assign_self]
    · simp only [assign_of_ne here]
      exact filled.lowest c (by omega)

namespace FS
variable {fs : FS}

theorem refreshFrom_spec (same : fs.sb = sb) {count i : Nat} (filled : Filled sb fs.store i fs.bmap) :
    Ensures (refreshFrom sb count i 0) fs
      (fun _ after => ∃ bmap', after = { fs with bmap := bmap' } ∧ Filled sb fs.store (i + count) bmap' ∧
        bmap'.n_cache = fs.bmap.n_cache ∧ bmap'.first_free_cache = fs.bmap.first_free_cache)
      fun _ _ => False := by
  induction count generalizing i fs with
  | zero => exact (ensures_pure ()).mpr ⟨fs.bmap, rfl, filled, rfl, rfl⟩
  | succ count ih =>
    unfold refreshFrom
    have whole : ∀ k < BSIZE, (fs.bmap.fill i (fs.store (i + sb.bmapstart))).cache_buf (i * BSIZE + k) =
        (fs.store (i + sb.bmapstart)).byte k := fun k low => by
      simp only [BSIZE] at low
      have inside : i * BSIZE ≤ i * BSIZE + k ∧ i * BSIZE + k < (i + 1) * BSIZE := by
        simp only [BSIZE]
        omega
      rw [BmapCache.fill]
      simp only [if_pos inside, Nat.add_sub_cancel_left]
    have scan : (fs.bmap.fill i (fs.store (i + sb.bmapstart))).scanBits BPB (i * BPB) 0 (-1) =
        (countSet BPB (fs.store (i + sb.bmapstart)).bit, lowestClear BPB (fs.store (i + sb.bmapstart)).bit) := by
      have scanned := scanBits_eq whole BPB 0 0 (-1) (Nat.zero_add BPB)
      rw [Nat.add_zero, if_pos rfl, Nat.zero_add, ← List.range_eq_range'] at scanned
      exact scanned
    simp only [loggedRead, modifyBmap, ensures_bind, ensures_get, ensures_pure, ensures_modify, scan, ne_eq, not_true_eq_false,
      and_false, if_false]
    generalize updated : ({ fs with bmap := _ } : FS) = current
    have current_sb : current.sb = sb := by rw [← updated]; exact same
    have filled' : Filled sb current.store (i + 1) current.bmap := by
      rw [← updated]
      exact filled.summarize
    refine (ih current_sb filled').weaken fun _ after done => ?_
    obtain ⟨bmap', rfl, whole, n_cache, first_free⟩ := done
    rw [Nat.add_assoc, Nat.add_comm 1] at whole
    rw [← updated] at whole n_cache first_free ⊢
    exact ⟨bmap', rfl, whole, n_cache, first_free⟩

/-- A log between two operations, with nothing listed. -/
structure Idle (log : Fslog) : Prop where
  size : log.size = NLOG
  outstanding : log.outstanding = 0
  committing : log.committing = false
  block : log.block = []

theorem idle_init (sb : Superblock) (size : sb.nlog = NLOG) : Idle (Fslog.init sb.logstart sb.nlog) where
  size := by
    have nlog : (BitVec.ofNat 32 NLOG).toInt = NLOG := by decide
    rw [Fslog.init, size]
    exact nlog
  outstanding := rfl
  committing := rfl
  block := rfl

theorem Idle.admits {log : Fslog} (idle : Idle log) : log.admits = true := by
  simp [Fslog.admits, Fslog.n, idle.outstanding, idle.committing, idle.block, NLOG, MAXOPBLOCKS]

/-- `block_allocator_refresh` reads the summaries off the bitmap; only a log that is not idle can stop it. -/
theorem blockAllocatorRefresh_spec (fs : FS) : Ensures (blockAllocatorRefresh fs.sb) fs
    (fun _ after => after.sb = fs.sb ∧ after.store = fs.store ∧ Summaries fs.sb fs.store after.bmap ∧
      after.bmap.first_free_cache = fs.bmap.first_free_cache ∧ (Idle fs.log → Idle after.log))
    fun _ _ => ¬ Idle fs.log := by
  unfold blockAllocatorRefresh modifyBmap
  rw [ensures_bind, ensures_modify]
  generalize started : ({ fs with bmap := _ } : FS) = current
  have log₀ : current.log = fs.log := by rw [← started]
  have cache₀ : current.bmap.n_cache = fs.sb.nbitmap := by rw [← started]; rfl
  have free₀ : current.bmap.first_free_cache = fs.bmap.first_free_cache := by rw [← started]
  by_cases admits : current.log.admits = true
  · refine Ensures.bind ((beginOp_spec admits).mono (fun _ _ same => same) fun _ _ => False.elim) fun _ after₁ begun => ?_
    have store₁ : after₁.store = fs.store := by rw [begun, ← started]
    have same : after₁.sb = fs.sb := by rw [begun, ← started]
    have empty : Filled fs.sb after₁.store 0 after₁.bmap :=
      ⟨fun _ none => absurd none (Nat.not_lt_zero _), fun _ none => absurd none (Nat.not_lt_zero _),
        fun _ none => absurd none (Nat.not_lt_zero _)⟩
    refine Ensures.bind ((refreshFrom_spec same empty).mono (fun _ _ same => same) fun _ _ => False.elim) ?_
    rintro _ after₂ ⟨bmap', read, filled, n_cache, first_free⟩
    have store₂ : after₂.store = fs.store := by rw [read, store₁]
    have same₂ : after₂.sb = fs.sb := by rw [read, same]
    have log₂ : after₂.log = { fs.log with outstanding := fs.log.outstanding + 1 } := by rw [read, begun, log₀]
    have free₂ : after₂.bmap.first_free_cache = fs.bmap.first_free_cache := by rw [read, first_free, begun, free₀]
    have summaries : Summaries fs.sb fs.store after₂.bmap := by
      rw [store₁, Nat.zero_add] at filled
      rw [read]
      exact ⟨by rw [n_cache, begun, cache₀], filled.cached, filled.counted, filled.lowest⟩
    have outstanding : after₂.log.outstanding = fs.log.outstanding + 1 := by rw [log₂]
    by_cases alone : after₂.log.committing = false
    · refine (endOp_spec alone).mono ?_ fun _ _ => False.elim
      rintro _ after rfl
      split
      next =>
        refine ⟨same₂, store₂, summaries, free₂, fun idle => ⟨?_, ?_, alone, rfl⟩⟩
        · show after₂.log.size = NLOG
          rw [log₂]
          exact idle.size
        · show after₂.log.outstanding - 1 = 0
          rw [outstanding, idle.outstanding]
          rfl
      next more =>
        refine ⟨same₂, store₂, summaries, free₂, fun idle => absurd ?_ more⟩
        rw [outstanding, idle.outstanding]
        rfl
    · unfold endOp
      have committing : after₂.log.committing = true := by simpa using alone
      rw [ensures_bind, ensures_modify, ensures_bind, ensures_get]
      simp only [committing, if_true, ensures_stop]
      intro idle
      rw [log₂] at committing
      cases committing.symm.trans idle.committing
  · unfold beginOp
    rw [ensures_bind, ensures_bind, ensures_get]
    simp only [if_neg admits, ensures_stop]
    exact fun idle => admits (log₀ ▸ idle.admits)

/-- The state after mounting. -/
theorem inodeInit_spec (idle : Idle fs.log) :
    Ensures (inodeInit fs.sb) fs
      (fun _ after => after.sb = fs.sb ∧ after.store = fs.store ∧ Idle after.log ∧
        Summaries fs.sb fs.store after.bmap ∧ after.bmap.first_free_cache = 0)
      fun _ _ => False := by
  unfold inodeInit
  rw [ensures_bind, ensures_modify]
  have refreshed := blockAllocatorRefresh_spec { fs with ninode := NINODE_INIT, inode := fun _ => Inode.zero, bmap := BmapCache.zero }
  refine refreshed.mono ?_ fun _ _ stopped => stopped idle
  rintro _ after ⟨sb, store, summaries, first_free, kept⟩
  exact ⟨sb, store, kept idle, summaries, first_free⟩

/-- A log with at most three blocks has room. -/
theorem notFull_of_few {log : Fslog} (size : log.size = NLOG) (few : log.n ≤ 3) : log.tooBig = false := by
  simp only [Fslog.tooBig, size, Bool.or_eq_false_iff, decide_eq_false_iff_not, NLOG, MAXOPBLOCKS]
  omega

/-- A freshly opened operation gets a block when two bits are clear. -/
theorem firstAlloc_spec (idle : Idle fs.log) (uint : fs.sb.size < 2 ^ 32) (summaries : Summaries fs.sb fs.store fs.bmap)
    (free : FirstFree fs.sb fs.store fs.bmap)
    (two : ∀ last, ∃ blockno < fs.sb.nbitmap * BPB, bitOf fs.sb fs.store blockno = false ∧ blockno ≠ last) :
    Ensures (do beginOp; blockAlloc) fs
      (fun blockno _ => blockno < fs.sb.nbitmap * BPB ∧ bitOf fs.sb fs.store blockno = false) fun _ _ => False := by
  refine Ensures.bind (beginOp_spec idle.admits) fun _ begun begunIs => ?_
  have sb : begun.sb = fs.sb := by rw [begunIs]
  have store : begun.store = fs.store := by rw [begunIs]
  have bmap : begun.bmap = fs.bmap := by rw [begunIs]
  have inOp : 1 ≤ begun.log.outstanding := by
    rw [begunIs]
    simp [idle.outstanding]
  have fresh : begun.n_log_wrote = 0 ∧ begun.log.n = 0 := by
    rw [begunIs]
    simp [Fslog.n, idle.block]
  have size : begun.log.size = NLOG := by
    rw [begunIs]
    exact idle.size
  rw [← sb, ← store, ← bmap] at summaries free
  rw [← sb] at uint
  have alloc := (blockAlloc_spec inOp summaries free (nbitmap_bits uint)).and (blockAlloc_uses begun)
  refine alloc.mono (fun blockno after both => ?_) fun reason after both => ?_
  · rw [← sb, ← store]
    exact ⟨both.1.inside, both.1.clear⟩
  · obtain ⟨⟨_, last, only⟩ | ⟨_, full⟩, used⟩ := both
    · obtain ⟨blockno, inside, clear, apart⟩ := two last
      rw [← sb] at inside
      rw [← sb, ← store] at clear
      exact apart (only blockno inside clear)
    · have high := used.high
      have listed := used.listed
      rw [fresh.1, Nat.zero_add] at high
      rw [fresh.1, fresh.2] at listed
      have room := notFull_of_few (used.size.trans size) (by omega)
      rw [room] at full
      cases full

/-- What a mount owes the allocator. -/
structure MountedRight (fs : FS) : Prop where
  summaries : Summaries fs.sb fs.store fs.bmap
  firstFree : ∀ blockno < fs.sb.nbitmap * BPB, bitOf fs.sb fs.store blockno = false → FirstFree fs.sb fs.store fs.bmap
  nextAlloc : (∀ last, ∃ blockno < fs.sb.nbitmap * BPB, bitOf fs.sb fs.store blockno = false ∧ blockno ≠ last) →
    Ensures (do beginOp; blockAlloc) fs
      (fun blockno _ => blockno < fs.sb.size ∧ bitOf fs.sb fs.store blockno = false) fun _ _ => False

/-- The bits past the end of the disk are set. -/
def PastEndSet (sb : Superblock) (store : Nat → Block) : Prop :=
  ∀ blockno < sb.nbitmap * BPB, sb.size ≤ blockno → bitOf sb store blockno = true

/-- The first bitmap block has a clear bit, or none has. -/
def FirstBlockServes (sb : Superblock) (disk : Nat → Block) : Prop :=
  (∃ j < BPB, (disk sb.bmapstart).bit j = false) ∨ ∀ blockno < sb.nbitmap * BPB, bitOf sb disk blockno = true

theorem firstFree_zero_iff (nonempty : 0 < fs.sb.nbitmap) (zero : fs.bmap.first_free_cache = 0) :
    FirstFree fs.sb fs.store fs.bmap ↔ ∃ j < BPB, (fs.store fs.sb.bmapstart).bit j = false := by
  rw [FirstFree, zero, Nat.zero_add, ne_eq, lowestClear_eq_neg_one]
  simp [nonempty]

theorem mountedRight_iff (idle : Idle fs.log) (uint : fs.sb.size < 2 ^ 32)
    (summaries : Summaries fs.sb fs.store fs.bmap) (zero : fs.bmap.first_free_cache = 0)
    (pastEnd : PastEndSet fs.sb fs.store) : MountedRight fs ↔ FirstBlockServes fs.sb fs.store := by
  constructor
  · intro right
    by_cases someClear : ∃ blockno < fs.sb.nbitmap * BPB, bitOf fs.sb fs.store blockno = false
    · obtain ⟨blockno, inside, clear⟩ := someClear
      have nonempty : 0 < fs.sb.nbitmap := Nat.pos_of_mul_pos_right (Nat.zero_lt_of_lt inside)
      exact .inl ((firstFree_zero_iff nonempty zero).mp (right.firstFree blockno inside clear))
    · refine .inr fun blockno inside => ?_
      by_contra notSet
      exact someClear ⟨blockno, inside, by simpa using notSet⟩
  · intro serves
    have free : ∀ blockno < fs.sb.nbitmap * BPB, bitOf fs.sb fs.store blockno = false →
        FirstFree fs.sb fs.store fs.bmap := by
      intro blockno inside clear
      have nonempty : 0 < fs.sb.nbitmap := Nat.pos_of_mul_pos_right (Nat.zero_lt_of_lt inside)
      refine (firstFree_zero_iff nonempty zero).mpr (serves.resolve_right fun full => ?_)
      rw [full blockno inside] at clear
      cases clear
    refine ⟨summaries, free, fun two => ?_⟩
    obtain ⟨blockno, inside, clear, _⟩ := two 0
    refine (firstAlloc_spec idle uint summaries (free blockno inside clear) two).weaken fun victim _ ⟨inside, clear⟩ => ⟨?_, clear⟩
    by_contra past
    rw [pastEnd victim inside (Nat.not_lt.mp past)] at clear
    cases clear

theorem boot_idle (sb : Superblock) (disk : Nat → Block) (clock : Nat → Timespec) (size : sb.nlog = NLOG) :
    Idle (boot sb disk clock).log := by
  rw [boot_log]
  exact idle_init sb size

/-- `first_free_cache` stays 0, so mounting is right exactly when bitmap block 0 serves. -/
theorem mount_right_iff {sb : Superblock} {disk : Nat → Block} (clock : Nat → Timespec) (uint : sb.size < 2 ^ 32)
    (size : sb.nlog = NLOG) (pastEnd : PastEndSet sb disk) :
    Ensures (inodeInit sb) (boot sb disk clock)
      (fun _ mounted => Summaries mounted.sb mounted.store mounted.bmap ∧ mounted.sb = sb ∧ mounted.store = disk ∧
        (MountedRight mounted ↔ FirstBlockServes sb disk))
      fun _ _ => False := by
  have mounts := inodeInit_spec (boot_idle sb disk clock size)
  rw [boot_sb, boot_store] at mounts
  refine mounts.weaken ?_
  rintro _ mounted ⟨sameSb, sameStore, idle, summaries, zero⟩
  rw [← sameSb, ← sameStore] at summaries
  subst sameSb sameStore
  exact ⟨summaries, rfl, rfl, mountedRight_iff idle uint summaries zero pastEnd⟩

/-- A bitmap of two blocks: the first is full, the bits past the end of the disk are set. -/
def fullFirstBlock : Nat → Block := fun blockno =>
  Bytes.ofFn fun byte => if blockno = (initSuperBlock 40000).bmapstart + 1 ∧ byte < 904 then 0 else 0xff

theorem fullFirstBlock_pastEnd : PastEndSet (initSuperBlock 40000) fullFirstBlock := by
  intro blockno inside past
  have size : (initSuperBlock 40000).size = 40000 := rfl
  have bitmap : (initSuperBlock 40000).nbitmap = 2 := by decide
  rw [size] at past
  rw [bitmap] at inside
  simp only [BPB, BSIZE] at inside
  refine Bytes.bit_ones ?_
  rw [fullFirstBlock, Bytes.byte_ofFn _ (by simp only [BPB, BSIZE]; omega), if_neg]
  simp only [BPB, BSIZE]
  omega

theorem mount_right_iff_full : Ensures (inodeInit (initSuperBlock 40000))
    (boot (initSuperBlock 40000) fullFirstBlock fun _ => ⟨0, 0⟩)
    (fun _ mounted => Summaries mounted.sb mounted.store mounted.bmap ∧ mounted.sb = initSuperBlock 40000 ∧
      mounted.store = fullFirstBlock ∧ (MountedRight mounted ↔ FirstBlockServes (initSuperBlock 40000) fullFirstBlock))
    fun _ _ => False :=
  mount_right_iff _ (by decide) rfl fullFirstBlock_pastEnd

/-- Mounting a disk whose first bitmap block is full leaves an allocator that cannot serve. -/
theorem mount_not_right : ∃ sb disk clock, sb.size < 2 ^ 32 ∧ sb.nlog = NLOG ∧ PastEndSet sb disk ∧
    ¬ Ensures (inodeInit sb) (boot sb disk clock) (fun _ mounted => MountedRight mounted) fun _ _ => False := by
  refine ⟨initSuperBlock 40000, fullFirstBlock, fun _ => ⟨0, 0⟩, by decide, rfl, fullFirstBlock_pastEnd, fun right => ?_⟩
  have mounts := inodeInit_spec (boot_idle (initSuperBlock 40000) fullFirstBlock (fun _ => ⟨0, 0⟩) rfl)
  rw [boot_sb, boot_store] at mounts
  rcases (mounts.and right).possible with ⟨_, mounted, ⟨sameSb, sameStore, idle, summaries, zero⟩, isRight⟩ | ⟨_, _, none, _⟩
  · have bitmap : (initSuperBlock 40000).nbitmap = 2 := by decide
    rw [← sameSb, ← sameStore] at summaries
    have serves := (mountedRight_iff idle (by rw [sameSb]; decide) summaries zero
      (by rw [sameSb, sameStore]; exact fullFirstBlock_pastEnd)).mp isRight
    rw [sameSb, sameStore] at serves
    rcases serves with ⟨j, low, clear⟩ | full
    · simp only [BPB, BSIZE] at low
      rw [Bytes.bit_ones] at clear
      · cases clear
      · rw [fullFirstBlock, Bytes.byte_ofFn _ (by simp only [BSIZE]; omega), if_neg (by omega)]
    · have set := full 32768 (by rw [bitmap]; decide)
      have clear : bitOf (initSuperBlock 40000) fullFirstBlock 32768 = false := by
        refine Bytes.bit_zeros ?_
        rw [fullFirstBlock, Bytes.byte_ofFn _ (by decide), if_pos]
        exact ⟨by simp only [Superblock.bblock, BPB, BSIZE]; omega, by decide⟩
      rw [clear] at set
      cases set
  · exact none

end FS
end Myfuse
