import Mathlib.Order.Interval.Finset.Nat
import Myfuse.Proofs.AllocatorBlind
import Myfuse.Proofs.AllocatorRuns

/-! The end of the free space. `block_alloc` marks the last clear bit before it
notices that none is left, so the last free block is taken and never returned. -/

namespace Myfuse
open Library Library.Exec

namespace FS
variable {α β : Type} {fs middle after : FS} {blockno : Nat} {results : List Nat}

def onStore (fs : FS) (store : Nat → Block) : FS := { fs with store }

/-- The contents of the blocks decide neither the result nor the rest of the state. -/
def StoreBlind (program : M α) : Prop :=
  ∀ fs store, ∃ store', program (fs.onStore store) = ((program fs).1, (program fs).2.onStore store')

/-- The states may differ in every block. -/
theorem blocks_outside : OutsideAllocator fun fs fs' => ∃ store, fs' = fs.onStore store where
  sb := by rintro fs _ ⟨store, rfl⟩; rfl
  bmap := by rintro fs _ ⟨store, rfl⟩; rfl
  log := by rintro fs _ ⟨store, rfl⟩; rfl
  setBmap := by rintro fs _ bmap ⟨store, rfl⟩; exact ⟨store, rfl⟩
  noted := by rintro fs _ event ⟨store, rfl⟩; exact ⟨store, rfl⟩
  absorbed := by rintro fs _ blockno ⟨store, rfl⟩; exact ⟨store, rfl⟩
  written := by rintro fs _ blockno change ⟨store, rfl⟩; exact ⟨assign store blockno (change (store blockno)), rfl⟩

theorem blockAlloc_storeBlind : StoreBlind blockAlloc := by
  intro fs store
  have alike := blockAlloc_blind blocks_outside fs (fs.onStore store) ⟨store, rfl⟩
  obtain ⟨store', after⟩ := alike.after
  exact ⟨store', Prod.ext alike.result after⟩

/-- The blocks whose bit is clear. -/
def freeBlocks (sb : Superblock) (store : Nat → Block) : Finset Nat :=
  (Finset.range (sb.nbitmap * BPB)).filter fun blockno => bitOf sb store blockno = false

/-- Returned calls, with what the `block_alloc` calls returned, newest first. -/
inductive Allocs (fs : FS) : List Nat → FS → Prop
  | start : Allocs fs [] fs
  | beginOp {results : List Nat} {middle after : FS} : Allocs fs results middle → beginOp middle = (.ok (), after) → Allocs fs results after
  | endOp {results : List Nat} {middle after : FS} : Allocs fs results middle → endOp middle = (.ok (), after) → Allocs fs results after
  | alloc {results : List Nat} {middle after : FS} {blockno : Nat} : Allocs fs results middle → blockAlloc middle = (.ok blockno, after) →
      Allocs fs (blockno :: results) after

/-- As many calls of `block_alloc` as there are clear bits return, with exactly the free blocks. -/
def AllAllocated (fs : FS) : Prop :=
  ∃ results after, Allocs fs results after ∧ results.Nodup ∧ results.toFinset = freeBlocks fs.sb fs.store

/-- `shadow` holds the bitmap that the allocator has in mind: also a bitmap block that was handed out and cleared. -/
structure Remaining (fs : FS) (results : List Nat) (after : FS) (shadow : Nat → Block) : Prop where
  sb : after.sb = fs.sb
  summaries : Summaries fs.sb shadow after.bmap
  free : FirstFree fs.sb shadow after.bmap
  distinct : results.Nodup
  left : freeBlocks fs.sb shadow = freeBlocks fs.sb fs.store \ results.toFinset
  wereFree : ∀ blockno ∈ results, blockno ∈ freeBlocks fs.sb fs.store

theorem mem_freeBlocks {sb : Superblock} {store : Nat → Block} :
    blockno ∈ freeBlocks sb store ↔ blockno < sb.nbitmap * BPB ∧ bitOf sb store blockno = false := by
  rw [freeBlocks, Finset.mem_filter, Finset.mem_range]

theorem FirstFree.some_free {sb : Superblock} {store : Nat → Block} {bmap : BmapCache} (free : FirstFree sb store bmap) :
    (freeBlocks sb store).Nonempty := by
  obtain ⟨inside, some⟩ := free
  obtain ⟨index, low, -, clear⟩ := (lowestClear_cases BPB (store (bmap.first_free_cache + sb.bmapstart)).bit).resolve_left some
  refine ⟨index + bmap.first_free_cache * BPB, mem_freeBlocks.mpr ⟨?_, ?_⟩⟩
  · simp only [BPB, BSIZE] at low ⊢
    omega
  · rw [bitOf, Superblock.bblock, Nat.add_mul_div_right _ _ (Nat.zero_lt_of_lt low), Nat.div_eq_of_lt low, Nat.zero_add,
      Nat.add_mul_mod_self_right, Nat.mod_eq_of_lt low]
    exact clear

/-- What is left is never nothing. -/
theorem Remaining.length_lt {shadow : Nat → Block} (remaining : Remaining fs results after shadow) :
    results.length < (freeBlocks fs.sb fs.store).card := by
  have some := FirstFree.some_free remaining.free
  rw [remaining.left] at some
  obtain ⟨blockno, member⟩ := some
  obtain ⟨wasFree, kept⟩ := Finset.mem_sdiff.mp member
  rw [← List.toFinset_card_of_nodup remaining.distinct]
  apply Finset.card_lt_card
  refine Finset.ssubset_iff_subset_ne.mpr ⟨fun other taken => ?_, fun same => kept (same ▸ wasFree)⟩
  exact remaining.wereFree other (List.mem_toFinset.mp taken)

theorem Remaining.alloc {shadow : Nat → Block} (uint : fs.sb.size < 2 ^ 32) (remaining : Remaining fs results middle shadow)
    (returned : blockAlloc middle = (.ok blockno, after)) :
    Remaining fs (blockno :: results) after (setBitOf fs.sb shadow blockno true) := by
  obtain ⟨store', seen⟩ := blockAlloc_storeBlind middle shadow
  rw [returned] at seen
  have same : (middle.onStore shadow).sb = fs.sb := remaining.sb
  have spec : Ensures blockAlloc (middle.onStore shadow) (Allocated (middle.onStore shadow)) _ :=
    blockAlloc_spec (blockAlloc_inOp seen) (same ▸ remaining.summaries) (same ▸ remaining.free) (same ▸ nbitmap_bits uint)
  obtain ⟨inside, clear, bmap, afterIs, summaries, free⟩ := spec.returned seen
  rw [same] at inside clear summaries free afterIs
  have bmapIs : after.bmap = bmap := congrArg FS.bmap afterIs
  have sbIs : after.sb = fs.sb := by
    have sb := congrArg FS.sb afterIs
    exact sb
  have member : blockno ∈ freeBlocks fs.sb fs.store \ results.toFinset := remaining.left ▸ mem_freeBlocks.mpr ⟨inside, clear⟩
  obtain ⟨wasFree, fresh⟩ := Finset.mem_sdiff.mp member
  refine ⟨sbIs, bmapIs ▸ summaries, bmapIs ▸ free, List.nodup_cons.mpr ⟨fun again => fresh (List.mem_toFinset.mpr again), remaining.distinct⟩,
    ?_, ?_⟩
  · ext other
    have before : other ∈ freeBlocks fs.sb shadow ↔ other ∈ freeBlocks fs.sb fs.store \ results.toFinset := by rw [remaining.left]
    rw [mem_freeBlocks, Finset.mem_sdiff] at before
    rw [mem_freeBlocks, bitOf_setBitOf, Finset.mem_sdiff, List.toFinset_cons, Finset.mem_insert]
    by_cases same : other = blockno
    · simp [same]
    · rw [if_neg same, before]
      simp [same]
  · intro other taken
    cases List.mem_cons.mp taken with
    | inl same => exact same ▸ wasFree
    | inr older => exact remaining.wereFree other older

theorem Allocs.remaining (represents : fs.Represents) (run : Allocs fs results after) : ∃ shadow, Remaining fs results after shadow := by
  induction run with
  | start => exact ⟨fs.store, rfl, represents.summaries, represents.free, List.nodup_nil, by simp, by simp⟩
  | beginOp _ returned ih =>
    obtain ⟨shadow, remaining⟩ := ih
    obtain ⟨same, -⟩ := (beginOp_moves _).returned returned
    exact ⟨shadow, same.sb.trans remaining.sb, same.bmap ▸ remaining.summaries, same.bmap ▸ remaining.free, remaining.distinct,
      remaining.left, remaining.wereFree⟩
  | endOp _ returned ih =>
    obtain ⟨shadow, remaining⟩ := ih
    obtain ⟨same, -⟩ := (endOp_moves _).returned returned
    exact ⟨shadow, same.sb.trans remaining.sb, same.bmap ▸ remaining.summaries, same.bmap ▸ remaining.free, remaining.distinct,
      remaining.left, remaining.wereFree⟩
  | alloc _ returned ih =>
    obtain ⟨shadow, remaining⟩ := ih
    exact ⟨_, remaining.alloc represents.uint returned⟩

/-- The calls that return give distinct free blocks, and never all of them. -/
theorem last_block_kept_back (represents : fs.Represents) :
    ¬ AllAllocated fs ∧ ∀ results after, Allocs fs results after →
      results.Nodup ∧ (∀ blockno ∈ results, blockno ∈ freeBlocks fs.sb fs.store) ∧
        results.length < (freeBlocks fs.sb fs.store).card := by
  refine ⟨?_, fun results after run => ?_⟩
  · rintro ⟨results, after, run, distinct, all⟩
    obtain ⟨shadow, remaining⟩ := run.remaining represents
    have short := remaining.length_lt
    rw [← all, List.toFinset_card_of_nodup distinct] at short
    exact Nat.lt_irrefl _ short
  · obtain ⟨shadow, remaining⟩ := run.remaining represents
    exact ⟨remaining.distinct, remaining.wereFree, remaining.length_lt⟩

theorem rangeFree_freeBlocks {sb : Superblock} {lo hi : Nat} (one : sb.nbitmap = 1) (small : hi ≤ BPB) :
    freeBlocks (rangeFree sb lo hi).sb (rangeFree sb lo hi).store = Finset.Ico lo hi := by
  ext blockno
  have width : (rangeFree sb lo hi).sb.nbitmap * BPB = BPB := by
    rw [show (rangeFree sb lo hi).sb.nbitmap = 1 from one, Nat.one_mul]
  rw [mem_freeBlocks, Finset.mem_Ico, width]
  constructor
  · rintro ⟨inside, clear⟩
    rw [rangeFree_bitOf inside, rangeBits, decide_eq_false_iff_not] at clear
    omega
  · intro within
    have inside : blockno < BPB := Nat.lt_of_lt_of_le within.2 small
    rw [rangeFree_bitOf inside, rangeBits, decide_eq_false_iff_not]
    omega

/-- Two clear bits are left on this disk, and only one of them is handed out. -/
theorem two_left_one_allocated : ∃ fs : FS, (freeBlocks fs.sb fs.store).card = 2 ∧ ¬ AllAllocated fs := by
  have represents : (rangeFree (initSuperBlock 2000) 1998 2000).Represents :=
    rangeFree_represents (by decide) (by decide) (by decide) (by decide)
  refine ⟨_, ?_, (last_block_kept_back represents).1⟩
  rw [rangeFree_freeBlocks (by decide) (by decide), Nat.card_Ico]

/-- With one clear bit left the next call is the fatal one. -/
theorem last_block_exits : ∃ fs after : FS, fs.Represents ∧ (freeBlocks fs.sb fs.store).card = 1 ∧
    blockAlloc fs = (.error (.errExit .noFreeSpace), after) := by
  refine ⟨rangeFree (initSuperBlock 2000) 1999 2000, (blockAlloc (rangeFree (initSuperBlock 2000) 1999 2000)).2, ?_, ?_, ?_⟩
  · exact rangeFree_represents (by decide) (by decide) (by decide) (by decide)
  · rw [rangeFree_freeBlocks (by decide) (by decide), Nat.card_Ico]
  · have stopped : (blockAlloc (rangeFree (initSuperBlock 2000) 1999 2000)).1 = .error (.errExit .noFreeSpace) := by decide +kernel
    exact Prod.ext stopped rfl

end FS
end Myfuse
