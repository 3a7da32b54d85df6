import Mathlib.Order.Interval.Finset.Nat
import Myfuse.File
import Myfuse.Mkfs
import Myfuse.Proofs.AllocatorRuns

/-! Free-space accounting from mkfs on: a bit is set for a meta block, past the end
of the disk, or for a block that is handed out, and statfs counts the others. -/

namespace Myfuse
open Library Library.Exec

/-- The meta blocks that mkfs counts before it subtracts them. -/
def metaBlocks (disk_size : Nat) : Nat := 2 + NLOG + (disk_size / 50 + 1) + ROUNDUP disk_size BPB / BPB

section
variable {disk_size : Nat} (data : metaBlocks disk_size < disk_size) (small : disk_size < 2 ^ 30)
include data small

theorem initSuperBlock_nblocks : (initSuperBlock disk_size).nblocks = disk_size - metaBlocks disk_size := by
  have fits : metaBlocks disk_size ≤ disk_size := Nat.le_of_lt data
  exact uint_sub fits (by omega)

theorem initSuperBlock_nmeta : (initSuperBlock disk_size).nmeta = metaBlocks disk_size := by
  have size : (initSuperBlock disk_size).size = disk_size := rfl
  rw [Superblock.nmeta, initSuperBlock_nblocks data small, size]
  omega

theorem bitmap_in_meta {blockno : Nat} (bitmap : (initSuperBlock disk_size).InBitmap blockno) : blockno < (initSuperBlock disk_size).nmeta := by
  have last : blockno < (initSuperBlock disk_size).bmapstart + (initSuperBlock disk_size).nbitmap := bitmap.2
  rw [initSuperBlock_nmeta data small]
  exact last

end

theorem size_le_bits (sb : Superblock) : sb.size ≤ sb.nbitmap * BPB := by
  rw [nbitmap_eq]
  simp only [BPB, BSIZE]
  omega

namespace FS
variable {fs middle after : FS} {blockno : Nat} {sb : Superblock}

/-- One logged block in an operation of its own, on an idle log. -/
theorem Idle.wraps {program : M Unit} (idle : Idle fs.log) (uses : UsesLog 1 program) (ok : FS → Prop)
    (spec : ∀ begun : FS, begun.log.outstanding = 1 → begun.sb = fs.sb → begun.store = fs.store → begun.bmap = fs.bmap →
      Ensures program begun (fun _ => ok) LogFull) :
    Ensures (do beginOp; program; endOp) fs (fun _ after => ∃ done, ok done ∧ Unmoved done after ∧ Idle after.log) fun _ _ => False := by
  refine Ensures.bind (beginOp_spec idle.admits) ?_
  intro _ begun begunIs
  have outstanding : begun.log.outstanding = 1 := by
    rw [begunIs]
    simp [idle.outstanding]
  have size : begun.log.size = NLOG := by
    rw [begunIs]
    exact idle.size
  have committing : begun.log.committing = false := by
    rw [begunIs]
    exact idle.committing
  have start : begun.n_log_wrote = 0 ∧ begun.log.n = 0 := by
    rw [begunIs]
    simp [Fslog.n, idle.block]
  have body := spec begun outstanding (by rw [begunIs]) (by rw [begunIs]) (by rw [begunIs])
  refine Ensures.bind ((body.and (uses begun)).mono (fun _ _ both => both) ?_) ?_
  · rintro reason stopped ⟨⟨-, full⟩, used⟩
    have listed := used.listed
    have high := used.high
    rw [start.1] at listed high
    rw [start.2] at listed
    rw [notFull_of_few (used.size.trans size) (by omega)] at full
    cases full
  · rintro _ done ⟨holds, used, -⟩
    refine (endOp_spec (used.committing.trans committing)).weaken ?_
    rintro _ after rfl
    rw [if_pos (used.outstanding.trans outstanding)]
    refine ⟨done, holds, ⟨rfl, rfl, rfl, rfl, rfl⟩, used.size.trans size, ?_, used.committing.trans committing, rfl⟩
    show done.log.outstanding - 1 = 0
    rw [used.outstanding, outstanding]
    rfl

/-- The bitmap while mkfs works on it: its set bits are those of `set`. -/
structure Marking (sb : Superblock) (set : Nat → Prop) (fs : FS) : Prop where
  layout : fs.sb = sb
  idle : Idle fs.log
  n_cache : fs.bmap.n_cache = sb.nbitmap
  cached : Cached sb fs.store fs.bmap
  bits : ∀ blockno < sb.nbitmap * BPB, bitOf sb fs.store blockno = true ↔ set blockno

theorem Marking.congr {set set' : Nat → Prop} (marking : Marking sb set fs) (same : ∀ blockno < sb.nbitmap * BPB, set' blockno ↔ set blockno) :
    Marking sb set' fs :=
  { marking with bits := fun blockno inside => (marking.bits blockno inside).trans (same blockno inside).symm }

theorem initMetaBlock_spec {set : Nat → Prop} (marking : Marking sb set fs) (inside : blockno < sb.nbitmap * BPB) :
    Ensures (initMetaBlock blockno) fs (fun _ => Marking sb (fun other => other = blockno ∨ set other)) fun _ _ => False := by
  obtain ⟨rfl, idle, n_cache, cached, bits⟩ := marking
  have wrapped := Idle.wraps idle (bmapBlockStatueSet_uses blockno 1) (fun done => done.sb = fs.sb ∧
    done.store = setBitOf fs.sb fs.store blockno true ∧ done.bmap = setCached fs.bmap blockno true) fun begun inOp sb store bmap => by
      have spec := bmapBlockStatueSet_spec (Int.le_of_eq inOp.symm) (by rw [bmap, sb]; exact n_cache) (by rw [bmap, sb, store]; exact cached)
        (by rw [sb]; exact inside) 1
      refine spec.weaken ?_
      rintro _ done ⟨-, rfl⟩
      exact ⟨sb, by rw [← sb, ← store]; rfl, by rw [← bmap]; rfl⟩
  refine wrapped.weaken ?_
  rintro _ after ⟨done, ⟨sb, store, bmap⟩, same, idle'⟩
  have storeIs : after.store = setBitOf fs.sb fs.store blockno true := same.store.trans store
  have bmapIs : after.bmap = setCached fs.bmap blockno true := same.bmap.trans bmap
  refine ⟨same.sb.trans sb, idle', by rw [bmapIs]; exact n_cache, by rw [storeIs, bmapIs]; exact cached_set cached blockno true, ?_⟩
  intro other covered
  rw [storeIs, bitOf_setBitOf]
  by_cases here : other = blockno
  · simp [here]
  · simp only [here, false_or]
    exact bits other covered

theorem initMetaBlocksBmap_spec (marking : Marking sb (fun _ => False) fs) (data : sb.nblocks ≤ sb.size) (uint : sb.size < 2 ^ 32) :
    Ensures initMetaBlocksBmap fs (fun _ => Marking sb fun blockno => blockno < sb.nmeta ∨ sb.size ≤ blockno) fun _ _ => False := by
  have covered := size_le_bits sb
  have rounded : ROUNDUP sb.size BPB = sb.nbitmap * BPB := by
    rw [Superblock.nbitmap, ROUNDUP, Nat.mul_div_cancel _ (by decide)]
  have nmeta : (sb.size + 2 ^ 32 - sb.nblocks) % 2 ^ 32 = sb.nmeta := uint_sub data uint
  have low : sb.nmeta ≤ sb.size := Nat.sub_le _ _
  unfold initMetaBlocksBmap
  rw [ensures_bind, ensures_get]
  simp only [marking.layout, nmeta, rounded]
  refine Ensures.bind (Ensures.forRange (fun i => Marking sb fun blockno => blockno < i) ?_ ?_) ?_
  · exact marking.congr fun blockno _ => iff_of_false (Nat.not_lt_zero blockno) id
  · intro i current _ below reached
    refine (initMetaBlock_spec reached (by omega)).weaken fun _ after marked => ?_
    exact marked.congr fun blockno _ => by omega
  · intro _ middle reached
    refine (Ensures.forRange (fun i => Marking sb fun blockno => blockno < sb.nmeta ∨ sb.size ≤ blockno ∧ blockno < i) ?_ ?_).weaken ?_
    · exact reached.congr fun blockno _ => by omega
    · intro i current above below reached
      refine (initMetaBlock_spec reached (by omega)).weaken fun _ after marked => ?_
      exact marked.congr fun blockno _ => by omega
    · intro _ after reached
      exact reached.congr fun blockno inside => by omega

/-- The first `count` bitmap blocks are zeroed. -/
structure Zeroed (sb : Superblock) (count : Nat) (fs : FS) : Prop where
  layout : fs.sb = sb
  idle : Idle fs.log
  zero : ∀ c < count, fs.store (sb.bmapstart + c) = Bytes.zero

theorem zeroBitmapBlock_spec {i : Nat} (zeroed : Zeroed sb i fs) :
    Ensures (zeroBitmapBlock i) fs (fun _ => Zeroed sb (i + 1)) fun _ _ => False := by
  obtain ⟨rfl, idle, zero⟩ := zeroed
  unfold zeroBitmapBlock
  rw [ensures_bind, ensures_get]
  have wrapped := Idle.wraps idle (loggedUpdate_uses (fs.sb.bmapstart + i) fun _ => Bytes.zero) (fun done => done.sb = fs.sb ∧
    done.store = assign fs.store (fs.sb.bmapstart + i) Bytes.zero) fun begun inOp sb store _ => by
      refine (loggedUpdate_spec (Int.le_of_eq inOp.symm) _ _).weaken ?_
      rintro _ done ⟨-, rfl⟩
      exact ⟨sb, by rw [← store]; rfl⟩
  refine wrapped.weaken ?_
  rintro _ after ⟨done, ⟨sb, store⟩, same, idle'⟩
  refine ⟨same.sb.trans sb, idle', fun c below => ?_⟩
  rw [same.store, store, assign_apply]
  split
  next => rfl
  next apart => exact zero c (by omega)

theorem mkfsBitmap_spec (idle : Idle fs.log) (data : fs.sb.nblocks ≤ fs.sb.size) (uint : fs.sb.size < 2 ^ 32) :
    Ensures mkfsBitmap fs
      (fun _ image => image.sb = fs.sb ∧ Summaries fs.sb image.store image.bmap ∧
        ∀ blockno < fs.sb.nbitmap * BPB, bitOf fs.sb image.store blockno = true ↔ blockno < fs.sb.nmeta ∨ fs.sb.size ≤ blockno)
      fun _ _ => False := by
  unfold mkfsBitmap
  rw [ensures_bind, ensures_get]
  refine Ensures.bind (inodeInit_spec idle) ?_
  rintro _ mounted ⟨sb₁, -, idle₁, -⟩
  have zeroes : Ensures (forRange 0 fs.sb.nbitmap zeroBitmapBlock) mounted (fun _ => Zeroed fs.sb (0 + fs.sb.nbitmap)) fun _ _ => False := by
    apply Ensures.forRange
    · exact ⟨sb₁, idle₁, fun c none => absurd none (Nat.not_lt_zero c)⟩
    · intro i current _ _ zeroed
      exact zeroBitmapBlock_spec zeroed
  refine Ensures.bind zeroes ?_
  rintro _ zeroed ⟨sb₂, idle₂, zero⟩
  have refreshed := blockAllocatorRefresh_spec zeroed
  rw [sb₂] at refreshed
  refine Ensures.bind (refreshed.mono (fun _ _ same => same) fun _ _ stopped => stopped idle₂) ?_
  rintro _ empty ⟨sb₃, store₃, summaries, -, kept⟩
  have marking : Marking fs.sb (fun _ => False) empty := by
    rw [← store₃] at summaries
    refine ⟨sb₃, kept idle₂, summaries.n_cache, summaries.cached, fun blockno inside => ?_⟩
    have small : blockno / BPB < 0 + fs.sb.nbitmap := by
      simp only [BPB, BSIZE] at inside ⊢
      omega
    rw [bitOf, Superblock.bblock, store₃, Nat.add_comm, zero _ small, Bytes.bit_zeros (Bytes.byte_zero _)]
    simp
  refine Ensures.bind (initMetaBlocksBmap_spec marking data uint) ?_
  rintro _ marked ⟨sb₄, idle₄, -, -, bits⟩
  have last := blockAllocatorRefresh_spec marked
  rw [sb₄] at last
  refine last.mono ?_ fun _ _ stopped => stopped idle₄
  rintro _ image ⟨sb₅, store₅, summaries', -, -⟩
  rw [← store₅] at summaries' bits
  exact ⟨sb₅, summaries', bits⟩

/-- Calls after mkfs that return, with the blocks that are handed out and not freed. -/
inductive AccountRun (image : FS) : Finset Nat → FS → Prop
  | start : AccountRun image ∅ image
  | beginOp {out : Finset Nat} {middle after : FS} : AccountRun image out middle → beginOp middle = (.ok (), after) →
      AccountRun image out after
  | endOp {out : Finset Nat} {middle after : FS} : AccountRun image out middle → endOp middle = (.ok (), after) →
      AccountRun image out after
  | refresh {out : Finset Nat} {middle after : FS} : AccountRun image out middle →
      blockAllocatorRefresh middle.sb middle = (.ok (), after) → AccountRun image out after
  | alloc {out : Finset Nat} {middle after : FS} {blockno : Nat} : AccountRun image out middle →
      FirstFree middle.sb middle.store middle.bmap → blockAlloc middle = (.ok blockno, after) →
      AccountRun image (insert blockno out) after
  | free {out : Finset Nat} {middle after : FS} {blockno : Nat} : AccountRun image out middle → blockno ∈ out →
      blockFree blockno middle = (.ok (), after) → AccountRun image (out.erase blockno) after

/-- The bits and the summaries account for the blocks in `out`. -/
structure Accounted (sb : Superblock) (out : Finset Nat) (fs : FS) : Prop where
  layout : fs.sb = sb
  summaries : Summaries sb fs.store fs.bmap
  bits : ∀ blockno < sb.nbitmap * BPB, bitOf sb fs.store blockno = true ↔ blockno < sb.nmeta ∨ sb.size ≤ blockno ∨ blockno ∈ out
  inData : ∀ blockno ∈ out, sb.nmeta ≤ blockno ∧ blockno < sb.size

section
variable {out : Finset Nat} (accounted : Accounted sb out fs)
include accounted

theorem Accounted.unmoved (same : Unmoved fs after) : Accounted sb out after := by
  refine ⟨same.sb.trans accounted.layout, ?_, fun blockno inside => ?_, accounted.inData⟩
  · rw [same.store, same.bmap]
    exact accounted.summaries
  · rw [same.store]
    exact accounted.bits blockno inside

theorem Accounted.alloc (uint : sb.size < 2 ^ 32) (bitmap : ∀ blockno, sb.InBitmap blockno → blockno < sb.nmeta)
    (free : FirstFree fs.sb fs.store fs.bmap) (returned : blockAlloc fs = (.ok blockno, after)) :
    Accounted sb (insert blockno out) after := by
  obtain ⟨rfl, summaries, bits, inData⟩ := accounted
  have marked : fs.BitmapMarked := fun other inside place => (bits other inside).mpr (.inl (bitmap other place))
  have represents : fs.Represents := ⟨uint, summaries, free⟩
  obtain ⟨inside, clear, changed, -, represents', -, sb, -⟩ := represents.alloc marked returned
  have wasFree : ¬ (blockno < fs.sb.nmeta ∨ fs.sb.size ≤ blockno ∨ blockno ∈ out) := fun used => by
    rw [(bits blockno inside).mpr used] at clear
    cases clear
  refine ⟨sb, sb ▸ represents'.summaries, fun other covered => ?_, fun other taken => ?_⟩
  · rw [changed other covered, Finset.mem_insert]
    split
    next same => simp [same]
    next apart =>
      rw [bits other covered]
      simp [apart]
  · cases Finset.mem_insert.mp taken with
    | inl same => omega
    | inr older => exact inData other older

theorem Accounted.free (member : blockno ∈ out) (returned : blockFree blockno fs = (.ok (), after)) :
    Accounted sb (out.erase blockno) after := by
  obtain ⟨rfl, summaries, bits, inData⟩ := accounted
  have inside : blockno < fs.sb.nbitmap * BPB := Nat.lt_of_lt_of_le (inData blockno member).2 (size_le_bits fs.sb)
  obtain ⟨changed, summaries', -, sb, -⟩ := Summaries.free summaries inside ((bits blockno inside).mpr (.inr (.inr member))) returned
  refine ⟨sb, summaries', fun other covered => ?_, fun other kept => inData other (Finset.mem_of_mem_erase kept)⟩
  rw [changed other covered, Finset.mem_erase]
  split
  next same =>
    obtain ⟨above, below⟩ := inData blockno member
    subst same
    simp only [ne_eq, not_true_eq_false, false_and, or_false, Bool.false_eq_true, false_iff]
    omega
  next apart =>
    rw [bits other covered]
    simp [apart]

/-- What statfs counts are the data blocks that are not handed out. -/
theorem Accounted.statfs (data : sb.nblocks ≤ sb.size) :
    Ensures myfuseStatfs fs (fun stat _ => stat.f_bfree = sb.nblocks - out.card ∧ out.card ≤ sb.nblocks) fun _ _ => False := by
  obtain ⟨rfl, summaries, bits, inData⟩ := accounted
  unfold myfuseStatfs
  rw [ensures_bind, ensures_get, ensures_pure]
  have counted : (List.range fs.sb.size).countP (fun i => decide (fs.bmap.bmapBlockStatueGet i = 0)) =
      ((Finset.range fs.sb.size).filter fun i => fs.bmap.bmapBlockStatueGet i = 0).card := by
    rw [List.countP_eq_length_filter]
    rfl
  have clear : ((Finset.range fs.sb.size).filter fun i => fs.bmap.bmapBlockStatueGet i = 0) = Finset.Ico fs.sb.nmeta fs.sb.size \ out := by
    ext blockno
    rw [Finset.mem_filter, Finset.mem_range, Finset.mem_sdiff, Finset.mem_Ico]
    by_cases below : blockno < fs.sb.size
    · have inside : blockno < fs.sb.nbitmap * BPB := Nat.lt_of_lt_of_le below (size_le_bits fs.sb)
      have isSet := bits blockno inside
      rw [statueGet_bit summaries.cached inside, ← Bool.not_eq_true, isSet]
      simp only [not_or, Nat.not_lt, Nat.not_le]
      exact ⟨fun ⟨_, above, _, kept⟩ => ⟨⟨above, below⟩, kept⟩, fun ⟨⟨above, _⟩, kept⟩ => ⟨below, above, below, kept⟩⟩
    · simp [below]
  have within : out ⊆ Finset.Ico fs.sb.nmeta fs.sb.size := fun blockno member => Finset.mem_Ico.mpr (inData blockno member)
  have width : fs.sb.size - fs.sb.nmeta = fs.sb.nblocks := by
    rw [Superblock.nmeta]
    omega
  refine ⟨?_, ?_⟩
  · rw [counted, clear, Finset.card_sdiff_of_subset within, Nat.card_Ico, width]
  · rw [← width, ← Nat.card_Ico]
    exact Finset.card_le_card within

end

theorem AccountRun.accounted {image : FS} {out : Finset Nat} (uint : sb.size < 2 ^ 32)
    (bitmap : ∀ blockno, sb.InBitmap blockno → blockno < sb.nmeta) (first : Accounted sb ∅ image) (run : AccountRun image out after) :
    Accounted sb out after := by
  induction run with
  | start => exact first
  | beginOp _ returned ih => exact ih.unmoved ((beginOp_moves _).returned returned).1
  | endOp _ returned ih => exact ih.unmoved ((endOp_moves _).returned returned).1
  | refresh _ returned ih =>
    obtain ⟨sameSb, store, summaries, -, -⟩ := (blockAllocatorRefresh_spec _).returned returned
    rw [ih.layout] at sameSb summaries
    refine ⟨sameSb, store ▸ summaries, ?_, ih.inData⟩
    rw [store]
    exact ih.bits
  | alloc _ free returned ih => exact ih.alloc uint bitmap free returned
  | free _ member returned ih => exact ih.free member returned

/-- The free space that statfs reports after any course of calls on a new file system. -/
theorem free_space_accounted {disk_size : Nat} (small : disk_size < 2 ^ 30) (data : metaBlocks disk_size < disk_size)
    (disk : Nat → Block) (clock : Nat → Timespec) :
    Ensures mkfsBitmap (boot (initSuperBlock disk_size) disk clock)
      (fun _ image => ∀ out after, AccountRun image out after → after.sb = initSuperBlock disk_size ∧
        (∀ blockno < after.sb.nbitmap * BPB, bitOf after.sb after.store blockno = true ↔
          blockno < after.sb.nmeta ∨ after.sb.size ≤ blockno ∨ blockno ∈ out) ∧
        Ensures myfuseStatfs after (fun stat _ => stat.f_bfree = after.sb.nblocks - out.card ∧ out.card ≤ after.sb.nblocks)
          fun _ _ => False)
      fun _ _ => False := by
  have uint : (initSuperBlock disk_size).size < 2 ^ 32 := Nat.lt_trans small (by decide)
  have nblocks : (initSuperBlock disk_size).nblocks ≤ (initSuperBlock disk_size).size := by
    rw [initSuperBlock_nblocks data small]
    exact Nat.sub_le _ _
  have made := mkfsBitmap_spec (boot_idle (initSuperBlock disk_size) disk clock rfl) (by rw [boot_sb]; exact nblocks)
    (by rw [boot_sb]; exact uint)
  rw [boot_sb] at made
  refine made.weaken ?_
  rintro _ image ⟨sb, summaries, bits⟩ out after run
  have first : Accounted (initSuperBlock disk_size) ∅ image :=
    ⟨sb, summaries, fun blockno inside => by simpa using bits blockno inside, fun blockno none => absurd none (Finset.notMem_empty blockno)⟩
  have accounted := run.accounted uint (fun _ => bitmap_in_meta data small) first
  have same := accounted.layout
  refine ⟨same, ?_, ?_⟩
  · rw [same]
    exact accounted.bits
  · rw [same]
    exact accounted.statfs nblocks

theorem free_space_accounted_smallDisk : Ensures mkfsBitmap (boot (initSuperBlock 2000) (fun _ => Bytes.zero) fun _ => ⟨0, 0⟩)
    (fun _ image => ∀ out after, AccountRun image out after → after.sb = initSuperBlock 2000 ∧
      (∀ blockno < after.sb.nbitmap * BPB, bitOf after.sb after.store blockno = true ↔
        blockno < after.sb.nmeta ∨ after.sb.size ≤ blockno ∨ blockno ∈ out) ∧
      Ensures myfuseStatfs after (fun stat _ => stat.f_bfree = after.sb.nblocks - out.card ∧ out.card ≤ after.sb.nblocks)
        fun _ _ => False)
    fun _ _ => False :=
  free_space_accounted (by decide) (by decide) _ _

end FS
end Myfuse
