import Myfuse.Proofs.Session

/-! Sequences of `block_alloc` and `block_free`: the bitmap, its copy and its
summaries stay together, and a block handed out is freed before it is handed out
again. The last free block is never handed out. -/

namespace Myfuse
open Library Library.Exec

inductive AllocCall where
  | beginOp
  | endOp
  | alloc
  | free (blockno : Nat)

/-- Between two times a block is handed out it is freed. -/
def OnceOut (recent : List Event) : Prop :=
  ∀ later middle older blockno, recent = later ++ .blockAlloc blockno :: (middle ++ .blockAlloc blockno :: older) →
    .blockFree blockno ∈ middle

theorem bitsAfter_kept {bits : Nat → Bool} {blockno : Nat} {middle older : List Event} (kept : .blockFree blockno ∉ middle)
    (set : bitsAfter bits older blockno = true) : bitsAfter bits (middle ++ older) blockno = true := by
  induction middle with
  | nil => exact set
  | cons event middle ih =>
    have rest := ih fun inside => kept (List.mem_cons_of_mem _ inside)
    cases event with
    | blockAlloc other =>
      simp only [List.cons_append, bitsAfter, assign_apply]
      split
      · rfl
      · exact rest
    | blockFree other =>
      have apart : blockno ≠ other := fun same => kept (same ▸ List.mem_cons_self)
      simp only [List.cons_append, bitsAfter, assign_of_ne apart]
      exact rest
    | _ => exact rest

theorem Orderly.suffix {bits : Nat → Bool} {later older : List Event} (orderly : Orderly bits (later ++ older)) : Orderly bits older := by
  induction later with
  | nil => exact orderly
  | cons event later ih =>
    apply ih
    cases event with
    | blockAlloc _ => exact orderly.2
    | blockFree _ => exact orderly.2
    | _ => exact orderly

theorem Orderly.onceOut {bits : Nat → Bool} {recent : List Event} (orderly : Orderly bits recent) : OnceOut recent := by
  rintro later middle older blockno rfl
  have clear := orderly.suffix.1
  by_contra kept
  have set : bitsAfter bits (.blockAlloc blockno :: older) blockno = true := by simp [bitsAfter]
  rw [bitsAfter_kept kept set] at clear
  cases clear

namespace FS
variable {fs middle after : FS} {blockno : Nat}

/-- The four summaries of the allocator match the bitmap as logged, and some bit is
clear where the first free block is looked for. -/
structure Represents (fs : FS) : Prop where
  uint : fs.sb.size < 2 ^ 32
  summaries : Summaries fs.sb fs.store fs.bmap
  free : FirstFree fs.sb fs.store fs.bmap

/-- The bitmap blocks are in use themselves. -/
def BitmapMarked (fs : FS) : Prop :=
  ∀ blockno < fs.sb.nbitmap * BPB, fs.sb.InBitmap blockno → bitOf fs.sb fs.store blockno = true

/-- Exactly one bit has changed. -/
def BitSet (fs : FS) (blockno : Nat) (value : Bool) (after : FS) : Prop :=
  ∀ other < fs.sb.nbitmap * BPB, bitOf fs.sb after.store other = if other = blockno then value else bitOf fs.sb fs.store other

/-- `logged_write` returns inside an operation only. -/
theorem loggedUpdate_inOp (blockno : Nat) (change : Block → Block) (fs : FS) :
    Ensures (loggedUpdate blockno change) fs (fun _ _ => 1 ≤ fs.log.outstanding) fun _ _ => True := by
  unfold loggedUpdate loggedWrite
  rw [ensures_bind, ensures_modify, ensures_bind, ensures_get, ensures_ite, ensures_ite]
  refine ⟨fun _ => (ensures_stop _).mpr trivial, fun _ => ⟨fun _ => (ensures_stop _).mpr trivial, fun inOp => ?_⟩⟩
  unfold note
  rw [ensures_bind, ensures_modify, ensures_modify]
  exact Int.not_lt.mp inOp

theorem bmapBlockStatueSet_inOp (blockno i : Nat) (fs : FS) :
    Ensures (bmapBlockStatueSet blockno i) fs (fun _ _ => 1 ≤ fs.log.outstanding) fun _ _ => True := by
  unfold bmapBlockStatueSet modifyBmap
  rw [ensures_bind, ensures_get, ensures_ite]
  refine ⟨fun _ => (ensures_stop _).mpr trivial, fun _ => ?_⟩
  rw [ensures_bind, ensures_modify]
  exact loggedUpdate_inOp _ _ _

theorem blockAlloc_inOp (returned : blockAlloc fs = (.ok blockno, after)) : 1 ≤ fs.log.outstanding := by
  have spec : Ensures blockAlloc fs (fun _ _ => 1 ≤ fs.log.outstanding) fun _ _ => True := by
    unfold blockAlloc
    rw [ensures_bind, ensures_get, ensures_ite]
    refine ⟨fun _ => (ensures_stop _).mpr trivial, fun _ => ?_⟩
    refine Ensures.bind (bmapBlockStatueSet_inOp _ _ fs) fun _ middle inOp => ?_
    exact ensures_of_forall (fun _ _ _ => inOp) fun _ _ _ => trivial
  exact spec.returned returned

theorem blockFree_inOp (returned : blockFree blockno fs = (.ok (), after)) : 1 ≤ fs.log.outstanding := by
  have spec : Ensures (blockFree blockno) fs (fun _ _ => 1 ≤ fs.log.outstanding) fun _ _ => True := by
    unfold blockFree
    refine Ensures.bind (bmapBlockStatueSet_inOp _ _ fs) fun _ middle inOp => ?_
    exact ensures_of_forall (fun _ _ _ => inOp) fun _ _ _ => trivial
  exact spec.returned returned

/-- A returned `block_alloc`. -/
theorem Represents.alloc (represents : fs.Represents) (marked : fs.BitmapMarked) (returned : blockAlloc fs = (.ok blockno, after)) :
    blockno < fs.sb.nbitmap * BPB ∧ bitOf fs.sb fs.store blockno = false ∧ BitSet fs blockno true after ∧
      after.store blockno = Bytes.zero ∧ after.Represents ∧ after.BitmapMarked ∧ after.sb = fs.sb ∧
      after.history = .logged blockno :: .blockAlloc blockno :: .logged (fs.sb.bblock blockno) :: fs.history := by
  obtain ⟨inside, clear, bmap, afterIs, summaries, free⟩ := (blockAlloc_spec (blockAlloc_inOp returned) represents.summaries
    represents.free (nbitmap_bits represents.uint)).returned returned
  have sb : after.sb = fs.sb := by rw [afterIs]
  have bmapIs : after.bmap = bmap := by rw [afterIs]
  have storeIs : after.store = assign (setBitOf fs.sb fs.store blockno true) blockno Bytes.zero := by rw [afterIs]
  have offBitmap : ∀ other, fs.sb.InBitmap other → other ≠ blockno := by
    rintro other bitmap rfl
    rw [marked other inside bitmap] at clear
    cases clear
  have blocks : ∀ c < fs.sb.nbitmap,
      after.store (c + fs.sb.bmapstart) = setBitOf fs.sb fs.store blockno true (c + fs.sb.bmapstart) := fun c small => by
    rw [storeIs, assign_of_ne (offBitmap _ ⟨Nat.le_add_left _ _, by omega⟩)]
  have bits : BitSet fs blockno true after := fun other covered => by
    rw [← bitOf_setBitOf fs.sb fs.store blockno other true]
    refine bitOf_congr ?_
    rw [storeIs, assign_of_ne (offBitmap _ (Superblock.bblock_inBitmap covered))]
  refine ⟨inside, clear, bits, by rw [storeIs, assign_self], ⟨by rw [sb]; exact represents.uint, ?_, ?_⟩, ?_, sb, by rw [afterIs]⟩
  · rw [sb, bmapIs]
    exact summaries.congr blocks
  · rw [sb, bmapIs]
    exact free.congr blocks
  · intro other covered bitmap
    rw [sb] at covered bitmap ⊢
    rw [bits other covered, if_neg (offBitmap other bitmap)]
    exact marked other covered bitmap

/-- A returned `block_free` of a block whose bit is set. -/
theorem Summaries.free (summaries : Summaries fs.sb fs.store fs.bmap) (inside : blockno < fs.sb.nbitmap * BPB)
    (set : bitOf fs.sb fs.store blockno = true) (returned : blockFree blockno fs = (.ok (), after)) :
    BitSet fs blockno false after ∧ Summaries fs.sb after.store after.bmap ∧ FirstFree fs.sb after.store after.bmap ∧ after.sb = fs.sb ∧
      after.history = .blockFree blockno :: .logged (fs.sb.bblock blockno) :: fs.history := by
  obtain ⟨bmap, afterIs, summaries', free⟩ := (blockFree_spec (blockFree_inOp returned) summaries inside set).returned returned
  have storeIs : after.store = setBitOf fs.sb fs.store blockno false := by rw [afterIs]
  have bmapIs : after.bmap = bmap := by rw [afterIs]
  refine ⟨fun other _ => by rw [storeIs, bitOf_setBitOf], ?_, ?_, by rw [afterIs], by rw [afterIs]⟩
  · rw [storeIs, bmapIs]
    exact summaries'
  · rw [storeIs, bmapIs]
    exact free

theorem Represents.release (represents : fs.Represents) (inside : blockno < fs.sb.nbitmap * BPB) (set : bitOf fs.sb fs.store blockno = true)
    (returned : blockFree blockno fs = (.ok (), after)) :
    BitSet fs blockno false after ∧ after.Represents ∧ after.sb = fs.sb ∧
      after.history = .blockFree blockno :: .logged (fs.sb.bblock blockno) :: fs.history := by
  obtain ⟨bits, summaries, free, sb, history⟩ := Summaries.free represents.summaries inside set returned
  exact ⟨bits, ⟨sb ▸ represents.uint, sb ▸ summaries, sb ▸ free⟩, sb, history⟩

def allocCall : AllocCall → M Unit
  | .beginOp => beginOp
  | .endOp => endOp
  | .alloc => do
    let _ ← blockAlloc
    pure ()
  | .free blockno => blockFree blockno

/-- A block that is freed is in use and no bitmap block. -/
def MayCall (fs : FS) : AllocCall → Prop
  | .free blockno => blockno < fs.sb.nbitmap * BPB ∧ bitOf fs.sb fs.store blockno = true ∧ ¬ fs.sb.InBitmap blockno
  | _ => True

/-- Returned calls. -/
inductive AllocRun (fs : FS) : FS → Prop
  | start : AllocRun fs fs
  | call {middle after : FS} {next : AllocCall} : AllocRun fs middle → middle.MayCall next →
      allocCall next middle = (.ok (), after) → AllocRun fs after

/-- The bits are those that the course since `fs` makes of the first ones. -/
structure Explained (fs after : FS) : Prop where
  sb : after.sb = fs.sb
  course : ∃ recent, after.history = recent ++ fs.history ∧ Orderly (bitOf fs.sb fs.store) recent ∧
    ∀ blockno < fs.sb.nbitmap * BPB, bitOf fs.sb after.store blockno = bitsAfter (bitOf fs.sb fs.store) recent blockno

theorem Represents.unmoved (represents : fs.Represents) (same : Unmoved fs after) : after.Represents := by
  refine ⟨by rw [same.sb]; exact represents.uint, ?_, ?_⟩ <;> rw [same.sb, same.store, same.bmap]
  · exact represents.summaries
  · exact represents.free

theorem BitmapMarked.unmoved (marked : fs.BitmapMarked) (same : Unmoved fs after) : after.BitmapMarked := by
  unfold BitmapMarked
  rw [same.sb, same.store]
  exact marked

/-- Events that take and free nothing explain unchanged bits. -/
theorem Explained.quiet {start : FS} (explained : Explained start fs) (same : Unmoved fs after) (quiet : Quiet fs after) :
    Explained start after := by
  obtain ⟨recent, grown, neutral⟩ := quiet
  obtain ⟨older, history, orderly, bits⟩ := explained.course
  have rules := bitsAfter_neutral (bitOf start.sb start.store) neutral older
  refine ⟨same.sb.trans explained.sb, recent ++ older, by rw [grown, history, List.append_assoc], rules.2.mpr orderly, fun blockno inside => ?_⟩
  rw [same.store, rules.1, bits blockno inside]

/-- The event that changes a bit, with the write of the bitmap block before it. -/
theorem Explained.change {start : FS} (explained : Explained start fs) (value : Bool) (event : Event) (later : List Event)
    (inside : blockno < fs.sb.nbitmap * BPB) (was : bitOf fs.sb fs.store blockno = !value) (bits : BitSet fs blockno value after)
    (sb : after.sb = fs.sb) (neutral : ∀ other ∈ later, other.isNeutral = true) {block : Nat}
    (grown : after.history = later ++ event :: .logged block :: fs.history)
    (marks : ∀ bits older, bitsAfter bits (event :: older) = assign (bitsAfter bits older) blockno value)
    (ordered : ∀ bits older, Orderly bits (event :: older) ↔ bitsAfter bits older blockno = (!value) ∧ Orderly bits older) :
    Explained start after := by
  obtain ⟨older, history, orderly, explains⟩ := explained.course
  have rules := bitsAfter_neutral (bitOf start.sb start.store) neutral (event :: .logged block :: older)
  refine ⟨sb.trans explained.sb, later ++ event :: .logged block :: older, by rw [grown, history]; simp, ?_, fun other covered => ?_⟩
  · rw [rules.2, ordered]
    refine ⟨?_, orderly⟩
    rw [explained.sb] at inside was
    rw [← was, explains blockno inside]
    rfl
  · have changed := bits other (by rw [explained.sb]; exact covered)
    rw [explained.sb] at changed
    rw [changed, rules.1, marks, assign_apply, explains other covered]
    rfl

/-- One call keeps the representation, the marks and the explanation of the bits. -/
theorem allocCall_keeps {start : FS} {next : AllocCall} (represents : fs.Represents) (marked : fs.BitmapMarked)
    (explained : Explained start fs) (may : fs.MayCall next) (returned : allocCall next fs = (.ok (), after)) :
    after.Represents ∧ after.BitmapMarked ∧ Explained start after := by
  cases next with
  | beginOp =>
    obtain ⟨same, history, -⟩ := (beginOp_moves fs).returned returned
    exact ⟨represents.unmoved same, marked.unmoved same, explained.quiet same (.one rfl history)⟩
  | endOp =>
    obtain ⟨same, quiet, -⟩ := (endOp_moves fs).returned returned
    exact ⟨represents.unmoved same, marked.unmoved same, explained.quiet same quiet⟩
  | alloc =>
    obtain ⟨blockno, final, alloc, last⟩ := bind_returns returned
    obtain rfl : final = after := by simpa using last
    obtain ⟨inside, clear, bits, -, represents', marked', sb, history⟩ := represents.alloc marked alloc
    exact ⟨represents', marked', explained.change true (.blockAlloc blockno) [.logged blockno] inside clear bits sb
      (by simp [Event.isNeutral]) history (fun _ _ => rfl) fun _ _ => Iff.rfl⟩
  | free blockno =>
    obtain ⟨inside, set, offBitmap⟩ := may
    obtain ⟨bits, represents', sb, history⟩ := represents.release inside set returned
    refine ⟨represents', fun other covered bitmap => ?_, explained.change false (.blockFree blockno) [] inside set bits sb
      (by simp) history (fun _ _ => rfl) fun _ _ => Iff.rfl⟩
    rw [sb] at covered bitmap ⊢
    rw [bits other covered, if_neg fun same : other = blockno => offBitmap (same ▸ bitmap)]
    exact marked other covered bitmap

theorem AllocRun.keeps (represents : fs.Represents) (marked : fs.BitmapMarked) (run : AllocRun fs after) :
    after.Represents ∧ after.BitmapMarked ∧ Explained fs after := by
  induction run with
  | start => exact ⟨represents, marked, rfl, [], rfl, trivial, fun _ _ => rfl⟩
  | call _ may returned ih => exact allocCall_keeps ih.1 ih.2.1 ih.2.2 may returned

/-- `block_alloc` and `block_free` keep the bitmap, its copy and its summaries together,
and no block is handed out twice without being freed in between. -/
theorem allocator_represents (represents : fs.Represents) (marked : fs.BitmapMarked) :
    (∀ blockno after, blockAlloc fs = (.ok blockno, after) →
      bitOf fs.sb fs.store blockno = false ∧ BitSet fs blockno true after ∧ after.store blockno = Bytes.zero ∧
        after.Represents ∧ after.BitmapMarked) ∧
    (∀ blockno after, blockno < fs.sb.nbitmap * BPB → bitOf fs.sb fs.store blockno = true →
      blockFree blockno fs = (.ok (), after) → BitSet fs blockno false after ∧ after.Represents) ∧
    ∀ after, AllocRun fs after → after.Represents ∧ ∃ recent, after.history = recent ++ fs.history ∧ OnceOut recent := by
  refine ⟨fun blockno after returned => ?_, fun blockno after inside set returned => ?_, fun after run => ?_⟩
  · obtain ⟨-, clear, bits, zero, represents', marked', -⟩ := represents.alloc marked returned
    exact ⟨clear, bits, zero, represents', marked'⟩
  · obtain ⟨bits, represents', -⟩ := represents.release inside set returned
    exact ⟨bits, represents'⟩
  · obtain ⟨represents', -, -, recent, grown, orderly, -⟩ := run.keeps represents marked
    exact ⟨represents', recent, grown, orderly.onceOut⟩

/-! A disk with one bitmap block whose clear bits are those of `[lo, hi)`. -/

def rangeBits (lo hi blockno : Nat) : Bool := decide (blockno < lo ∨ hi ≤ blockno)

/-- An operation is open on such a disk. -/
def rangeFree (sb : Superblock) (lo hi : Nat) : FS :=
  let disk : Nat → Block := fun blockno => if blockno = sb.bmapstart then Bytes.ofBits (rangeBits lo hi) else Bytes.zero
  { sb, store := disk, device := disk, log := { Fslog.init sb.logstart sb.nlog with outstanding := 1 }, n_log_wrote := 0,
    bmap :=
      { cache_buf := fun byte => Bytes.flagByte fun flag => rangeBits lo hi (byte * 8 + flag)
        first_unalloced := fun _ => lo
        n_alloced := fun _ => lo + (BPB - hi)
        n_cache := 1
        first_free_cache := 0 },
    inode := fun _ => Inode.zero, ninode := 0, files := fun _ => ⟨false, 0, false, false, none, 0⟩, nfile := 0,
    clock := fun _ => ⟨0, 0⟩, ticks := 0, history := [] }

section
variable {sb : Superblock} {lo hi : Nat} (one : sb.nbitmap = 1) (some : lo < hi) (small : hi ≤ BPB)

theorem rangeFree_bit {index : Nat} (inside : index < BPB) :
    ((rangeFree sb lo hi).store (0 + sb.bmapstart)).bit index = rangeBits lo hi index := by
  have place : (rangeFree sb lo hi).store (0 + sb.bmapstart) = Bytes.ofBits (rangeBits lo hi) := by
    simp only [rangeFree, Nat.zero_add, if_true]
  rw [place, Bytes.bit_ofBits _ inside]

include one some small

theorem rangeFree_represents (uint : sb.size < 2 ^ 32) : (rangeFree sb lo hi).Represents := by
  have low : lo < BPB := Nat.lt_of_lt_of_le some small
  have lowest : lowestClear BPB ((rangeFree sb lo hi).store (0 + sb.bmapstart)).bit = lo := by
    refine lowestClear_eq_iff.mpr ⟨low, ?_, fun other below => ?_⟩
    · rw [rangeFree_bit low, rangeBits, decide_eq_false_iff_not]
      omega
    · rw [rangeFree_bit (Nat.lt_trans below low), rangeBits, decide_eq_true_iff]
      exact .inl below
  refine ⟨uint, ⟨one.symm, fun c inside k few => ?_, fun c inside => ?_, fun c inside => ?_⟩, ?_, ?_⟩
  · obtain rfl : c = 0 := Nat.lt_one_iff.mp (Nat.lt_of_lt_of_eq inside one)
    rw [Nat.zero_mul, Nat.zero_add, Bytes.byte_eq_flagByte]
    refine Bytes.flagByte_congr fun flag tiny => (rangeFree_bit ?_).symm
    simp only [BPB, BSIZE] at few ⊢
    omega
  · obtain rfl : c = 0 := Nat.lt_one_iff.mp (Nat.lt_of_lt_of_eq inside one)
    exact (countSet_outside (Nat.le_of_lt some) small fun other inside => rangeFree_bit inside).symm
  · obtain rfl : c = 0 := Nat.lt_one_iff.mp (Nat.lt_of_lt_of_eq inside one)
    exact lowest.symm
  · exact Nat.lt_of_lt_of_eq Nat.zero_lt_one one.symm
  · intro full
    have none : lowestClear BPB ((rangeFree sb lo hi).store (0 + sb.bmapstart)).bit = -1 := full
    omega

omit one some small

theorem rangeFree_bitOf {blockno : Nat} (inside : blockno < BPB) :
    bitOf (rangeFree sb lo hi).sb (rangeFree sb lo hi).store blockno = rangeBits lo hi blockno := by
  rw [bitOf, Superblock.bblock, Nat.div_eq_of_lt inside, Nat.mod_eq_of_lt inside]
  exact rangeFree_bit inside

include one

theorem rangeFree_marked (above : sb.bmapstart + 1 ≤ lo) : (rangeFree sb lo hi).BitmapMarked := by
  intro blockno inside bitmap
  have covered : blockno < BPB := by
    have inside : blockno < sb.nbitmap * BPB := inside
    rwa [one, Nat.one_mul] at inside
  have bitmap : blockno < sb.bmapstart + sb.nbitmap := bitmap.2
  rw [rangeFree_bitOf covered, rangeBits, decide_eq_true_iff]
  omega

end

theorem rangeFree_alloc : ∃ fs after : FS, blockAlloc fs = (.ok 1060, after) ∧ BitSet fs 1060 true after ∧ after.Represents := by
  have represents : (rangeFree (initSuperBlock 2000) 1060 2000).Represents :=
    rangeFree_represents (by decide) (by decide) (by decide) (by decide)
  have marked : (rangeFree (initSuperBlock 2000) 1060 2000).BitmapMarked := rangeFree_marked (by decide) (by decide)
  have returned := returns_of_valueOf (show valueOf blockAlloc (rangeFree (initSuperBlock 2000) 1060 2000) = some 1060 by decide +kernel)
  obtain ⟨-, bits, -, represents', -⟩ := (allocator_represents represents marked).1 _ _ returned
  exact ⟨_, _, returned, bits, represents'⟩

/-- A bitmap block that is not marked is handed out and cleared. -/
theorem unmarked_bitmap_cleared : ¬ ∀ (fs after : FS) (blockno : Nat), fs.Represents → blockAlloc fs = (.ok blockno, after) →
    bitOf fs.sb fs.store blockno = false ∧ BitSet fs blockno true after ∧ after.store blockno = Bytes.zero ∧ after.Represents := by
  intro claimed
  have represents : (rangeFree (initSuperBlock 2000) 1059 2000).Represents :=
    rangeFree_represents (by decide) (by decide) (by decide) (by decide)
  have computed : valueOf (do
      let blockno ← blockAlloc
      let fs : FS ← get
      pure (blockno, fs.bmap.n_alloced 0, fs.sb.nbitmap, fs.sb.bmapstart)) (rangeFree (initSuperBlock 2000) 1059 2000) =
      some (1059, 31828, 1, 1059) := by decide +kernel
  obtain ⟨blockno, after, alloc, rest⟩ := bind_returns (returns_of_valueOf computed)
  rw [bind_ok get_apply] at rest
  have values := congrArg Prod.fst rest
  simp only [pure_apply, Except.ok.injEq, Prod.mk.injEq] at values
  obtain ⟨rfl, alloced, nbitmap, bmapstart⟩ := values
  obtain ⟨-, -, zero, represents'⟩ := claimed _ _ _ represents alloc
  -- The bitmap block is empty now, and its summary is not.
  have counted := represents'.summaries.counted 0 (by omega)
  rw [alloced, bmapstart, Nat.zero_add, zero] at counted
  have empty : countSet BPB (Bytes.zero : Block).bit = 0 := by
    have outside := @countSet_outside BPB (Bytes.zero : Block).bit 0 BPB (Nat.zero_le BPB) (Nat.le_refl BPB)
      fun other inside => by
        rw [Bytes.bit_zeros (Bytes.byte_zero _), eq_comm, decide_eq_false_iff_not]
        omega
    rw [outside, Nat.sub_self]
  omega

end FS
end Myfuse
