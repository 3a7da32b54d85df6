import Myfuse.Proofs.Volume

/-! What taking and giving back a block does to a volume. -/

namespace Myfuse
open Library Library.Exec

namespace FS
variable {origin : Origin} {fs after : FS} {blockno : Nat}

/-- The history grew by events that neither take nor free. -/
def Quiet (fs after : FS) : Prop := ∃ recent, after.history = recent ++ fs.history ∧ ∀ event ∈ recent, event.isNeutral = true

theorem Quiet.refl (fs : FS) : Quiet fs fs := ⟨[], rfl, by simp⟩

theorem Quiet.one {event : Event} (neutral : event.isNeutral = true) (grown : after.history = event :: fs.history) :
    Quiet fs after := ⟨[event], grown, by simpa using neutral⟩

/-- A state with the same bitmap and the same memory copy. -/
theorem Allocator.congr (allocator : fs.Allocator origin) (sb : after.sb = fs.sb) (bmap : after.bmap = fs.bmap)
    (quiet : Quiet fs after) (store : ∀ blockno, fs.sb.InBitmap blockno → after.store blockno = fs.store blockno) :
    after.Allocator origin := by
  have blocks : ∀ c < fs.sb.nbitmap, after.store (c + fs.sb.bmapstart) = fs.store (c + fs.sb.bmapstart) :=
    fun c inside => store _ ⟨Nat.le_add_left _ _, by omega⟩
  have bits : ∀ blockno < fs.sb.nbitmap * BPB, bitOf fs.sb after.store blockno = bitOf fs.sb fs.store blockno :=
    fun blockno inside => bitOf_congr (store _ (Superblock.bblock_inBitmap inside))
  obtain ⟨recent, grown, neutral⟩ := quiet
  obtain ⟨older, start, orderly, explained⟩ := allocator.tracked
  have same := bitsAfter_neutral origin.bits neutral older
  refine ⟨sb ▸ allocator.layout, fun blockno inside outside => ?_, ?_, ?_, recent ++ older, ?_, same.2.mpr orderly,
    fun blockno data => ?_⟩
  · rw [sb] at inside outside ⊢
    rw [bits blockno inside]
    exact allocator.reserved blockno inside outside
  · rw [sb, bmap]
    exact allocator.summaries.congr blocks
  · rw [sb, bmap]
    exact allocator.free.congr blocks
  · rw [grown, start, List.append_assoc]
  · rw [sb] at data ⊢
    rw [bits blockno data.covered, same.1]
    exact explained blockno data

/-- `block_alloc` has returned `blockno`. -/
structure Took (fs : FS) (blockno : Nat) (after : FS) : Prop where
  sb : after.sb = fs.sb
  ninode : after.ninode = fs.ninode
  inode : after.inode = fs.inode
  outstanding : after.log.outstanding = fs.log.outstanding
  data : fs.sb.InData blockno
  clear : bitOf fs.sb fs.store blockno = false
  zero : after.store blockno = Bytes.zero
  store : ∀ other, ¬ fs.sb.InBitmap other → other ≠ blockno → after.store other = fs.store other
  bits : ∀ other < fs.sb.nbitmap * BPB,
    bitOf fs.sb after.store other = if other = blockno then true else bitOf fs.sb fs.store other

/-- `block_free` has returned. -/
structure Gave (fs : FS) (blockno : Nat) (after : FS) : Prop where
  sb : after.sb = fs.sb
  ninode : after.ninode = fs.ninode
  inode : after.inode = fs.inode
  outstanding : after.log.outstanding = fs.log.outstanding
  store : ∀ other, ¬ fs.sb.InBitmap other → after.store other = fs.store other
  bits : ∀ other < fs.sb.nbitmap * BPB,
    bitOf fs.sb after.store other = if other = blockno then false else bitOf fs.sb fs.store other
  freed : freedBlocks after.history = blockno :: freedBlocks fs.history

/-- The allocator could not serve. -/
def AllocFails (reason : Exit) (after : FS) : Prop := reason = .errExit .noFreeSpace ∨ LogFull reason after

/-- The event that sets or clears a bit, between neutral ones. -/
theorem Tracked.extend (tracked : fs.Tracked origin) (value : Bool) (event : Event) (later before : List Event)
    (sb : after.sb = fs.sb) (grown : after.history = later ++ event :: (before ++ fs.history))
    (neutral : ∀ other ∈ before, other.isNeutral = true) (neutral' : ∀ other ∈ later, other.isNeutral = true)
    (data : fs.sb.InData blockno) (was : bitOf fs.sb fs.store blockno = !value)
    (marks : ∀ older, bitsAfter origin.bits (event :: older) =
      assign (bitsAfter origin.bits older) blockno value)
    (ordered : ∀ older, Orderly origin.bits (event :: older) ↔
      bitsAfter origin.bits older blockno = (!value) ∧ Orderly origin.bits older)
    (bits : ∀ other, fs.sb.InData other →
      bitOf fs.sb after.store other = if other = blockno then value else bitOf fs.sb fs.store other) :
    after.Tracked origin := by
  obtain ⟨older, start, orderly, explained⟩ := tracked
  have same := bitsAfter_neutral origin.bits neutral older
  have same' := bitsAfter_neutral origin.bits neutral' (event :: (before ++ older))
  refine ⟨later ++ event :: (before ++ older), by rw [grown, start]; simp, ?_, fun other inside => ?_⟩
  · rw [same'.2, ordered, same.2, same.1, ← explained blockno data]
    exact ⟨was, orderly⟩
  · rw [sb] at inside ⊢
    rw [bits other inside, same'.1, marks, same.1]
    by_cases here : other = blockno
    · rw [if_pos here, here, assign_self]
    · rw [if_neg here, assign_of_ne here, explained other inside]

theorem blockAlloc_took (allocator : fs.Allocator origin) (inOp : 1 ≤ fs.log.outstanding) :
    Ensures blockAlloc fs (fun blockno after => Took fs blockno after ∧ after.Allocator origin) AllocFails := by
  refine (blockAlloc_spec inOp allocator.summaries allocator.free (nbitmap_bits allocator.layout.uint_size)).mono
    (fun blockno after done => ?_) fun reason after fails => fails.imp_left And.left
  obtain ⟨inside, clear, bmap, afterIs, summaries, free⟩ := done
  have data : fs.sb.InData blockno := by
    by_contra outside
    rw [allocator.reserved blockno inside outside] at clear
    cases clear
  have offBitmap : ∀ other, fs.sb.InBitmap other → other ≠ blockno := fun other bitmap same =>
    Superblock.data_not_bitmap allocator.layout data (same ▸ bitmap)
  have sb : after.sb = fs.sb := by rw [afterIs]
  have bmapIs : after.bmap = bmap := by rw [afterIs]
  have storeIs : after.store = assign (setBitOf fs.sb fs.store blockno true) blockno Bytes.zero := by rw [afterIs]
  have bits : ∀ other < fs.sb.nbitmap * BPB,
      bitOf fs.sb after.store other = if other = blockno then true else bitOf fs.sb fs.store other := by
    intro other covered
    rw [← bitOf_setBitOf fs.sb fs.store blockno other true]
    refine bitOf_congr ?_
    rw [storeIs, assign_of_ne (offBitmap _ (Superblock.bblock_inBitmap covered))]
  have blocks : ∀ c < fs.sb.nbitmap,
      after.store (c + fs.sb.bmapstart) = setBitOf fs.sb fs.store blockno true (c + fs.sb.bmapstart) := fun c small => by
    rw [storeIs, assign_of_ne (offBitmap _ ⟨Nat.le_add_left _ _, by omega⟩)]
  refine ⟨⟨sb, by rw [afterIs], by rw [afterIs], by rw [afterIs]; simp, data, clear, by rw [storeIs, assign_self], ?_, bits⟩,
    sb ▸ allocator.layout, fun other covered outside => ?_, ?_, ?_, ?_⟩
  · intro other outside apart
    rw [storeIs, assign_of_ne apart, setBitOf, assign_of_ne]
    rintro rfl
    exact outside (Superblock.bblock_inBitmap inside)
  · rw [sb] at covered outside ⊢
    rw [bits other covered]
    split
    · rfl
    · exact allocator.reserved other covered outside
  · rw [sb, bmapIs]
    exact summaries.congr blocks
  · rw [sb, bmapIs]
    exact free.congr blocks
  · refine allocator.tracked.extend true (.blockAlloc blockno) [.logged blockno] [.logged (fs.sb.bblock blockno)] sb
      (by rw [afterIs]; rfl) (by simp [Event.isNeutral]) (by simp [Event.isNeutral]) data clear
      (fun _ => rfl) (fun _ => Iff.rfl) fun other inData => bits other inData.covered

theorem blockFree_gave (allocator : fs.Allocator origin) (inOp : 1 ≤ fs.log.outstanding) (data : fs.sb.InData blockno)
    (set : bitOf fs.sb fs.store blockno = true) :
    Ensures (blockFree blockno) fs (fun _ after => Gave fs blockno after ∧ after.Allocator origin) LogFull := by
  refine (blockFree_spec inOp allocator.summaries data.covered set).weaken fun _ after done => ?_
  obtain ⟨bmap, afterIs, summaries, free⟩ := done
  have sb : after.sb = fs.sb := by rw [afterIs]
  have bmapIs : after.bmap = bmap := by rw [afterIs]
  have storeIs : after.store = setBitOf fs.sb fs.store blockno false := by rw [afterIs]
  have bits : ∀ other < fs.sb.nbitmap * BPB,
      bitOf fs.sb after.store other = if other = blockno then false else bitOf fs.sb fs.store other := by
    intro other _
    rw [storeIs, bitOf_setBitOf]
  refine ⟨⟨sb, by rw [afterIs], by rw [afterIs], by rw [afterIs]; simp, ?_, bits, by rw [afterIs]; rfl⟩, sb ▸ allocator.layout,
    fun other covered outside => ?_, ?_, ?_, ?_⟩
  · intro other outside
    rw [storeIs, setBitOf, assign_of_ne]
    rintro rfl
    exact outside (Superblock.bblock_inBitmap data.covered)
  · rw [sb] at covered outside ⊢
    rw [bits other covered, if_neg]
    · exact allocator.reserved other covered outside
    · rintro rfl
      exact outside data
  · rw [sb, bmapIs, storeIs]
    exact summaries
  · rw [sb, bmapIs, storeIs]
    exact free
  · refine allocator.tracked.extend false (.blockFree blockno) [] [.logged (fs.sb.bblock blockno)] sb
      (by rw [afterIs]; rfl) (by simp [Event.isNeutral]) (by simp) data set
      (fun _ => rfl) (fun _ => Iff.rfl) fun other inData => bits other inData.covered

end FS
end Myfuse
