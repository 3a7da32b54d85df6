import Myfuse.Proofs.BlockMap
import Myfuse.Proofs.Resize
import Myfuse.Proofs.Exhaustion

/-! `itrunc2size` to a size not larger: which blocks are given back, and when it
has to take one to do so. -/

namespace Myfuse
open Library Library.Exec

namespace FS
variable {origin : Origin} {fs after : FS} {ip inum : Nat}

/-! Blocks given back are free again. -/

/-- The indices that are mapped in `fs` and not in `after`. -/
def unmappedData (fs after : FS) (inum : Nat) : Finset Nat :=
  (Finset.range MAXFILE_BLOCKS).filter fun bn => fs.blockMap inum bn ≠ none ∧ after.blockMap inum bn = none

open Classical in
/-- The index blocks that the inode holds in `fs` and not in `after`. -/
noncomputable def droppedIndex (fs after : FS) (inum : Nat) : Finset Nat :=
  (Finset.range fs.sb.size).filter fun block =>
    block ≠ 0 ∧ ∃ path, BlockTree.Internal levels path ∧ fs.held inum path = block ∧ after.held inum path = 0

/-- An entry in use is inside its index block. -/
theorem entry_inside {path : List Nat} {index : Nat} (nonempty : path ≠ []) (present : fs.held inum (path ++ [index]) ≠ 0) :
    index < NINDIRECT1 ∧ fs.held inum path ≠ 0 := by
  refine ⟨?_, (BlockTree.place_parent nonempty present).2⟩
  by_contra outside
  refine present ?_
  rw [held_append _ nonempty, entry_outside _ (Nat.not_lt.mp outside), ite_self]

theorem pathOf_single {first : Nat} (small : first < NINDIRECT1) : pathOf (NDIRECT + first) = [NDIRECT, first] := by
  rw [pathOf, if_neg (by omega), Nat.add_sub_cancel_left, if_pos small]

theorem pathOf_double {first second : Nat} (small : first < NINDIRECT1) (small' : second < NINDIRECT1) :
    pathOf (NDIRECT + NINDIRECT1 + (first * NINDIRECT1 + second)) = [NDIRECT + 1, first, second] := by
  have rest : NDIRECT + NINDIRECT1 + (first * NINDIRECT1 + second) - NDIRECT - NINDIRECT1 = first * NINDIRECT1 + second := by omega
  rw [pathOf, if_neg (by omega), if_neg (by omega), rest]
  simp only [NINDIRECT1, NINDIRECT2] at small small' ⊢
  rw [if_pos (by omega), show (first * 1024 + second) / 1024 = first by omega, show (first * 1024 + second) % 1024 = second by omega]

theorem pathOf_triple {first second third : Nat} (small' : second < NINDIRECT1) (small'' : third < NINDIRECT1) :
    pathOf (NDIRECT + NINDIRECT1 + NINDIRECT2 + (first * NINDIRECT2 + second * NINDIRECT1 + third)) = [NDIRECT + 2, first, second, third] := by
  have rest : NDIRECT + NINDIRECT1 + NINDIRECT2 + (first * NINDIRECT2 + second * NINDIRECT1 + third) - NDIRECT - NINDIRECT1 - NINDIRECT2 =
      first * NINDIRECT2 + second * NINDIRECT1 + third := by omega
  rw [pathOf, if_neg (by omega), if_neg (by omega), if_neg (by omega), rest]
  simp only [NINDIRECT1, NINDIRECT2] at small' small'' ⊢
  rw [show (first * 1048576 + second * 1024 + third) / 1048576 = first by omega,
    show (first * 1048576 + second * 1024 + third) % 1048576 / 1024 = second by omega,
    show (first * 1048576 + second * 1024 + third) % 1048576 % 1024 = third by omega]

/-- What is held is an index block or the block of an index. -/
theorem held_leaf {path : List Nat} (present : fs.held inum path ≠ 0) (leaf : ¬ BlockTree.Internal levels path) : ∃ bn, path = pathOf bn := by
  obtain ⟨slot, rest, rfl⟩ := List.exists_cons_of_ne_nil (BlockTree.nonempty_of_held present)
  have root : fs.held inum [slot] ≠ 0 := fun empty => present (held_beyond empty (by simp) rest)
  have small : slot < NBLOCKADDR := by
    by_contra large
    rw [held_root, roots, if_neg fun all => large all.2.1] at root
    exact root rfl
  have height : rest.length = levels slot := by
    have low : levels slot ≤ rest.length := Nat.not_lt.mp leaf
    have high : rest.length ≤ levels slot := by
      by_contra long
      exact present (if_neg long)
    omega
  rcases Nat.lt_or_ge slot NDIRECT with direct | indirect
  · rw [List.eq_nil_of_length_eq_zero (height.trans (by simp only [levels, NDIRECT] at direct ⊢; omega))]
    exact ⟨slot, (if_pos direct).symm⟩
  have slots : slot = NDIRECT ∨ slot = NDIRECT + 1 ∨ slot = NDIRECT + 2 := by
    simp only [NBLOCKADDR, NSUBDIRECT, NDIRECT] at small indirect ⊢
    omega
  obtain rfl | rfl | rfl := slots
  · obtain ⟨first, rfl⟩ := List.length_eq_one_iff.mp height
    have last : fs.held inum ([NDIRECT] ++ [first]) ≠ 0 := present
    exact ⟨_, (pathOf_single (entry_inside (by simp) last).1).symm⟩
  · obtain ⟨first, second, rfl⟩ := List.length_eq_two.mp height
    have last : fs.held inum ([NDIRECT + 1, first] ++ [second]) ≠ 0 := present
    obtain ⟨small', before⟩ := entry_inside (by simp) last
    have above : fs.held inum ([NDIRECT + 1] ++ [first]) ≠ 0 := before
    exact ⟨_, (pathOf_double (entry_inside (by simp) above).1 small').symm⟩
  · obtain ⟨first, second, third, rfl⟩ := List.length_eq_three.mp height
    have last : fs.held inum ([NDIRECT + 2, first, second] ++ [third]) ≠ 0 := present
    obtain ⟨small'', before⟩ := entry_inside (by simp) last
    have above : fs.held inum ([NDIRECT + 2, first] ++ [second]) ≠ 0 := before
    exact ⟨_, (pathOf_triple (entry_inside (by simp) above).1 small'').symm⟩

/-- The free blocks after some of an inode's blocks were given back. -/
theorem cut_frees {gone : List Nat → Prop} (before : fs.Volume origin) (later : after.Volume origin) (sb : after.sb = fs.sb)
    (cut : Cut fs.held after.held inum gone) :
    (freeBlocks after.sb after.store).card = (freeBlocks fs.sb fs.store).card + (unmappedData fs after inum).card + (droppedIndex fs after inum).card := by
  have vanished : ∀ path, fs.held inum path ≠ 0 → after.held inum path = 0 → gone path := fun path present missing => by
    by_contra stays
    rw [cut.kept inum path fun both => stays both.2] at missing
    exact present missing
  let data := (unmappedData fs after inum).image fun bn => fs.held inum (pathOf bn)
  have memData : ∀ block, block ∈ data ↔ block ≠ 0 ∧ ∃ bn, fs.held inum (pathOf bn) = block ∧ after.held inum (pathOf bn) = 0 := by
    intro block
    simp only [data, unmappedData, Finset.mem_image, Finset.mem_filter, Finset.mem_range, ne_eq, blockMap_eq_none]
    constructor
    · rintro ⟨bn, ⟨-, present, missing⟩, rfl⟩
      exact ⟨present, bn, rfl, missing⟩
    · rintro ⟨nonzero, bn, rfl, missing⟩
      exact ⟨bn, ⟨mapped_below nonzero, nonzero, missing⟩, rfl⟩
  have memIndex : ∀ block, block ∈ droppedIndex fs after inum ↔ block ≠ 0 ∧
      ∃ path, BlockTree.Internal levels path ∧ fs.held inum path = block ∧ after.held inum path = 0 := by
    intro block
    simp only [droppedIndex, Finset.mem_filter, Finset.mem_range, and_iff_right_iff_imp]
    rintro ⟨nonzero, path, -, rfl, -⟩
    exact (before.owned.inside _ _ nonzero).2
  have split : freeBlocks after.sb after.store = freeBlocks fs.sb fs.store ∪ data ∪ droppedIndex fs after inum := by
    ext block
    rw [Finset.mem_union, Finset.mem_union, memData, memIndex, mem_freeBlocks, mem_freeBlocks, sb]
    by_cases inside : fs.sb.InData block
    · rw [before.owned.clear_iff (sb ▸ later.owned) cut inside, and_iff_right inside.covered, and_iff_right inside.covered, or_assoc]
      have nonzero := before.owned.region_nonzero inside
      refine or_congr_right ⟨?_, ?_⟩
      · rintro ⟨path, isGone, rfl⟩
        have missing := cut.empty path isGone
        by_cases deep : BlockTree.Internal levels path
        · exact .inr ⟨nonzero, path, deep, rfl, missing⟩
        · obtain ⟨bn, rfl⟩ := held_leaf nonzero deep
          exact .inl ⟨nonzero, bn, rfl, missing⟩
      · rintro (⟨-, bn, rfl, missing⟩ | ⟨-, path, -, rfl, missing⟩)
        · exact ⟨_, vanished _ nonzero missing, rfl⟩
        · exact ⟨_, vanished _ nonzero missing, rfl⟩
    · have set : block < fs.sb.nbitmap * BPB → bitOf fs.sb fs.store block ≠ false ∧ bitOf fs.sb after.store block ≠ false := fun covered => by
        rw [before.reserved block covered inside, ← sb, later.reserved block (sb ▸ covered) (sb ▸ inside)]
        exact ⟨by decide, by decide⟩
      have outside : ∀ path, block ≠ 0 → fs.held inum path ≠ block := fun path nonzero same =>
        inside (same ▸ before.owned.inside _ _ (same ▸ nonzero))
      refine iff_of_false (fun both => (set both.1).2 both.2) ?_
      rintro ((both | ⟨nonzero, bn, same, -⟩) | ⟨nonzero, path, -, same, -⟩)
      · exact (set both.1).1 both.2
      · exact outside _ nonzero same
      · exact outside _ nonzero same
  have used : ∀ path, fs.held inum path ≠ 0 → fs.held inum path ∉ freeBlocks fs.sb fs.store := fun path present isFree => by
    rw [mem_freeBlocks, before.owned.used_of_held present] at isFree
    exact Bool.noConfusion isFree.2
  rw [split, Finset.card_union_of_disjoint, Finset.card_union_of_disjoint, Finset.card_image_of_injOn]
  · intro bn isMapped bn' _ same
    simp only [unmappedData, Finset.coe_filter, Set.mem_ofPred_eq, ne_eq, blockMap_eq_none] at isMapped
    exact pathOf_injective (before.owned.distinct _ _ _ _ isMapped.2.1 same).2
  · refine Finset.disjoint_left.mpr fun block isFree isData => ?_
    obtain ⟨nonzero, bn, rfl, -⟩ := (memData block).mp isData
    exact used _ nonzero isFree
  · refine Finset.disjoint_left.mpr fun block either isIndex => ?_
    obtain ⟨nonzero, path, deep, rfl, -⟩ := (memIndex block).mp isIndex
    rcases Finset.mem_union.mp either with isFree | isData
    · exact used _ nonzero isFree
    · obtain ⟨-, bn, same, -⟩ := (memData _).mp isData
      obtain ⟨-, rfl⟩ := before.owned.distinct _ _ _ _ nonzero same.symm
      exact pathOf_leaf bn deep

/-! The run of a truncation. -/

/-- No index block has to be added for the blocks `[lo, hi)`. -/
def Rooted (fs : FS) (ip lo hi : Nat) : Prop :=
  (fs.inode ip).copy.addrs (NDIRECT + 1) ≠ 0 ∨ ∀ bn, lo ≤ bn → bn < hi → ¬ InDouble bn

theorem Rooted.plain {lo hi bn : Nat} (rooted : fs.Rooted ip lo hi) (low : lo ≤ bn) (high : bn < hi) : ¬ AddsRoot fs ip bn := fun adds =>
  rooted.elim (fun present => present adds.2) fun outside => outside bn low high adds.1

/-- The body of the loop that shrinks a file. -/
def shrinkBlock (ip bn : Nat) : M Unit := do
  itrunc2sizeLogOpRestartHelper ip
  imap2blocknoFree ip bn

/-- The end of a truncation. -/
def setSize (ip size : Nat) : M Unit := do
  modifyCopy ip fun copy => { copy with size }
  iupdate ip

/-- What `itrunc2size` runs to make a file smaller. -/
theorem itrunc2size_smaller {size : Nat} (positive : size ≠ 0) (smaller : size < (fs.inode ip).copy.size)
    (limit : (fs.inode ip).copy.size ≤ MAXFILE_SIZE) : itrunc2size ip size fs =
      (do
        forRange (blocksOf size) (blocksOf (fs.inode ip).copy.size - blocksOf size) (shrinkBlock ip)
        setSize ip size) fs := by
  have order : blocksOf size ≤ blocksOf (fs.inode ip).copy.size := blocksOf_mono limit (Nat.le_of_lt smaller)
  have uint := blocksOf_uint limit
  have uint' : blocksOf size % 2 ^ 32 = blocksOf size := blocksOf_uint (by omega)
  unfold itrunc2size
  rw [bind_ok get_apply, if_neg (by omega), if_neg positive]
  dsimp only
  rw [bind_ok get_apply]
  by_cases same : blocksOf (fs.inode ip).copy.size ≤ blocksOf size
  · rw [if_pos same, uint, Nat.sub_eq_zero_of_le same, Nat.sub_eq_zero_of_le order, forRange, forRange, bind_ok (pure_apply ()),
      bind_ok (pure_apply ())]
    rfl
  · rw [if_neg same, uint']
    rfl

/-- Where a run of routines on `ip` has left the block map. -/
structure CutTo (origin : Origin) (ip : Nat) (fs : FS) (gone : List Nat → Prop) (after : FS) : Prop where
  running : after.Running origin ip
  keeps : Keeps ip fs after
  cut : Cut fs.held after.held (fs.inode ip).inum gone

theorem CutTo.refl (running : fs.Running origin ip) : CutTo origin ip fs (fun _ => False) fs := ⟨running, .refl ip fs, .refl ..⟩

/-- Each round takes one block out of its place when no root has to be added. -/
theorem shrinkBlocks_cut (plain : origin.Plain) (running : fs.Running origin ip) {lo count : Nat} (rooted : fs.Rooted ip lo (lo + count)) :
    Ensures (forRange lo count (shrinkBlock ip)) fs (fun _ after => CutTo origin ip fs (fun path => ∃ bn, lo ≤ bn ∧ bn < lo + count ∧ path = pathOf bn) after)
      fun _ _ => True := by
  refine Ensures.forRange (fun i current => CutTo origin ip fs (fun path => ∃ bn, lo ≤ bn ∧ bn < i ∧ path = pathOf bn) current) ?_
    fun i current low high reached => ?_
  · exact ⟨running, .refl ip fs, (Cut.refl ..).congr fun _ => iff_of_false (by rintro ⟨bn, low, high, -⟩; omega) id⟩
  refine Ensures.bind ((itrunc2sizeLogOpRestartHelper_spec reached.running).mono (fun _ _ same => same) fun _ _ _ => trivial) ?_
  rintro _ ready ⟨steady, -, -, -, held⟩
  refine (imap2blocknoFree_drops steady.running (fun roomy => absurd roomy plain.roomy) fun bounded => absurd bounded plain.bounded).mono ?_
    fun _ _ _ => trivial
  rintro _ after ⟨dropped, -⟩
  have keeps := reached.keeps.trans steady.keeps
  have root : (ready.inode ip).copy.addrs (NDIRECT + 1) = (fs.inode ip).copy.addrs (NDIRECT + 1) := by
    rw [← steady.running.root (by decide), ← running.root (by decide), held, keeps.inum]
    refine reached.cut.kept _ _ ?_
    rintro ⟨-, bn, -, -, path⟩
    exact pathOf_leaf bn (path ▸ by decide)
  have noRoot : ¬ AddsRoot ready ip i := fun adds => rooted.plain low high ⟨adds.1, root ▸ adds.2⟩
  refine ⟨dropped.wrote.running, keeps.trans dropped.wrote.keeps, ?_⟩
  rw [dropped.held noRoot, held, keeps.inum]
  refine (reached.cut.update (pathOf i)).congr fun path => ⟨?_, ?_⟩
  · rintro ⟨bn, low', high', rfl⟩
    rcases Nat.lt_succ_iff_lt_or_eq.mp high' with earlier | rfl
    · exact .inl ⟨bn, low', earlier, rfl⟩
    · exact .inr rfl
  · rintro (⟨bn, low', high', rfl⟩ | rfl)
    · exact ⟨bn, low', Nat.lt_succ_of_lt high', rfl⟩
    · exact ⟨i, low, Nat.lt_succ_self i, rfl⟩

theorem setSize_cut {gone : List Nat → Prop} {middle : FS} (reached : CutTo origin ip fs gone middle) (size : Nat) :
    Ensures (setSize ip size) middle (fun _ after => CutTo origin ip fs gone after) fun _ _ => True := by
  refine Ensures.bind (reached.running.setCopy (fun copy => { copy with size }) (fun _ => rfl) fun _ => rfl) ?_
  rintro _ sized ⟨running, keeps, -, -, store, copy⟩
  have held : sized.held = middle.held :=
    held_congr (keeps.roots_same reached.running.volume.table reached.running.loaded (by rw [copy])) fun _ _ _ _ _ => by rw [store]
  refine ((iupdate_spec running).and (iupdate_held running)).mono ?_ fun _ _ _ => trivial
  rintro _ after ⟨⟨steady, -⟩, same, -⟩
  exact ⟨steady.running, (reached.keeps.trans keeps).trans steady.keeps, by rw [same, held]; exact reached.cut⟩

/-- The paths a truncation to `size` gives back. -/
def GoneFor (fs : FS) (ip size : Nat) (path : List Nat) : Prop :=
  size ≠ (fs.inode ip).copy.size ∧
    (size = 0 ∨ ∃ bn, blocksOf size ≤ bn ∧ bn < blocksOf (fs.inode ip).copy.size ∧ path = pathOf bn)

/-- The condition on the inode for a truncation to `size` to take no block. -/
def ShrinksClean (fs : FS) (ip size : Nat) : Prop := size = 0 ∨ fs.Rooted ip (blocksOf size) (blocksOf (fs.inode ip).copy.size)

theorem itrunc2size_cut {size : Nat} (plain : origin.Plain) (running : fs.Running origin ip) (limit : (fs.inode ip).copy.size ≤ MAXFILE_SIZE)
    (smaller : size ≤ (fs.inode ip).copy.size) (clean : fs.ShrinksClean ip size) :
    Ensures (itrunc2size ip size) fs (fun _ after => CutTo origin ip fs (fs.GoneFor ip size) after) fun _ _ => True := by
  rcases Nat.eq_or_lt_of_le smaller with same | less
  · unfold itrunc2size
    rw [ensures_bind, ensures_get, if_pos same]
    refine (setSize_cut (.refl running) size).weaken fun _ after reached => ⟨reached.running, reached.keeps, reached.cut.congr fun path => ?_⟩
    exact iff_of_false (fun gone => gone.1 same) id
  by_cases whole : size = 0
  · subst whole
    unfold itrunc2size
    rw [ensures_bind, ensures_get, if_neg (by omega), if_pos rfl]
    refine Ensures.bind ((itrunc_empties running).mono (fun _ _ same => same) fun _ _ _ => trivial) ?_
    rintro _ emptied ⟨⟨acted, -, -, -⟩, cut⟩
    have none : blocksOf 0 = 0 := by decide
    dsimp only
    rw [ensures_bind, ensures_get, acted.size, if_pos (Nat.le_refl _)]
    simp only [none, Nat.zero_mod, Nat.sub_zero, forRange]
    rw [ensures_bind, ensures_pure]
    have reached : CutTo origin ip fs (fs.GoneFor ip 0) emptied :=
      ⟨acted.running, acted.keeps, cut.congr fun path => iff_of_true ⟨by omega, .inl rfl⟩ trivial⟩
    exact setSize_cut reached 0
  · have order : blocksOf size ≤ blocksOf (fs.inode ip).copy.size := blocksOf_mono limit smaller
    have rooted := clean.resolve_left whole
    rw [← Nat.add_sub_cancel' order] at rooted
    have run := itrunc2size_smaller whole less limit
    have loop : Ensures (do
        forRange (blocksOf size) (blocksOf (fs.inode ip).copy.size - blocksOf size) (shrinkBlock ip)
        setSize ip size) fs (fun _ after => CutTo origin ip fs (fs.GoneFor ip size) after) fun _ _ => True := by
      refine Ensures.bind (shrinkBlocks_cut plain running rooted) fun _ middle reached => setSize_cut ⟨reached.running, reached.keeps, ?_⟩ size
      rw [Nat.add_sub_cancel' order] at reached
      refine reached.cut.congr fun path => ⟨fun gone => gone.2.resolve_left whole, fun gone => ⟨by omega, .inr gone⟩⟩
    exact loop.of_eq run

/-! Blocks taken on the way. -/

section
variable {p : Inode → List Nat → Prop} {ok : Exit → Prop} (admits : ∀ reason, OffMap reason → ok reason)
include admits

theorem shrinkBlock_guards {bn : Nat} (small : bn < MAXFILE_BLOCKS)
    (slots : ∀ inode allocated slot, slot < NDIRECT → p inode allocated →
      p { inode with copy := { inode.copy with addrs := assign inode.copy.addrs slot 0 } } allocated)
    (root : InDouble bn → Guards ip p ok (addrsFindOrAlloc ip (NDIRECT + 1))) : Guards ip p ok (shrinkBlock ip bn) :=
  .bind ((itrunc2sizeLogOpRestartHelper_calm ip).guards p admits) fun _ => imap2blocknoFree_guards admits small slots root

theorem setSize_guards {size : Nat} (sizes : ∀ inode allocated, p inode allocated → p { inode with copy := { inode.copy with size } } allocated)
    (stamps : ∀ inode allocated now, p inode allocated → p { inode with copy := { inode.copy with st_ctimespec := now } } allocated) :
    Guards ip p ok (setSize ip size) :=
  .bind (modifyInode_guards sizes) fun _ => iupdate_guards admits stamps

end

/-- A block is taken when the root is missing and has to be found. -/
theorem imap2blocknoFree_takes {bn : Nat} (adds : AddsRoot fs ip bn) : Ensures (imap2blocknoFree ip bn) fs
    (fun _ after => (allocatedBlocks fs.history).length < (allocatedBlocks after.history).length) fun _ _ => True := by
  obtain ⟨double, missing⟩ := adds
  have low := double.1
  have high := double.2
  have calm : ∀ {α : Type} {program : M α} {current : FS}, Calm program →
      (allocatedBlocks fs.history).length < (allocatedBlocks current.history).length →
      Ensures program current (fun _ after => (allocatedBlocks fs.history).length < (allocatedBlocks after.history).length) fun _ _ => True :=
    fun calm more => (calm _).mono (fun _ _ same => by rw [same.2]; exact more) fun _ _ _ => trivial
  unfold imap2blocknoFree assertNoNeedToRestartOpInImap2blockno
  rw [ensures_bind, ensures_bind, ensures_get, ensures_ite]
  refine ⟨fun _ => (ensures_stop _).mpr trivial, fun _ => ?_⟩
  rw [ensures_pure, if_neg (by omega)]
  dsimp only
  rw [ensures_bind, ensures_get, if_neg (by omega), if_pos (by omega), ensures_bind]
  unfold addrsFindOrAlloc
  rw [ensures_bind, ensures_get]
  dsimp only
  rw [if_pos missing]
  refine Ensures.bind ((blockAlloc_takes ip fs).mono (fun _ _ same => same) fun _ _ _ => trivial) ?_
  rintro block taken ⟨-, took⟩
  unfold modifyCopy modifyInode
  rw [ensures_bind, ensures_modify, ensures_pure]
  refine calm (.bind (assert_calm ?_) fun _ => indexFollow_calm (fun _ => indexFreeSafe_calm _ _ _) _ _) ?_
  · simp only [NDIRECT, NINDIRECT1, NINDIRECT2, BSIZE] at high ⊢
    omega
  · rw [took]
    exact Nat.lt_succ_self _

/-- A loop over a block under a missing root takes a block. -/
theorem shrinkBlocks_take {lo count bn : Nat} (missing : (fs.inode ip).copy.addrs (NDIRECT + 1) = 0) (low : lo ≤ bn) (high : bn < lo + count)
    (double : InDouble bn) (within : lo + count ≤ MAXFILE_BLOCKS) :
    Ensures (forRange lo count (shrinkBlock ip)) fs
      (fun _ after => (allocatedBlocks fs.history).length < (allocatedBlocks after.history).length) fun _ _ => True := by
  let taken := (allocatedBlocks fs.history).length
  let before : Inode → List Nat → Prop := fun inode allocated => inode.copy.addrs (NDIRECT + 1) = 0 ∧ allocated.length = taken
  let later : Inode → List Nat → Prop := fun _ allocated => taken < allocated.length
  have slots : ∀ (inode : Inode) slot, slot < NDIRECT → assign inode.copy.addrs slot 0 (NDIRECT + 1) = inode.copy.addrs (NDIRECT + 1) :=
    fun inode slot direct => assign_of_ne (by omega) _ _
  refine Ensures.weaken (Ensures.forRange (fun i current => OnEntry ip later current ∨
    (∀ j, lo ≤ j → j < i → ¬ InDouble j) ∧ OnEntry ip before current) ?_ fun i current low' high' reached => ?_) fun _ after reached => ?_
  · exact .inr ⟨fun j low high => by omega, missing, rfl⟩
  · have small : i < MAXFILE_BLOCKS := by omega
    obtain more | ⟨none, same⟩ := reached
    · refine (shrinkBlock_guards (fun _ _ => trivial) small (fun _ _ _ _ more => more) (fun _ => ?_) current more).mono
        (fun _ _ more => .inl more) fun _ _ _ => trivial
      exact addrsFindOrAlloc_guards (fun _ _ => trivial) trivial (fun _ _ _ more => Nat.lt_succ_of_lt more) fun _ _ _ more => more
    · by_cases here : InDouble i
      · refine Ensures.bind ((itrunc2sizeLogOpRestartHelper_calm ip current).mono (fun _ _ same => same) fun _ _ _ => trivial) ?_
        rintro _ ready ⟨inode, allocated⟩
        have adds : AddsRoot ready ip i := ⟨here, by rw [inode]; exact same.1⟩
        refine (imap2blocknoFree_takes adds).weaken fun _ after more => .inl ?_
        rw [allocated, same.2] at more
        exact more
      · refine (shrinkBlock_guards (fun _ _ => trivial) small (fun inode _ slot direct same => ⟨(slots inode slot direct).trans same.1, same.2⟩)
          (fun inside => absurd inside here) current same).mono (fun _ _ same => .inr ⟨fun j low high => ?_, same⟩) fun _ _ _ => trivial
        rcases Nat.lt_succ_iff_lt_or_eq.mp high with earlier | rfl
        · exact none j low earlier
        · exact here
  · exact reached.resolve_right fun both => both.1 bn low high double

/-- Nothing is taken from a clean start, whether the truncation ends or stops. -/
theorem itrunc2size_calm {size : Nat} (running : fs.Running origin ip) (limit : (fs.inode ip).copy.size ≤ MAXFILE_SIZE)
    (smaller : size ≤ (fs.inode ip).copy.size) (clean : fs.ShrinksClean ip size) :
    Ensures (itrunc2size ip size) fs (fun _ after => allocatedBlocks after.history = allocatedBlocks fs.history) fun reason after =>
      allocatedBlocks after.history = allocatedBlocks fs.history ∧ reason ≠ .errExit .noFreeSpace := by
  let still : Inode → List Nat → Prop := fun _ allocated => allocated = allocatedBlocks fs.history
  let admitted : Exit → Prop := fun reason => reason ≠ .errExit .noFreeSpace
  have admits : ∀ reason, OffMap reason → admitted reason := fun _ off => off.1
  have finish : ∀ current, OnEntry ip still current → Ensures (setSize ip size) current
      (fun _ after => allocatedBlocks after.history = allocatedBlocks fs.history) fun reason after =>
        allocatedBlocks after.history = allocatedBlocks fs.history ∧ reason ≠ .errExit .noFreeSpace := fun current same =>
    setSize_guards admits (fun _ _ same => same) (fun _ _ _ same => same) current same
  rcases Nat.eq_or_lt_of_le smaller with same | less
  · unfold itrunc2size
    rw [ensures_bind, ensures_get, if_pos same]
    exact finish fs rfl
  by_cases whole : size = 0
  · subst whole
    unfold itrunc2size
    rw [ensures_bind, ensures_get, if_neg (by omega), if_pos rfl]
    have guards : Guards ip still admitted (itrunc ip) := itrunc_guards admits (fun _ _ same => same) fun _ _ _ same => same
    refine Ensures.bind (((itrunc_empties running).and (guards fs rfl)).mono (fun _ _ both => both) fun _ _ both => both.2) ?_
    rintro _ emptied ⟨⟨⟨acted, -, -, -⟩, -⟩, same⟩
    have none : blocksOf 0 = 0 := by decide
    dsimp only
    rw [ensures_bind, ensures_get, acted.size, if_pos (Nat.le_refl _)]
    simp only [none, Nat.zero_mod, Nat.sub_zero, forRange]
    rw [ensures_bind, ensures_pure]
    exact finish emptied same
  · have order : blocksOf size ≤ blocksOf (fs.inode ip).copy.size := blocksOf_mono limit smaller
    have within : blocksOf (fs.inode ip).copy.size ≤ MAXFILE_BLOCKS := blocksOf_le limit
    have loop : Ensures (forRange (blocksOf size) (blocksOf (fs.inode ip).copy.size - blocksOf size) (shrinkBlock ip)) fs
        (fun _ after => OnEntry ip still after) fun reason after => OnEntry ip still after ∧ admitted reason := by
      obtain present | outside := clean.resolve_left whole
      · let rooted : Inode → List Nat → Prop := fun inode allocated =>
          inode.copy.addrs (NDIRECT + 1) ≠ 0 ∧ allocated = allocatedBlocks fs.history
        have each : ∀ i, blocksOf size ≤ i → i < blocksOf size + (blocksOf (fs.inode ip).copy.size - blocksOf size) →
            Guards ip rooted admitted (shrinkBlock ip i) := fun i low high => by
          refine shrinkBlock_guards admits (by omega) (fun inode _ slot direct same => ⟨fun empty => same.1 ?_, same.2⟩) fun _ =>
            addrsFindOrAlloc_kept fun _ _ same => same.1
          have other : assign inode.copy.addrs slot 0 (NDIRECT + 1) = inode.copy.addrs (NDIRECT + 1) := assign_of_ne (by omega) _ _
          exact other.symm.trans empty
        exact (Preserves.forRange each fs ⟨present, rfl⟩).mono (fun _ _ same => same.2) fun _ _ same => ⟨same.1.2, same.2⟩
      · have each : ∀ i, blocksOf size ≤ i → i < blocksOf size + (blocksOf (fs.inode ip).copy.size - blocksOf size) →
            Guards ip still admitted (shrinkBlock ip i) := fun i low high =>
          shrinkBlock_guards admits (by omega) (fun _ _ _ _ same => same) fun double => absurd double (outside i low (by omega))
        exact Preserves.forRange each fs rfl
    have whole' : Ensures (do
        forRange (blocksOf size) (blocksOf (fs.inode ip).copy.size - blocksOf size) (shrinkBlock ip)
        setSize ip size) fs (fun _ after => allocatedBlocks after.history = allocatedBlocks fs.history) fun reason after =>
        allocatedBlocks after.history = allocatedBlocks fs.history ∧ reason ≠ .errExit .noFreeSpace :=
      Ensures.bind loop fun _ middle same => finish middle same
    exact whole'.of_eq (itrunc2size_smaller whole less limit)

/-- Otherwise every truncation that returns has taken a block. -/
theorem itrunc2size_takes {size : Nat} (limit : (fs.inode ip).copy.size ≤ MAXFILE_SIZE) (smaller : size ≤ (fs.inode ip).copy.size)
    (unclean : ¬ fs.ShrinksClean ip size) :
    Ensures (itrunc2size ip size) fs (fun _ after => (allocatedBlocks fs.history).length < (allocatedBlocks after.history).length) fun _ _ => True := by
  obtain ⟨positive, unrooted⟩ := not_or.mp unclean
  obtain ⟨missing, inside⟩ := not_or.mp unrooted
  push Not at missing inside
  obtain ⟨bn, low, high, double⟩ := inside
  have less : size < (fs.inode ip).copy.size := by
    refine Nat.lt_of_le_of_ne smaller fun same => ?_
    rw [same] at low
    omega
  have order : blocksOf size ≤ blocksOf (fs.inode ip).copy.size := blocksOf_mono limit smaller
  have within : blocksOf (fs.inode ip).copy.size ≤ MAXFILE_BLOCKS := blocksOf_le limit
  have loop : Ensures (do
      forRange (blocksOf size) (blocksOf (fs.inode ip).copy.size - blocksOf size) (shrinkBlock ip)
      setSize ip size) fs (fun _ after => (allocatedBlocks fs.history).length < (allocatedBlocks after.history).length) fun _ _ => True := by
    refine Ensures.bind (shrinkBlocks_take missing low (by omega) double (by omega)) fun _ middle more => ?_
    have finish : Guards ip (fun _ allocated => (allocatedBlocks fs.history).length < allocated.length) (fun _ => True) (setSize ip size) :=
      setSize_guards (fun _ _ => trivial) (fun _ _ more => more) fun _ _ _ more => more
    exact (finish middle more).mono (fun _ _ more => more) fun _ _ _ => trivial
  exact loop.of_eq (itrunc2size_smaller positive less limit)

/-- What a truncation to a size not larger leaves when it takes no block. -/
structure Shrunk (fs : FS) (ip size : Nat) (after : FS) : Prop where
  taken : allocatedBlocks after.history = allocatedBlocks fs.history
  unmapped : ∀ bn, (size + (BSIZE - 1)) / BSIZE ≤ bn → bn < ((fs.inode ip).copy.size + (BSIZE - 1)) / BSIZE →
    after.blockMap (fs.inode ip).inum bn = none
  kept : ∀ bn < (size + (BSIZE - 1)) / BSIZE, after.blockMap (fs.inode ip).inum bn = fs.blockMap (fs.inode ip).inum bn
  emptied : size = 0 → (fs.inode ip).copy.size ≠ 0 → ∀ path, after.held (fs.inode ip).inum path = 0
  freed : (freeBlocks after.sb after.store).card = (freeBlocks fs.sb fs.store).card + (unmappedData fs after (fs.inode ip).inum).card +
    if size = 0 then (droppedIndex fs after (fs.inode ip).inum).card else 0

/-- A truncation to a size not larger takes no block, unmaps exactly the blocks past the new size and frees as
many blocks as it unmaps, if and only if it does not walk a missing tree of two levels. -/
theorem shrink_takes_nothing_iff {size : Nat} (ready : fs.Ready) (loaded : fs.Loaded ip) (inOp : 1 ≤ fs.log.outstanding)
    (limit : (fs.inode ip).copy.size ≤ MAXFILE_SIZE) (smaller : size ≤ (fs.inode ip).copy.size) :
    (∀ after, itrunc2size ip size fs = (.ok (), after) → (Shrunk fs ip size after ↔ fs.ShrinksClean ip size)) ∧
      (fs.ShrinksClean ip size → ∀ reason after, itrunc2size ip size fs = (.error reason, after) →
        allocatedBlocks after.history = allocatedBlocks fs.history ∧ reason ≠ .errExit .noFreeSpace) := by
  have running := ready.running loaded inOp
  have plain := fs.here_plain
  refine ⟨fun after returned => ⟨fun shrunk => ?_, fun clean => ?_⟩, fun clean reason after stopped =>
    (itrunc2size_calm running limit smaller clean).stopped stopped⟩
  · by_contra unclean
    have more := (itrunc2size_takes limit smaller unclean).returned returned
    rw [shrunk.taken] at more
    exact Nat.lt_irrefl _ more
  · obtain ⟨running', keeps, cut⟩ := (itrunc2size_cut plain running limit smaller clean).returned returned
    have freed := cut_frees running.volume running'.volume keeps.sb cut
    refine ⟨(itrunc2size_calm running limit smaller clean).returned returned, ?_, ?_, fun whole positive path => ?_, ?_⟩
    · intro bn low high
      rw [← blocksOf_small (Nat.le_trans smaller limit)] at low
      rw [← blocksOf_small limit] at high
      refine blockMap_eq_none.mpr (cut.empty _ ⟨fun same => ?_, .inr ⟨bn, low, high, rfl⟩⟩)
      rw [same] at low
      omega
    · intro bn low
      rw [← blocksOf_small (Nat.le_trans smaller limit)] at low
      refine blockMap_congr (cut.kept _ _ ?_)
      rintro ⟨-, -, rfl | ⟨bn', low', -, path⟩⟩
      · have none : blocksOf 0 = 0 := by decide
        omega
      · obtain rfl := pathOf_injective path
        omega
    · exact cut.empty path ⟨by omega, .inl whole⟩
    · rw [freed]
      split
      · rfl
      next positive =>
        have none : droppedIndex fs after (fs.inode ip).inum = ∅ := by
          refine Finset.eq_empty_of_forall_notMem fun block dropped => ?_
          simp only [droppedIndex, Finset.mem_filter] at dropped
          obtain ⟨-, nonzero, path, deep, rfl, missing⟩ := dropped
          rw [cut.kept] at missing
          · exact nonzero missing
          · rintro ⟨-, -, zero | ⟨bn, -, -, rfl⟩⟩
            · exact positive zero
            · exact pathOf_leaf bn deep
        rw [none, Finset.card_empty]

/-- An operation on a new file that wrote one byte at `off`, and the truncation that follows. -/
theorem freshFile_shrinks {off size blocks blocks' : Nat} (inside : off ≤ MAXFILE_SIZE)
    (computed : valueOf (do
      beginOp
      ilock 0
      let _ ← inodeWriteNbytesLocked 0 [7] off
      let fs : FS ← get
      itrunc2size 0 size
      let after : FS ← get
      pure (fs.log.outstanding, (fs.inode 0).copy.size, (allocatedBlocks fs.history).length, (allocatedBlocks after.history).length)) freshFile =
        some (1, off + 1, blocks, blocks')) :
    ∃ fs after, fs.Ready ∧ fs.Loaded 0 ∧ 1 ≤ fs.log.outstanding ∧ (fs.inode 0).copy.size = off + 1 ∧
      itrunc2size 0 size fs = (.ok (), after) ∧ (allocatedBlocks fs.history).length = blocks ∧ (allocatedBlocks after.history).length = blocks' := by
  obtain ⟨start, ready, loaded, inOp, -, rest⟩ := freshFile_wellFormed.opens ⟨by decide, by decide⟩ (returns_of_valueOf computed)
  obtain ⟨_, fs, wrote, rest⟩ := bind_returns rest
  rw [bind_ok get_apply] at rest
  obtain ⟨_, after, shrinks, last⟩ := bind_returns rest
  rw [bind_ok get_apply] at last
  obtain ⟨outstanding, size', taken, taken'⟩ : fs.log.outstanding = 1 ∧ (fs.inode 0).copy.size = off + 1 ∧
      (allocatedBlocks fs.history).length = blocks ∧ (allocatedBlocks after.history).length = blocks' := by
    simpa using congrArg Prod.fst last
  have running := ready.running loaded inOp
  obtain ⟨-, acted, -⟩ := (inodeWriteNbytesLocked_spec running (fun roomy => roomy.elim) inside (fun bounded => bounded.elim)
    (by decide)).returned wrote
  exact ⟨fs, after, acted.running.usable.ready, acted.running.loaded, by rw [outstanding], size', shrinks, taken, taken'⟩

/-- The second block of a new file is cut off. -/
theorem shrink_takes_nothing_two : ∃ fs after, itrunc2size 0 1 fs = (.ok (), after) ∧ Shrunk fs 0 1 after := by
  have computed : valueOf (do
      beginOp
      ilock 0
      let _ ← inodeWriteNbytesLocked 0 [7] 4096
      let fs : FS ← get
      itrunc2size 0 1
      let after : FS ← get
      pure (fs.log.outstanding, (fs.inode 0).copy.size, (allocatedBlocks fs.history).length, (allocatedBlocks after.history).length)) freshFile =
        some (1, 4097, 1, 1) := by decide +kernel
  obtain ⟨fs, after, ready, loaded, inOp, size, returned, -⟩ := freshFile_shrinks (by decide) computed
  refine ⟨fs, after, returned, ((shrink_takes_nothing_iff ready loaded inOp (by rw [size]; decide) (by rw [size]; decide)).1 after returned).mpr ?_⟩
  refine .inr (.inr fun bn _ high => ?_)
  have blocks : blocksOf (4096 + 1) = 2 := by decide
  rw [size, blocks] at high
  intro double
  have low := double.1
  simp only [NDIRECT, NINDIRECT1] at low
  omega

/-- A sparse file whose only block is in the tree of three levels loses the last block of the tree of two
levels, which it never had: an index block is taken for it. -/
theorem sparse_shrink_takes : ∃ fs after, fs.Ready ∧ fs.Loaded 0 ∧ 1 ≤ fs.log.outstanding ∧ (fs.inode 0).copy.size ≤ MAXFILE_SIZE ∧
    1049642 * 4096 ≤ (fs.inode 0).copy.size ∧ itrunc2size 0 (1049642 * 4096) fs = (.ok (), after) ∧ ¬ Shrunk fs 0 (1049642 * 4096) after := by
  have computed : valueOf (do
      beginOp
      ilock 0
      let _ ← inodeWriteNbytesLocked 0 [7] (1049643 * 4096)
      let fs : FS ← get
      itrunc2size 0 (1049642 * 4096)
      let after : FS ← get
      pure (fs.log.outstanding, (fs.inode 0).copy.size, (allocatedBlocks fs.history).length, (allocatedBlocks after.history).length)) freshFile =
        some (1, 1049643 * 4096 + 1, 4, 5) := by decide +kernel
  obtain ⟨fs, after, ready, loaded, inOp, size, returned, taken, taken'⟩ := freshFile_shrinks (by decide) computed
  refine ⟨fs, after, ready, loaded, inOp, by rw [size]; decide, by rw [size]; decide, returned, fun shrunk => ?_⟩
  rw [shrunk.taken, taken] at taken'
  exact absurd taken' (by decide)

end FS
end Myfuse
