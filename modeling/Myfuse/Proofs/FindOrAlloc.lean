import Myfuse.Proofs.FileFrames

/-! `imap2blockno`: every step of the walk finds a block or puts a fresh zeroed
one in its place, so the block maps grow and no byte of any file changes. -/

namespace Myfuse
open Library Library.Exec

namespace FS
variable {origin : Origin} {fs after : FS} {ip : Nat}

theorem entry_setField (block : Block) {index : Nat} (inside : index < NINDIRECT1) {value : Nat} (uint : value < 2 ^ 32)
    (other : Nat) : entry (block.setField (4 * index) 4 value) other = if other = index then value else entry block other := by
  unfold entry
  by_cases here : other = index
  · rw [if_pos here, here, Bytes.field_setField _ _ _ _ (by simp only [NINDIRECT1, BSIZE] at inside ⊢; omega)]
    exact Nat.mod_eq_of_lt uint
  · rw [if_neg here, Bytes.field_setField_other _ (by omega)]

/-- A file block is no index block. -/
theorem leaf_not_index (distinct : fs.held.Distinct) {owner bn owner' : Nat} {path : List Nat}
    (holds : fs.held owner (pathOf bn) ≠ 0) (deep : BlockTree.Internal levels path) :
    fs.held owner (pathOf bn) ≠ fs.held owner' path := fun same => by
  obtain ⟨-, isPath⟩ := distinct _ _ _ _ holds same
  exact pathOf_leaf bn (isPath ▸ deep)

/-- A free block is linked at an empty place. -/
theorem Volume.link (volume : fs.Volume origin) (keeps : Keeps ip fs after) (allocator : after.Allocator origin)
    {owner block : Nat} {path : List Nat} (heldIs : after.held = BlockTree.update fs.held owner path block)
    (empty : fs.held owner path = 0) (data : fs.sb.InData block) (clear : bitOf fs.sb fs.store block = false)
    (bits : ∀ other < fs.sb.nbitmap * BPB,
      bitOf fs.sb after.store other = if other = block then true else bitOf fs.sb fs.store other) : after.Volume origin where
  toAllocator := allocator
  table := keeps.table volume.table
  owned := by
    rw [heldIs, keeps.sb]
    exact volume.owned.link data clear empty fun other inside => bits other inside.covered

/-- A held block is taken out of its place and freed. -/
theorem Volume.unlink (volume : fs.Volume origin) (keeps : Keeps ip fs after) (allocator : after.Allocator origin)
    {owner : Nat} {path : List Nat} (heldIs : after.held = BlockTree.update fs.held owner path 0)
    (holds : fs.held owner path ≠ 0)
    (bits : ∀ other < fs.sb.nbitmap * BPB,
      bitOf fs.sb after.store other = if other = fs.held owner path then false else bitOf fs.sb fs.store other) :
    after.Volume origin where
  toAllocator := allocator
  table := keeps.table volume.table
  owned := by
    rw [heldIs, keeps.sb]
    exact volume.owned.unlink holds fun other inside => bits other inside.covered

/-- The block map of `ip` has grown, or nothing has happened. -/
structure Grown (origin : Origin) (ip : Nat) (fs after : FS) : Prop where
  volume : after.Volume origin
  keeps : Keeps ip fs after
  content : after.content = fs.content
  copy : ∃ addrs, (after.inode ip).copy = { (fs.inode ip).copy with addrs }

theorem Grown.refl (volume : fs.Volume origin) : Grown origin ip fs fs := ⟨volume, .refl ip fs, rfl, _, rfl⟩

theorem Grown.trans {middle : FS} (head : Grown origin ip fs middle) (tail : Grown origin ip middle after) :
    Grown origin ip fs after := by
  refine ⟨tail.volume, head.keeps.trans tail.keeps, tail.content.trans head.content, ?_⟩
  obtain ⟨addrs, first⟩ := head.copy
  obtain ⟨addrs', second⟩ := tail.copy
  exact ⟨addrs', by rw [second, first]⟩

/-- The block at a path was found or allocated. -/
structure Found (origin : Origin) (ip : Nat) (fs : FS) (path : List Nat) (block : Nat) (after : FS) : Prop where
  grown : Grown origin ip fs after
  nonzero : block ≠ 0
  holds : after.held (fs.inode ip).inum path = block

/-- A free block was zeroed and put at an empty place. -/
structure Linked (origin : Origin) (ip : Nat) (fs : FS) (path : List Nat) (block : Nat) (after : FS) : Prop where
  grown : Grown origin ip fs after
  empty : fs.held (fs.inode ip).inum path = 0
  data : fs.sb.InData block
  clear : bitOf fs.sb fs.store block = false
  zero : after.store block = Bytes.zero
  held : after.held = BlockTree.update fs.held (fs.inode ip).inum path block
  bits : ∀ other < fs.sb.nbitmap * BPB,
    bitOf fs.sb after.store other = if other = block then true else bitOf fs.sb fs.store other

/-- One step of a walk: the block at a path was there, or has been put there. -/
def Reached (origin : Origin) (ip : Nat) (fs : FS) (path : List Nat) (block : Nat) (after : FS) : Prop :=
  (after = fs ∧ fs.held (fs.inode ip).inum path = block ∧ block ≠ 0) ∨ Linked origin ip fs path block after

theorem Linked.nonzero {path : List Nat} {block : Nat} (linked : Linked origin ip fs path block after) : block ≠ 0 := by
  rintro rfl
  exact Superblock.zero_not_data linked.grown.volume.layout (linked.grown.keeps.sb ▸ linked.data)

theorem Reached.found {path : List Nat} {block : Nat} (volume : fs.Volume origin) (reached : Reached origin ip fs path block after) :
    Found origin ip fs path block after := by
  obtain ⟨rfl, holds, nonzero⟩ | linked := reached
  · exact ⟨.refl volume, nonzero, holds⟩
  · exact ⟨linked.grown, linked.nonzero, by rw [linked.held, BlockTree.update_same]⟩

theorem addrsFindOrAlloc_reaches (volume : fs.Volume origin) (loaded : fs.Loaded ip) (inOp : 1 ≤ fs.log.outstanding) {slot : Nat}
    (small : slot < NBLOCKADDR) : Ensures (addrsFindOrAlloc ip slot) fs (Reached origin ip fs [slot])
      fun reason after => fs.held (fs.inode ip).inum [slot] = 0 ∧ AllocFails reason after := by
  have root : fs.held (fs.inode ip).inum [slot] = (fs.inode ip).copy.addrs slot := by
    rw [held_root, roots_loaded volume.table loaded, if_pos small]
  unfold addrsFindOrAlloc
  rw [ensures_bind, ensures_get]
  dsimp only
  split
  next empty =>
    rw [empty] at root
    refine Ensures.bind ((blockAlloc_took volume.toAllocator inOp).mono (fun _ _ same => same) fun _ _ fails => ⟨root, fails⟩) ?_
    rintro block middle ⟨took, allocator⟩
    unfold modifyCopy modifyInode
    rw [ensures_bind, ensures_modify, ensures_pure]
    have moved : Keeps ip fs middle := by
      refine .of_same took.sb took.ninode took.inode took.outstanding (fun inum inside => ?_) (volume.table.inside ip loaded.1)
      refine took.store _ (Superblock.iblock_not_bitmap volume.layout inside) fun same => ?_
      exact Superblock.iblock_not_data volume.layout inside (same ▸ took.data)
    have keeps := moved.trans (.copy (fun copy => { copy with addrs := assign copy.addrs slot block }) rfl)
    have addrs : (middle.inode ip).copy.addrs = (fs.inode ip).copy.addrs := by rw [took.inode]
    generalize finalIs : ({ middle with inode := _ } : FS) = final at keeps
    have store : final.store = middle.store := by rw [← finalIs]
    have copy : (final.inode ip).copy = { (fs.inode ip).copy with addrs := assign (fs.inode ip).copy.addrs slot block } := by
      rw [← finalIs, ← took.inode]
      simp
    obtain ⟨fresh, -⟩ := volume.owned.fresh took.data took.clear
    have same : ∀ owner path, fs.held owner path ≠ 0 → final.store (fs.held owner path) = fs.store (fs.held owner path) := by
      intro owner path holds
      rw [store]
      exact took.store _ (Superblock.data_not_bitmap volume.layout (volume.owned.inside _ _ holds)) (fresh.2 _ _)
    have zero : final.store block = Bytes.zero := by rw [store, took.zero]
    have heldIs : final.held = BlockTree.update fs.held (fs.inode ip).inum [slot] block := by
      refine held_set_root (keeps.roots_set volume.table loaded small (by rw [copy])) (fun owner path _ holds index => ?_)
        (held_below _ (by simp) root) fun _ _ index => ?_
      · rw [same owner path holds]
      · rw [zero]
        exact Bytes.field_zero _ _
    have bits : ∀ other < fs.sb.nbitmap * BPB,
        bitOf fs.sb final.store other = if other = block then true else bitOf fs.sb fs.store other := fun other covered => by
      rw [store]
      exact took.bits other covered
    refine .inr ⟨⟨?_, keeps, content_linked heldIs root zero fun inum bn holds => same _ _ holds, _, copy⟩, root, took.data, took.clear,
      zero, heldIs, bits⟩
    refine volume.link keeps ?_ heldIs root took.data took.clear bits
    exact allocator.congr (by rw [← finalIs]) (by rw [← finalIs]) (by rw [← finalIs]; exact .refl _) fun _ _ => by rw [store]
  next holds => exact (ensures_pure _).mpr (.inl ⟨rfl, root, holds⟩)

theorem addrsFindOrAlloc_spec (volume : fs.Volume origin) (loaded : fs.Loaded ip) (inOp : 1 ≤ fs.log.outstanding) {slot : Nat}
    (small : slot < NBLOCKADDR) : Ensures (addrsFindOrAlloc ip slot) fs (Found origin ip fs [slot]) AllocFails :=
  (addrsFindOrAlloc_reaches volume loaded inOp small).mono (fun _ _ reached => reached.found volume) fun _ _ fails => fails.2

theorem indexFindOrAlloc_reaches (volume : fs.Volume origin) (loaded : fs.Loaded ip) (inOp : 1 ≤ fs.log.outstanding) {path : List Nat}
    {index : Nat} (deep : BlockTree.Internal levels path) (holds : fs.held (fs.inode ip).inum path ≠ 0) (small : index < NINDIRECT1) :
    Ensures (indexFindOrAlloc (fs.held (fs.inode ip).inum path) index) fs (Reached origin ip fs (path ++ [index]))
      fun reason after => fs.held (fs.inode ip).inum (path ++ [index]) = 0 ∧ AllocFails reason after := by
  have nonempty : path ≠ [] := by
    rintro rfl
    exact deep
  generalize parentIs : fs.held (fs.inode ip).inum path = parent at holds
  have below : fs.held (fs.inode ip).inum (path ++ [index]) = entry (fs.store parent) index := by
    rw [held_append _ nonempty, if_pos ⟨deep, parentIs ▸ holds⟩, parentIs]
  have parentData : fs.sb.InData parent := parentIs ▸ volume.owned.inside _ _ (parentIs ▸ holds)
  unfold indexFindOrAlloc loggedRead
  rw [ensures_bind, ensures_bind, ensures_get, ensures_pure]
  split
  next empty =>
    rw [empty] at below
    refine Ensures.bind ((blockAlloc_took volume.toAllocator inOp).mono (fun _ _ same => same) fun _ _ fails => ⟨below, fails⟩) ?_
    rintro block middle ⟨took, allocator⟩
    obtain ⟨fresh, -⟩ := volume.owned.fresh took.data took.clear
    have uint : block < 2 ^ 32 := Nat.lt_trans took.data.2 volume.layout.uint_size
    have apart : parent ≠ block := fun same => fresh.2 _ _ (parentIs.trans same)
    refine Ensures.bind ((loggedUpdate_spec (took.outstanding ▸ inOp) _ _).mono (fun _ _ same => same) fun _ _ full => ⟨below, .inr full⟩) ?_
    rintro _ final ⟨_, finalIs⟩
    rw [ensures_pure]
    have parentSame : middle.store parent = fs.store parent :=
      took.store _ (Superblock.data_not_bitmap volume.layout parentData) apart
    have store : final.store = assign middle.store parent ((fs.store parent).setField (4 * index) 4 block) := by
      rw [finalIs, ← parentSame]
      rfl
    have sb : final.sb = fs.sb := by rw [finalIs]; exact took.sb
    have inode : final.inode = fs.inode := by rw [finalIs]; exact took.inode
    have keeps : Keeps ip fs final := by
      refine .of_same sb (by rw [finalIs]; exact took.ninode) inode ?_ (fun inum inside => ?_) (volume.table.inside ip loaded.1)
      · rw [finalIs, ← took.outstanding]
        simp [logged]
      · rw [store, assign_of_ne, took.store _ (Superblock.iblock_not_bitmap volume.layout inside)]
        · rintro same
          exact Superblock.iblock_not_data volume.layout inside (same ▸ took.data)
        · rintro same
          exact Superblock.iblock_not_data volume.layout inside (same ▸ parentData)
    have same : ∀ owner path', fs.held owner path' ≠ 0 → fs.held owner path' ≠ parent →
        final.store (fs.held owner path') = fs.store (fs.held owner path') := by
      intro owner path' holds' other
      rw [store, assign_of_ne other]
      exact took.store _ (Superblock.data_not_bitmap volume.layout (volume.owned.inside _ _ holds')) (fresh.2 _ _)
    have zero : final.store block = Bytes.zero := by rw [store, assign_of_ne apart.symm, took.zero]
    have roots : final.roots = fs.roots := keeps.roots_same volume.table loaded (by rw [inode])
    have heldIs : final.held = BlockTree.update fs.held (fs.inode ip).inum (path ++ [index]) block := by
      refine held_set_entry volume.owned.distinct deep (parentIs ▸ holds) roots (fun owner path' deep' holds' index' => ?_)
        (held_below _ (by simp) below) fun _ _ index' => ?_
      · rw [parentIs]
        by_cases here : fs.held owner path' = parent
        · rw [here, store, assign_self, entry_setField _ small uint]
          simp only [true_and]
        · rw [if_neg fun both => here both.1, same _ _ holds' here]
      · rw [zero]
        exact Bytes.field_zero _ _
    have bits : ∀ other < fs.sb.nbitmap * BPB,
        bitOf fs.sb final.store other = if other = block then true else bitOf fs.sb fs.store other := fun other covered => by
      rw [← took.bits other covered]
      refine bitOf_congr ?_
      rw [store, assign_of_ne]
      intro same
      exact Superblock.data_not_bitmap volume.layout parentData (same ▸ Superblock.bblock_inBitmap covered)
    refine .inr ⟨⟨?_, keeps, content_linked heldIs below zero fun inum bn holds' => same _ _ holds' ?_, _, by rw [inode]⟩, below,
      took.data, took.clear, zero, heldIs, bits⟩
    · refine volume.link keeps ?_ heldIs below took.data took.clear bits
      refine allocator.congr (by rw [finalIs]; rfl) (by rw [finalIs]; rfl) (.one ?_ (by rw [finalIs]; rfl)) fun other inBitmap => ?_
      · rfl
      · rw [store, assign_of_ne]
        rintro rfl
        exact Superblock.data_not_bitmap volume.layout parentData (took.sb ▸ inBitmap)
    · rw [← parentIs]
      exact leaf_not_index volume.owned.distinct holds' deep
  next found => exact (ensures_pure _).mpr (.inl ⟨rfl, below, found⟩)

/-- What a walk to `path` does to the volume: a block that was there is returned and nothing
changes; else a free one is put there, after those missing above it. -/
structure Walked (origin : Origin) (ip : Nat) (fs : FS) (path : List Nat) (block : Nat) (after : FS) : Prop
    extends Found origin ip fs path block after where
  same : fs.held (fs.inode ip).inum path ≠ 0 → after = fs
  frame : ∀ owner path', ¬ (owner = (fs.inode ip).inum ∧ path' <+: path) → after.held owner path' = fs.held owner path'
  fresh : fs.held (fs.inode ip).inum path = 0 → bitOf fs.sb fs.store block = false ∧ after.store block = Bytes.zero
  taken : ∀ other < fs.sb.nbitmap * BPB, bitOf fs.sb fs.store other = true → bitOf fs.sb after.store other = true

theorem Reached.walked {path : List Nat} {block : Nat} (volume : fs.Volume origin) (reached : Reached origin ip fs path block after) :
    Walked origin ip fs path block after := by
  refine ⟨reached.found volume, ?_, ?_, ?_, ?_⟩
  all_goals obtain ⟨rfl, holds, nonzero⟩ | linked := reached
  · exact fun _ => rfl
  · exact fun holds => absurd linked.empty holds
  · exact fun _ _ _ => rfl
  · intro owner path' outside
    rw [linked.held, BlockTree.update_other]
    rintro ⟨rfl, rfl⟩
    exact outside ⟨rfl, List.prefix_refl _⟩
  · exact fun empty => absurd (holds.symm.trans empty) nonzero
  · exact fun _ => ⟨linked.clear, linked.zero⟩
  · exact fun _ _ set => set
  · intro other covered set
    rw [linked.bits other covered, set]
    exact ite_self _

/-- A walk goes one step further. -/
theorem Walked.step {middle : FS} {path : List Nat} {block index next : Nat} (walked : Walked origin ip fs path block middle)
    (nonempty : path ≠ []) (reached : Reached origin ip middle (path ++ [index]) next after) :
    Walked origin ip fs (path ++ [index]) next after := by
  have keeps := walked.grown.keeps
  have further := reached.walked walked.grown.volume
  have above : fs.held (fs.inode ip).inum (path ++ [index]) = 0 → middle.held (fs.inode ip).inum (path ++ [index]) = 0 := fun empty => by
    rw [walked.frame, empty]
    rintro ⟨-, short⟩
    have lengths := short.length_le
    simp at lengths
  obtain ⟨⟨grown, nonzero, holds⟩, same, frame, fresh, taken⟩ := further
  rw [keeps.inum] at holds same frame fresh
  rw [keeps.sb] at fresh taken
  refine ⟨⟨walked.grown.trans grown, nonzero, holds⟩, fun present => ?_, fun owner path' outside => ?_, fun empty => ?_,
    fun other covered set => taken other covered (walked.taken other covered set)⟩
  · have parent : fs.held (fs.inode ip).inum path ≠ 0 := (BlockTree.place_parent nonempty present).2
    have found := walked.same parent
    rw [found] at same
    exact same present
  · rw [frame owner path' outside, walked.frame]
    exact fun both => outside ⟨both.1, both.2.trans (List.prefix_append _ _)⟩
  · obtain ⟨clear, zero⟩ := fresh (above empty)
    refine ⟨Bool.eq_false_iff.mpr fun set => ?_, zero⟩
    have data := grown.volume.owned.inside _ _ (holds ▸ nonzero)
    rw [holds, grown.keeps.sb, keeps.sb] at data
    rw [walked.taken next data.covered set] at clear
    cases clear

/-- One more step of the walk. -/
theorem Found.reaches {path : List Nat} {block index : Nat} (found : Found origin ip fs path block after)
    (loaded : fs.Loaded ip) (inOp : 1 ≤ fs.log.outstanding) (deep : BlockTree.Internal levels path) (small : index < NINDIRECT1) :
    Ensures (indexFindOrAlloc block index) after (Reached origin ip after (path ++ [index]))
      fun reason final => after.held (fs.inode ip).inum (path ++ [index]) = 0 ∧ AllocFails reason final := by
  have keeps := found.grown.keeps
  have parent : after.held (after.inode ip).inum path = block := by rw [keeps.inum, found.holds]
  have step := indexFindOrAlloc_reaches found.grown.volume (keeps.loaded.mpr loaded) (keeps.outstanding ▸ inOp) deep
    (by rw [parent]; exact found.nonzero) small
  rwa [parent, keeps.inum] at step

theorem ensures_assert {condition : Prop} [Decidable condition] (holds : condition) {state : FS} {ok : Unit → FS → Prop}
    {exit : Exit → FS → Prop} : Ensures (assert condition) state ok exit ↔ ok () state := by
  rw [assert, if_pos holds, ensures_pure]

/-- The walk of `imap2blockno`: along `pathOf bn`, one slot and then one entry for each level. -/
theorem imap2blockno_walk {bn : Nat} {exit : Exit → FS → Prop} (visited : List Nat → Nat → FS → Prop) (small : bn < MAXFILE_BLOCKS)
    (many : MAXOPBLOCKS - 1 - 3 ≤ fs.n_log_wrote → exit (.errExit .tooManyBlocks) fs)
    (root : ∀ slot < NBLOCKADDR, [slot] <+: pathOf bn → Ensures (addrsFindOrAlloc ip slot) fs (visited [slot]) exit)
    (next : ∀ path block middle index, visited path block middle → BlockTree.Internal levels path → index < NINDIRECT1 →
      path ++ [index] <+: pathOf bn → Ensures (indexFindOrAlloc block index) middle (visited (path ++ [index])) exit) :
    Ensures (imap2blockno ip bn) fs (visited (pathOf bn)) exit := by
  unfold imap2blockno assertNoNeedToRestartOpInImap2blockno
  rw [ensures_bind, ensures_bind, ensures_get, ensures_ite]
  refine ⟨fun tooMany => (ensures_stop _).mpr (many tooMany), fun _ => ?_⟩
  rw [ensures_pure]
  dsimp only
  split
  next direct =>
    have path : pathOf bn = [bn] := if_pos direct
    rw [path] at root ⊢
    exact root bn (Nat.lt_trans direct (by decide)) (List.prefix_refl _)
  next indirect =>
  split
  next single =>
    have path : pathOf bn = [NDIRECT, bn - NDIRECT] := by rw [pathOf, if_neg indirect, if_pos single]
    rw [path] at root next ⊢
    refine Ensures.bind (root NDIRECT (by decide) ⟨_, rfl⟩) fun block middle reached => ?_
    exact next _ _ _ _ reached (by decide) single ⟨_, rfl⟩
  next notSingle =>
  simp only [MAXFILE_BLOCKS, NDIRECT, NINDIRECT, NINDIRECT1, NINDIRECT2, NINDIRECT3] at small
  split
  next double =>
    have path : pathOf bn =
        [NDIRECT + 1, (bn - NDIRECT - NINDIRECT1) / NINDIRECT1, (bn - NDIRECT - NINDIRECT1) % NINDIRECT1] := by
      rw [pathOf, if_neg indirect, if_neg notSingle, if_pos double]
    rw [path] at root next ⊢
    refine Ensures.bind (root (NDIRECT + 1) (by decide) ⟨_, rfl⟩) fun block middle reached => ?_
    simp only [NDIRECT, NINDIRECT1, NINDIRECT2] at double
    rw [ensures_bind, ensures_assert (by simp only [NDIRECT, NINDIRECT1, BSIZE]; omega)]
    refine Ensures.bind (next _ _ _ _ reached (by decide) (by simp only [NDIRECT, NINDIRECT1]; omega) ⟨_, rfl⟩) fun block' middle' reached' => ?_
    exact next _ _ _ _ reached' (by simp [BlockTree.Internal]) (Nat.mod_lt _ (by decide)) ⟨_, rfl⟩
  next notDouble =>
    have path : pathOf bn = [NDIRECT + 2, (bn - NDIRECT - NINDIRECT1 - NINDIRECT2) / NINDIRECT2,
        (bn - NDIRECT - NINDIRECT1 - NINDIRECT2) % NINDIRECT2 / NINDIRECT1,
        (bn - NDIRECT - NINDIRECT1 - NINDIRECT2) % NINDIRECT2 % NINDIRECT1] := by
      rw [pathOf, if_neg indirect, if_neg notSingle, if_neg notDouble]
    rw [path] at root next ⊢
    rw [if_pos (by simp only [NDIRECT, NINDIRECT1, NINDIRECT2, NINDIRECT3]; omega)]
    refine Ensures.bind (root (NDIRECT + 2) (by decide) ⟨_, rfl⟩) fun block middle reached => ?_
    rw [ensures_bind, ensures_assert (by simp only [NDIRECT, NINDIRECT1, NINDIRECT2, BSIZE]; omega)]
    refine Ensures.bind (next _ _ _ _ reached (by simp [BlockTree.Internal])
      (by simp only [NDIRECT, NINDIRECT1, NINDIRECT2]; omega) ⟨_, rfl⟩) fun block' middle' reached' => ?_
    rw [ensures_bind, ensures_assert (by simp only [NDIRECT, NINDIRECT1, NINDIRECT2, BSIZE]; omega)]
    refine Ensures.bind (next _ _ _ _ reached' (by simp [BlockTree.Internal])
      (by simp only [NDIRECT, NINDIRECT1, NINDIRECT2]; omega) ⟨_, rfl⟩) fun block'' middle'' reached'' => ?_
    exact next _ _ _ _ reached'' (by simp [BlockTree.Internal]) (Nat.mod_lt _ (by decide)) ⟨_, rfl⟩

/-- A mapped block is found at once; only the share of the log can stop the walk. A missing one is
taken from the free ones. -/
theorem imap2blockno_walks (volume : fs.Volume origin) (loaded : fs.Loaded ip) (inOp : 1 ≤ fs.log.outstanding) {bn : Nat}
    (small : bn < MAXFILE_BLOCKS) :
    Ensures (imap2blockno ip bn) fs (Walked origin ip fs (pathOf bn)) fun reason after =>
      (reason = .errExit .tooManyBlocks ∧ MAXOPBLOCKS - 1 - 3 ≤ fs.n_log_wrote ∧ after = fs) ∨
        (fs.held (fs.inode ip).inum (pathOf bn) = 0 ∧ AllocFails reason after) := by
  refine imap2blockno_walk (Walked origin ip fs) small (fun many => .inl ⟨rfl, many, rfl⟩) ?_ ?_
  · intro slot inside before
    refine (addrsFindOrAlloc_reaches volume loaded inOp inside).mono (fun _ _ reached => reached.walked volume) fun _ _ fails => ?_
    exact .inr ⟨held_missing_above (by simp) before fails.1, fails.2⟩
  · intro path block middle index walked deep inside before
    have nonempty : path ≠ [] := by
      rintro rfl
      exact deep
    refine (walked.toFound.reaches loaded inOp deep inside).mono (fun _ _ reached => walked.step nonempty reached) fun _ _ fails => ?_
    refine .inr ⟨held_missing_above (by simp) before ?_, fails.2⟩
    by_contra present
    rw [walked.same (BlockTree.place_parent nonempty present).2] at fails
    exact present fails.1

/-- The ways `imap2blockno` stops. -/
def MapFails (fs : FS) (reason : Exit) (after : FS) : Prop :=
  (reason = .errExit .tooManyBlocks ∧ MAXOPBLOCKS - 1 - 3 ≤ fs.n_log_wrote) ∨ AllocFails reason after

theorem imap2blockno_spec (volume : fs.Volume origin) (loaded : fs.Loaded ip) (inOp : 1 ≤ fs.log.outstanding) {bn : Nat}
    (small : bn < MAXFILE_BLOCKS) :
    Ensures (imap2blockno ip bn) fs (Found origin ip fs (pathOf bn)) (MapFails fs) :=
  (imap2blockno_walks volume loaded inOp small).mono (fun _ _ walked => walked.toFound) fun _ _ fails =>
    fails.imp (fun tooMany => ⟨tooMany.1, tooMany.2.1⟩) And.right

end FS
end Myfuse
