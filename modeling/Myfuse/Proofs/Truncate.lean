import Myfuse.Proofs.ReadWrite

/-! `imap2blockno_free`: a block of a file is taken out of its place and given back,
after a restart that leaves the inode as it is on disk. -/

namespace Myfuse
open Library Library.Exec

/-- The bytes of the blocks `[lo, hi)` are gone. -/
def cutBlocks (bytes : Nat → Byte) (lo hi : Nat) : Nat → Byte := fun p =>
  if lo ≤ p / BSIZE ∧ p / BSIZE < hi then 0 else bytes p

theorem cutBlocks_empty (bytes : Nat → Byte) (bn : Nat) : cutBlocks bytes bn bn = bytes := by
  funext p
  rw [cutBlocks, if_neg]
  omega

theorem cutBlocks_next (bytes : Nat → Byte) {lo bn : Nat} (order : lo ≤ bn) :
    cutBlocks (cutBlocks bytes lo bn) bn (bn + 1) = cutBlocks bytes lo (bn + 1) := by
  funext p
  unfold cutBlocks
  split
  next here => rw [if_pos (by omega)]
  next =>
    split
    next below => rw [if_pos (by omega)]
    next => rw [if_neg (by omega)]

namespace FS
variable {origin : Origin} {fs after : FS} {ip : Nat}

/-- The mark that a truncation leaves before it restarts. -/
theorem Running.noteRestart (running : fs.Running origin ip) (memory disk : Nat → Nat) :
    ({ fs with history := .restart memory disk :: fs.history } : FS).Running origin ip := by
  have volume := running.volume
  have op := running.op
  have allocator : ({ fs with history := .restart memory disk :: fs.history } : FS).Allocator origin :=
    volume.toAllocator.congr rfl rfl ⟨[.restart memory disk], rfl, by simp [Event.isNeutral]⟩ fun _ _ => rfl
  refine ⟨⟨allocator, ⟨volume.table.inside, volume.table.unique⟩, volume.owned⟩, running.loaded,
    ⟨op.committing, op.inOp, op.size, op.alone, op.listed⟩, fun watching => ?_⟩
  have sound := running.sound watching
  exact ⟨sound.synced, fun ip' apart loaded => ⟨(sound.others ip' apart loaded).type, (sound.others ip' apart loaded).used,
    (sound.others ip' apart loaded).addrs⟩, sound.type, sound.used, sound.commits⟩

/-- The commit is consistent only when the slots in memory are those on disk. -/
theorem itrunc2sizeLogOpRestartHelper_spec (running : fs.Running origin ip) :
    Ensures (itrunc2sizeLogOpRestartHelper ip) fs
      (fun _ after => Steady origin ip fs after ∧ after.n_log_wrote < MAXOPBLOCKS - 1 - 3 ∧ after.inode = fs.inode ∧
        after.store = fs.store ∧ after.held = fs.held)
      (Stops origin) := by
  have whole : ∀ {after : FS}, Steady origin ip fs after → after.n_log_wrote < MAXOPBLOCKS - 1 - 3 → after.inode = fs.inode →
      after.store = fs.store → Steady origin ip fs after ∧ after.n_log_wrote < MAXOPBLOCKS - 1 - 3 ∧ after.inode = fs.inode ∧
        after.store = fs.store ∧ after.held = fs.held := fun steady few inode store =>
    ⟨steady, few, inode, store, held_congr (steady.keeps.roots_same running.volume.table running.loaded (by rw [inode]))
      fun _ _ _ _ _ => by rw [store]⟩
  unfold itrunc2sizeLogOpRestartHelper note
  rw [ensures_bind, ensures_get]
  split
  next many =>
    rw [ensures_bind, ensures_modify]
    have marked := running.noteRestart (fs.inode ip).copy.addrs (fs.dinode (fs.inode ip).inum).addrs
    generalize markedIs : ({ fs with history := _ } : FS) = middle at marked
    have inode : middle.inode = fs.inode := by rw [← markedIs]
    have store : middle.store = fs.store := by rw [← markedIs]
    have sb : middle.sb = fs.sb := by rw [← markedIs]
    have dinode : ∀ inum, middle.dinode inum = fs.dinode inum := fun inum => dinode_congr sb (by rw [store])
    have steady : Steady origin ip fs middle := by
      rw [← markedIs] at marked ⊢
      exact ⟨marked, ⟨rfl, rfl, fun _ _ => rfl, rfl, rfl, rfl, fun _ _ _ => rfl, rfl, rfl, id⟩, rfl, rfl, rfl⟩
    have clean : origin.watch → RestartsClean middle.history → middle.Clean ip := fun watching restarts => by
      have sound := marked.sound watching
      rw [← markedIs] at restarts
      refine ⟨sound.type, sound.used, fun slot small => ?_⟩
      rw [dinode, inode]
      exact (restarts.1 slot small).symm
    refine (restart_spec marked.op).mono ?_ ?_
    · rintro _ after rfl
      refine whole (steady.trans (marked.steadyRestart clean)) ?_ (by rw [restarted_inode, inode]) (by rw [restarted_store, store])
      rw [restarted_n_log_wrote]
      decide
    · rintro reason after ⟨-, others, rfl⟩
      refine ⟨fun roomy => ?_, fun watching => (marked.sound watching).commits⟩
      have alone := marked.op.alone roomy
      omega
  next few =>
    rw [ensures_pure]
    exact whole (.refl running) (Nat.lt_of_not_le few) rfl rfl

/-- A file block was taken out of its place and given back. -/
structure Released (origin : Origin) (ip bn : Nat) (fs after : FS) : Prop where
  volume : after.Volume origin
  keeps : Keeps ip fs after
  content : ∀ inum p, after.content inum p = if inum = (fs.inode ip).inum ∧ p / BSIZE = bn then 0 else fs.content inum p
  copy : ∃ addrs, (after.inode ip).copy = { (fs.inode ip).copy with addrs }

theorem Released.wrote {bn count : Nat} (released : Released origin ip bn fs after) (running : fs.Running origin ip)
    (used : LogUse count fs after) (lists : Lists fs after) :
    Wrote origin ip fs (cutBlocks (fs.content (fs.inode ip).inum) bn (bn + 1)) after := by
  obtain ⟨volume, keeps, content, addrs, copy⟩ := released
  refine ⟨running.use volume keeps used lists, keeps, by rw [copy], by rw [copy], funext fun p => ?_,
    fun inum apart => funext fun p => ?_⟩
  · rw [content, cutBlocks]
    refine if_congr ?_ rfl rfl
    simp only [true_and]
    omega
  · rw [content, if_neg fun both => apart both.1]

/-- Block `bn` of the file is gone, from its bytes and from its place. -/
structure Unmapped (origin : Origin) (ip bn : Nat) (fs after : FS) : Prop where
  wrote : Wrote origin ip fs (cutBlocks (fs.content (fs.inode ip).inum) bn (bn + 1)) after
  held : after.held = BlockTree.update fs.held (fs.inode ip).inum (pathOf bn) 0

/-- Nothing is held below a file block. -/
theorem held_below_leaf (fs : FS) (owner : Nat) {bn : Nat} {path : List Nat} (leaf : pathOf bn = path) (index : Nat) :
    fs.held owner (path ++ [index]) = 0 := by
  have nonempty : path ≠ [] := leaf ▸ pathOf_ne_nil bn
  rw [held_append owner nonempty, if_neg fun both => pathOf_leaf bn (leaf ▸ both.1)]

/-- A block at a slot of the inode is freed and the slot cleared. -/
theorem releaseSlot_spec {bn : Nat} (running : fs.Running origin ip) (few : origin.roomy → fs.n_log_wrote + 1 < NLOG - 1)
    (direct : bn < NDIRECT) (holds : (fs.inode ip).copy.addrs bn ≠ 0) :
    Ensures (do
        blockFree ((fs.inode ip).copy.addrs bn)
        modifyCopy ip fun copy => { copy with addrs := assign copy.addrs bn 0 }) fs
      (fun _ after => Unmapped origin ip bn fs after ∧ after.n_log_wrote ≤ fs.n_log_wrote + 1) (Stops origin) := by
  have volume := running.volume
  have small : bn < NBLOCKADDR := Nat.lt_trans direct (by decide)
  have path : pathOf bn = [bn] := if_pos direct
  have root : fs.held (fs.inode ip).inum [bn] = (fs.inode ip).copy.addrs bn := by
    rw [held_root, roots_loaded volume.table running.loaded, if_pos small]
  have uses : UsesLog 1 (do
      blockFree ((fs.inode ip).copy.addrs bn)
      modifyCopy ip fun copy => { copy with addrs := assign copy.addrs bn 0 }) :=
    .ending (blockFree_uses _) fun _ => modifyCopy_uses ip _
  rw [← root] at holds uses ⊢
  have data := volume.owned.inside _ _ holds
  have frees : Ensures (do
        blockFree (fs.held (fs.inode ip).inum [bn])
        modifyCopy ip fun copy => { copy with addrs := assign copy.addrs bn 0 }) fs
      (fun _ after => Released origin ip bn fs after ∧ after.held = BlockTree.update fs.held (fs.inode ip).inum (pathOf bn) 0)
      AllocFails := by
    have gives := blockFree_gave volume.toAllocator running.op.inOp data (volume.owned.used_of_held holds)
    refine Ensures.bind (gives.mono (fun _ _ same => same) fun _ _ => .inr) ?_
    rintro _ middle ⟨gave, allocator⟩
    unfold modifyCopy modifyInode
    rw [ensures_modify]
    have moved : Keeps ip fs middle :=
      .of_same gave.sb gave.ninode gave.inode gave.outstanding
        (fun inum inside => gave.store _ (Superblock.iblock_not_bitmap volume.layout inside)) (volume.table.inside ip running.loaded.1)
    have keeps := moved.trans (.copy (fun copy => { copy with addrs := assign copy.addrs bn 0 }) rfl)
    have addrs : (middle.inode ip).copy.addrs = (fs.inode ip).copy.addrs := by rw [gave.inode]
    generalize afterIs : ({ middle with inode := _ } : FS) = after at keeps
    have store : after.store = middle.store := by rw [← afterIs]
    have copy : (after.inode ip).copy = { (fs.inode ip).copy with addrs := assign (fs.inode ip).copy.addrs bn 0 } := by
      rw [← afterIs, ← gave.inode]
      simp
    have same : ∀ owner path, fs.held owner path ≠ 0 → after.store (fs.held owner path) = fs.store (fs.held owner path) := by
      intro owner path holds'
      rw [store]
      exact gave.store _ (Superblock.data_not_bitmap volume.layout (volume.owned.inside _ _ holds'))
    have heldIs : after.held = BlockTree.update fs.held (fs.inode ip).inum [bn] 0 := by
      refine held_set_root (keeps.roots_set volume.table running.loaded small (by rw [copy])) (fun owner path _ holds' index => ?_)
        (held_below_leaf fs _ path) fun _ nonzero => absurd rfl nonzero
      rw [same owner path holds']
    refine ⟨⟨volume.unlink keeps ?_ heldIs holds fun other covered => by rw [store]; exact gave.bits other covered, keeps,
      content_unlinked (path ▸ heldIs) fun inum bn holds' => same _ _ holds', _, copy⟩, path ▸ heldIs⟩
    exact allocator.congr (by rw [← afterIs]) (by rw [← afterIs]) (by rw [← afterIs]; exact .refl _) fun _ _ => by rw [store]
  exact (frees.and (uses fs)).mono
    (fun _ _ done => ⟨⟨done.1.1.wrote running done.2.1 done.2.2, done.1.2⟩, done.2.1.high⟩)
    fun _ _ fails => running.allocStops fails.2 few fails.1

/-- A block listed in an index block is freed and its entry cleared. -/
theorem releaseEntry_spec {bn index : Nat} {above : List Nat} (running : fs.Running origin ip)
    (few : origin.roomy → fs.n_log_wrote + 2 < NLOG - 1) (deep : BlockTree.Internal levels above)
    (path : pathOf bn = above ++ [index]) (small : index < NINDIRECT1) (parentHeld : fs.held (fs.inode ip).inum above ≠ 0)
    (holds : entry (fs.store (fs.held (fs.inode ip).inum above)) index ≠ 0) :
    Ensures (do
        blockFree (entry (fs.store (fs.held (fs.inode ip).inum above)) index)
        loggedUpdate (fs.held (fs.inode ip).inum above) fun data => data.setField (4 * index) 4 0) fs
      (fun _ after => Unmapped origin ip bn fs after ∧ after.n_log_wrote ≤ fs.n_log_wrote + 2) (Stops origin) := by
  have volume := running.volume
  have nonempty : above ≠ [] := by
    rintro rfl
    exact deep
  have below : fs.held (fs.inode ip).inum (above ++ [index]) = entry (fs.store (fs.held (fs.inode ip).inum above)) index := by
    rw [held_append _ nonempty, if_pos ⟨deep, parentHeld⟩]
  rw [← below] at holds ⊢
  generalize parentIs : fs.held (fs.inode ip).inum above = parent at parentHeld
  have uses : UsesLog 2 (do
      blockFree (fs.held (fs.inode ip).inum (above ++ [index]))
      loggedUpdate parent fun data => data.setField (4 * index) 4 0) :=
    .seq 1 1 (Nat.le_refl _) (blockFree_uses _) fun _ => loggedUpdate_uses _ _
  have data := volume.owned.inside _ _ holds
  have parentData : fs.sb.InData parent := parentIs ▸ volume.owned.inside _ _ (parentIs ▸ parentHeld)
  have frees : Ensures (do
        blockFree (fs.held (fs.inode ip).inum (above ++ [index]))
        loggedUpdate parent fun data => data.setField (4 * index) 4 0) fs
      (fun _ after => Released origin ip bn fs after ∧ after.held = BlockTree.update fs.held (fs.inode ip).inum (pathOf bn) 0)
      AllocFails := by
    have gives := blockFree_gave volume.toAllocator running.op.inOp data (volume.owned.used_of_held holds)
    refine Ensures.bind (gives.mono (fun _ _ same => same) fun _ _ => .inr) ?_
    rintro _ middle ⟨gave, allocator⟩
    refine ((loggedUpdate_spec (gave.outstanding ▸ running.op.inOp) _ _).mono (fun _ _ same => same) fun _ _ => .inr).weaken ?_
    rintro _ after ⟨_, afterIs⟩
    have store : after.store = assign middle.store parent ((middle.store parent).setField (4 * index) 4 0) := by
      rw [afterIs]
      rfl
    have parentSame : middle.store parent = fs.store parent := gave.store _ (Superblock.data_not_bitmap volume.layout parentData)
    have sb : after.sb = fs.sb := by rw [afterIs]; exact gave.sb
    have inode : after.inode = fs.inode := by rw [afterIs]; exact gave.inode
    have keeps : Keeps ip fs after := by
      refine .of_same sb (by rw [afterIs]; exact gave.ninode) inode ?_ (fun inum inside => ?_) (volume.table.inside ip running.loaded.1)
      · rw [afterIs, ← gave.outstanding]
        simp [logged]
      · rw [store, assign_of_ne, gave.store _ (Superblock.iblock_not_bitmap volume.layout inside)]
        rintro same
        exact Superblock.iblock_not_data volume.layout inside (same ▸ parentData)
    have same : ∀ owner path', fs.held owner path' ≠ 0 → fs.held owner path' ≠ parent →
        after.store (fs.held owner path') = fs.store (fs.held owner path') := by
      intro owner path' holds' other
      rw [store, assign_of_ne other]
      exact gave.store _ (Superblock.data_not_bitmap volume.layout (volume.owned.inside _ _ holds'))
    have roots : after.roots = fs.roots := keeps.roots_same volume.table running.loaded (by rw [inode])
    have heldIs : after.held = BlockTree.update fs.held (fs.inode ip).inum (above ++ [index]) 0 := by
      refine held_set_entry volume.owned.distinct deep (parentIs ▸ parentHeld) roots (fun owner path' deep' holds' index' => ?_)
        (held_below_leaf fs _ path) fun _ nonzero => absurd rfl nonzero
      rw [parentIs]
      by_cases here : fs.held owner path' = parent
      · rw [here, store, assign_self, entry_setField _ small (by decide), parentSame]
        simp only [true_and]
      · rw [if_neg fun both => here both.1, same _ _ holds' here]
    refine ⟨⟨volume.unlink keeps ?_ heldIs holds fun other covered => ?_, keeps,
      content_unlinked (path ▸ heldIs) fun inum bn holds' => same _ _ holds' ?_, _, by rw [inode]⟩, path ▸ heldIs⟩
    · refine allocator.congr (by rw [afterIs]; rfl) (by rw [afterIs]; rfl) (.one ?_ (by rw [afterIs]; rfl)) fun other inBitmap => ?_
      · rfl
      · rw [store, assign_of_ne]
        rintro rfl
        exact Superblock.data_not_bitmap volume.layout parentData (gave.sb ▸ inBitmap)
    · rw [← gave.bits other covered]
      refine bitOf_congr ?_
      rw [store, assign_of_ne]
      intro same
      exact Superblock.data_not_bitmap volume.layout parentData (same ▸ Superblock.bblock_inBitmap covered)
    · rw [← parentIs]
      exact leaf_not_index volume.owned.distinct holds' deep
  exact (frees.and (uses fs)).mono
    (fun _ _ done => ⟨⟨done.1.1.wrote running done.2.1 done.2.2, done.1.2⟩, done.2.1.high⟩)
    fun _ _ fails => running.allocStops fails.2 few fails.1

/-- A missing block has no bytes to lose. -/
theorem cutBlocks_missing {inum bn : Nat} (missing : fs.held inum (pathOf bn) = 0) :
    cutBlocks (fs.content inum) bn (bn + 1) = fs.content inum := by
  funext p
  rw [cutBlocks]
  split
  next here =>
    rw [content_of_empty]
    rw [show p / BSIZE = bn by omega, missing]
  next => rfl

/-- Nothing changes when the block is missing. -/
theorem Steady.unmapped {bn : Nat} (steady : Steady origin ip fs after) (held : after.held = fs.held)
    (missing : fs.held (fs.inode ip).inum (pathOf bn) = 0) : Unmapped origin ip bn fs after := by
  refine ⟨?_, ?_⟩
  · rw [cutBlocks_missing missing]
    exact steady.wrote
  · rw [held, BlockTree.update_eq_self missing]

/-- Nothing that matters happened before. -/
theorem Steady.andUnmapped {bn : Nat} {middle : FS} (steady : Steady origin ip fs middle) (held : middle.held = fs.held)
    (unmapped : Unmapped origin ip bn middle after) : Unmapped origin ip bn fs after := by
  refine ⟨?_, ?_⟩
  · rw [← steady.content]
    have wrote := unmapped.wrote
    rw [steady.keeps.inum] at wrote
    exact steady.and wrote
  · rw [unmapped.held, held, steady.keeps.inum]

/-- An operation that has written at most a hundred blocks finds room for two more. -/
theorem room_below {roomy : Prop} {wrote : Nat} (few : wrote < MAXOPBLOCKS - 1 - 3) : roomy → wrote + 2 < NLOG - 1 := fun _ => by
  simp only [NLOG, MAXOPBLOCKS] at few ⊢
  omega

theorem addrsFreeSafe_spec {bn : Nat} (running : fs.Running origin ip) (direct : bn < NDIRECT) :
    Ensures (addrsFreeSafe ip bn) fs
      (fun _ after => Unmapped origin ip bn fs after ∧ after.n_log_wrote ≤ max fs.n_log_wrote 200) (Stops origin) := by
  unfold addrsFreeSafe
  rw [ensures_bind, ensures_get]
  dsimp only
  split
  next holds =>
    refine Ensures.bind (itrunc2sizeLogOpRestartHelper_spec running) ?_
    rintro _ middle ⟨steady, few, inode, -, same⟩
    rw [← inode] at holds ⊢
    refine (releaseSlot_spec steady.running (fun roomy => ?_) direct holds).weaken ?_
    · exact Nat.lt_of_succ_lt (room_below few roomy)
    · rintro _ after ⟨unmapped, more⟩
      simp only [MAXOPBLOCKS] at few
      exact ⟨steady.andUnmapped same unmapped, by omega⟩
  next missing =>
    rw [ensures_pure]
    refine ⟨(Steady.refl running).unmapped rfl ?_, Nat.le_max_left _ _⟩
    · rw [pathOf, if_pos direct, held_root, roots_loaded running.volume.table running.loaded, if_pos (Nat.lt_trans direct (by decide))]
      exact not_not.mp missing

theorem indexFreeSafe_spec {bn index block : Nat} {above : List Nat} (running : fs.Running origin ip)
    (deep : BlockTree.Internal levels above) (path : pathOf bn = above ++ [index]) (small : index < NINDIRECT1)
    (held : fs.held (fs.inode ip).inum above = block) (nonzero : block ≠ 0) :
    Ensures (indexFreeSafe ip block index) fs
      (fun _ after => Unmapped origin ip bn fs after ∧ after.n_log_wrote ≤ max fs.n_log_wrote 200) (Stops origin) := by
  subst held
  unfold indexFreeSafe loggedRead
  rw [ensures_bind, ensures_bind, ensures_get, ensures_pure]
  split
  next holds =>
    refine Ensures.bind (itrunc2sizeLogOpRestartHelper_spec running) ?_
    rintro _ middle ⟨steady, few, inode, store, same⟩
    rw [← inode, ← same, ← store] at holds ⊢
    rw [← inode, ← same] at nonzero
    refine (releaseEntry_spec steady.running (room_below few) deep path small nonzero holds).weaken ?_
    rintro _ after ⟨unmapped, more⟩
    simp only [MAXOPBLOCKS] at few
    exact ⟨steady.andUnmapped same unmapped, by omega⟩
  next missing =>
    rw [ensures_pure]
    refine ⟨(Steady.refl running).unmapped rfl ?_, Nat.le_max_left _ _⟩
    · have nonempty : above ≠ [] := by
        rintro rfl
        exact deep
      rw [path, held_append _ nonempty, if_pos ⟨deep, nonzero⟩]
      exact not_not.mp missing

/-- The walk goes on below a held index block or ends where nothing is held. -/
theorem indexFollow_spec {index block : Nat} {above : List Nat} {rest : Nat → M Unit} {ok : Unit → FS → Prop}
    {exit : Exit → FS → Prop} {owner : Nat} (deep : BlockTree.Internal levels above) (held : fs.held owner above = block)
    (nonzero : block ≠ 0) (missing : fs.held owner (above ++ [index]) = 0 → ok () fs)
    (found : ∀ next, fs.held owner (above ++ [index]) = next → next ≠ 0 → Ensures (rest next) fs ok exit) :
    Ensures (indexFollow block index rest) fs ok exit := by
  have nonempty : above ≠ [] := by
    rintro rfl
    exact deep
  have below : fs.held owner (above ++ [index]) = entry (fs.store block) index := by
    rw [held_append _ nonempty, held, if_pos ⟨deep, nonzero⟩]
  unfold indexFollow loggedRead
  rw [ensures_bind, ensures_bind, ensures_get, ensures_pure]
  split
  next empty =>
    rw [ensures_pure]
    exact missing (below.trans empty)
  next full => exact found _ below full

/-- The blocks mapped by the tree of two levels. -/
def InDouble (bn : Nat) : Prop := NDIRECT + NINDIRECT1 ≤ bn ∧ bn < NDIRECT + NINDIRECT1 + NINDIRECT2

instance (bn : Nat) : Decidable (InDouble bn) := inferInstanceAs (Decidable (_ ∧ _))

/-- `imap2blockno_free` puts an index block where the tree of two levels is missing. -/
def AddsRoot (fs : FS) (ip bn : Nat) : Prop := InDouble bn ∧ (fs.inode ip).copy.addrs (NDIRECT + 1) = 0

instance (fs : FS) (ip bn : Nat) : Decidable (AddsRoot fs ip bn) := inferInstanceAs (Decidable (_ ∧ _))

/-- Block `bn` of the file is gone; a root may have been added on the way. -/
structure Dropped (origin : Origin) (ip bn : Nat) (fs after : FS) : Prop where
  wrote : Wrote origin ip fs (cutBlocks (fs.content (fs.inode ip).inum) bn (bn + 1)) after
  held : ¬ AddsRoot fs ip bn → after.held = BlockTree.update fs.held (fs.inode ip).inum (pathOf bn) 0
  added : AddsRoot fs ip bn → ∃ block, block ≠ 0 ∧ after.held = BlockTree.update fs.held (fs.inode ip).inum [NDIRECT + 1] block

theorem Unmapped.dropped {bn : Nat} (unmapped : Unmapped origin ip bn fs after) (plain : ¬ AddsRoot fs ip bn) : Dropped origin ip bn fs after :=
  ⟨unmapped.wrote, fun _ => unmapped.held, fun adds => absurd adds plain⟩

/-- The slots of `ip` are what its inode holds at them. -/
theorem Running.root (running : fs.Running origin ip) {slot : Nat} (small : slot < NBLOCKADDR) :
    fs.held (fs.inode ip).inum [slot] = (fs.inode ip).copy.addrs slot := by
  rw [held_root, roots_loaded running.volume.table running.loaded, if_pos small]

/-- A root that was added lists nothing. -/
theorem Linked.dropped {bn block : Nat} {rest : List Nat} (running : fs.Running origin ip)
    (linked : Linked origin ip fs [NDIRECT + 1] block after) (steady : Steady origin ip fs after) (double : InDouble bn)
    (path : pathOf bn = [NDIRECT + 1] ++ rest) : Dropped origin ip bn fs after := by
  have missing : fs.held (fs.inode ip).inum (pathOf bn) = 0 := path ▸ held_beyond linked.empty (by simp) rest
  refine ⟨?_, fun plain => absurd ⟨double, ?_⟩ plain, fun _ => ⟨block, linked.nonzero, linked.held⟩⟩
  · rw [cutBlocks_missing missing]
    exact steady.wrote
  · rw [← running.root (by decide)]
    exact linked.empty

/-- Block `bn` of the file is gone, whether it was there or not. -/
theorem imap2blocknoFree_drops {bn : Nat} (running : fs.Running origin ip) (few : origin.roomy → fs.n_log_wrote < MAXOPBLOCKS - 1 - 3)
    (within : origin.bounded → bn < MAXFILE_BLOCKS) :
    Ensures (imap2blocknoFree ip bn) fs
      (fun _ after => Dropped origin ip bn fs after ∧ after.n_log_wrote ≤ max (fs.n_log_wrote + 2) 200) (Stops origin) := by
  have absent : ∀ (above below : List Nat), pathOf bn = above ++ below → above ≠ [] → fs.held (fs.inode ip).inum above = 0 →
      ¬ AddsRoot fs ip bn → Dropped origin ip bn fs fs ∧ fs.n_log_wrote ≤ max (fs.n_log_wrote + 2) 200 := by
    intro above below path nonempty empty plain
    have missing : fs.held (fs.inode ip).inum (pathOf bn) = 0 := path ▸ held_beyond empty nonempty below
    exact ⟨((Steady.refl running).unmapped rfl missing).dropped plain, by omega⟩
  have wrap : ¬ AddsRoot fs ip bn → ∀ {current : FS}, Unmapped origin ip bn fs current ∧ current.n_log_wrote ≤ max fs.n_log_wrote 200 →
      Dropped origin ip bn fs current ∧ current.n_log_wrote ≤ max (fs.n_log_wrote + 2) 200 :=
    fun plain current done => ⟨done.1.dropped plain, by have := done.2; omega⟩
  unfold imap2blocknoFree assertNoNeedToRestartOpInImap2blockno
  rw [ensures_bind, ensures_bind, ensures_get, ensures_ite]
  refine ⟨fun many => (ensures_stop _).mpr (running.stops (.refl fs) fun roomy => absurd many (Nat.not_le.mpr (few roomy))), fun _ => ?_⟩
  rw [ensures_pure]
  dsimp only
  split
  next direct =>
    have plain : ¬ AddsRoot fs ip bn := fun adds => by
      have low := adds.1.1
      omega
    exact (addrsFreeSafe_spec running direct).weaken fun _ _ => wrap plain
  next indirect =>
  rw [ensures_bind, ensures_get]
  split
  next single =>
    have path : pathOf bn = [NDIRECT] ++ [bn - NDIRECT] := by rw [pathOf, if_neg indirect, if_pos single, List.singleton_append]
    have plain : ¬ AddsRoot fs ip bn := fun adds => by
      have low := adds.1.1
      omega
    split
    next empty =>
      rw [ensures_pure]
      exact absent _ _ path (by simp) (by rw [running.root (by decide), empty]) plain
    next full => exact (indexFreeSafe_spec running (by decide) path single (running.root (by decide)) full).weaken fun _ _ => wrap plain
  next notSingle =>
  split
  next double =>
    have path : pathOf bn = [NDIRECT + 1, (bn - NDIRECT - NINDIRECT1) / NINDIRECT1] ++ [(bn - NDIRECT - NINDIRECT1) % NINDIRECT1] := by
      simp only [pathOf, if_neg indirect, if_neg notSingle, if_pos double, List.cons_append, List.nil_append]
    have inDouble : InDouble bn := ⟨by omega, by omega⟩
    have slot : NDIRECT + 1 < NBLOCKADDR := by decide
    have allocates := (addrsFindOrAlloc_reaches running.volume running.loaded running.op.inOp slot).and
      (addrsFindOrAlloc_uses ip (NDIRECT + 1) fs)
    refine Ensures.bind (allocates.mono (fun _ _ same => same) fun reason after fails => ?_) ?_
    · exact running.allocStops fails.2 (fun roomy => room_below (few roomy) roomy) fails.1.2
    rintro block middle ⟨reached, used, lists⟩
    rw [ensures_bind, ensures_assert (by simp only [NDIRECT, NINDIRECT1, NINDIRECT2, BSIZE] at double ⊢; omega)]
    obtain ⟨rfl, holds, nonzero⟩ | linked := reached
    · have plain : ¬ AddsRoot middle ip bn := fun adds => nonzero (by rw [← holds, running.root slot, adds.2])
      refine indexFollow_spec (by decide) holds nonzero (fun empty => absent _ _ path (by simp) empty plain) fun next holds nonzero => ?_
      exact (indexFreeSafe_spec running (by simp [BlockTree.Internal]) path (Nat.mod_lt _ (by decide)) holds nonzero).weaken fun _ _ =>
        wrap plain
    · have steady := running.grow linked.grown used lists
      have below : ∀ index, middle.held (fs.inode ip).inum ([NDIRECT + 1] ++ [index]) = 0 := fun index => by
        rw [linked.held, BlockTree.update_other _ _ (by simp)]
        exact held_below _ (by simp) linked.empty index
      refine indexFollow_spec (by decide) (by rw [linked.held, BlockTree.update_same]) linked.nonzero (fun _ => ?_)
        fun next holds nonzero => absurd ((below _).symm.trans holds) nonzero.symm
      have high := used.high
      exact ⟨linked.dropped running steady inDouble path, by omega⟩
  next notDouble =>
  have plain : ¬ AddsRoot fs ip bn := fun adds => by
    have high := adds.1.2
    omega
  split
  next triple =>
    have path : ∀ above below, above ++ below = [NDIRECT + 2, (bn - NDIRECT - NINDIRECT1 - NINDIRECT2) / NINDIRECT2,
        (bn - NDIRECT - NINDIRECT1 - NINDIRECT2) % NINDIRECT2 / NINDIRECT1,
        (bn - NDIRECT - NINDIRECT1 - NINDIRECT2) % NINDIRECT2 % NINDIRECT1] → pathOf bn = above ++ below := by
      intro above below same
      rw [same, pathOf, if_neg indirect, if_neg notSingle, if_neg notDouble]
    generalize bn - NDIRECT - NINDIRECT1 - NINDIRECT2 = rest at triple path ⊢
    have firstFits : rest / NINDIRECT2 * 4 < BSIZE := by
      simp only [NINDIRECT2, NINDIRECT3, BSIZE] at triple ⊢
      omega
    have secondFits : rest % NINDIRECT2 / NINDIRECT1 * 4 < BSIZE := by
      simp only [NINDIRECT2, NINDIRECT1, BSIZE]
      omega
    have thirdFits : rest % NINDIRECT2 % NINDIRECT1 < NINDIRECT1 := Nat.mod_lt _ (by decide)
    generalize rest % NINDIRECT2 % NINDIRECT1 = third at path thirdFits ⊢
    generalize rest % NINDIRECT2 / NINDIRECT1 = second at path secondFits ⊢
    generalize rest / NINDIRECT2 = first at path firstFits ⊢
    split
    next empty =>
      rw [ensures_pure]
      exact absent [NDIRECT + 2] _ (path _ _ (List.singleton_append)) (by simp) (by rw [running.root (by decide), empty]) plain
    next full =>
      rw [ensures_bind, ensures_assert firstFits]
      refine indexFollow_spec (by decide) (running.root (by decide)) full (fun empty => ?_) fun block holds nonzero => ?_
      · exact absent _ [second, third] (path _ _ rfl) (by simp) empty plain
      rw [ensures_bind, ensures_assert secondFits]
      refine indexFollow_spec (by simp [BlockTree.Internal]) holds nonzero (fun empty => ?_) fun block' holds' nonzero' => ?_
      · exact absent _ [third] (path _ _ rfl) (by simp) empty plain
      exact (indexFreeSafe_spec running (by simp [BlockTree.Internal]) (path _ _ rfl) thirdFits holds' nonzero').weaken fun _ _ =>
        wrap plain
  next outside =>
    refine (ensures_stop _).mpr (running.stops (.refl fs) fun _ => .inr ⟨.inr rfl, fun bounded => outside ?_⟩)
    have small := within bounded
    simp only [MAXFILE_BLOCKS, NDIRECT, NINDIRECT, NINDIRECT1, NINDIRECT2, NINDIRECT3] at small ⊢
    omega

theorem imap2blocknoFree_spec {bn : Nat} (running : fs.Running origin ip) (few : origin.roomy → fs.n_log_wrote < MAXOPBLOCKS - 1 - 3)
    (within : origin.bounded → bn < MAXFILE_BLOCKS) :
    Ensures (imap2blocknoFree ip bn) fs
      (fun _ after => Wrote origin ip fs (cutBlocks (fs.content (fs.inode ip).inum) bn (bn + 1)) after ∧
        after.n_log_wrote ≤ max (fs.n_log_wrote + 2) 200)
      (Stops origin) :=
  (imap2blocknoFree_drops running few within).weaken fun _ _ done => ⟨done.1.wrote, done.2⟩

end FS
end Myfuse
