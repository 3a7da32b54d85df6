import Myfuse.Proofs.FreeTree

/-! `itrunc2size`: a file takes a new size; blocks wholly past it are given back
and blocks below it are added. -/

namespace Myfuse
open Library Library.Exec

/-- The kept bytes of a file whose size goes from `size` to `size'`. The last block is kept whole. -/
def resized (bytes : Nat → Byte) (size size' : Nat) : Nat → Byte :=
  if size' = size then bytes else if size' = 0 then fun _ => 0 else cutBlocks bytes (FS.blocksOf size') (FS.blocksOf size)

theorem blocksOf_small {size : Nat} (small : size ≤ MAXFILE_SIZE) : FS.blocksOf size = (size + (BSIZE - 1)) / BSIZE := by
  have limit : MAXFILE_SIZE < 2 ^ 62 := by decide
  generalize MAXFILE_SIZE = bound at *
  rw [FS.blocksOf, sizeT_of_lt]
  simp only [BSIZE]
  omega

theorem blocksOf_le {size : Nat} (small : size ≤ MAXFILE_SIZE) : FS.blocksOf size ≤ MAXFILE_BLOCKS := by
  rw [blocksOf_small small]
  have limit : MAXFILE_SIZE = MAXFILE_BLOCKS * BSIZE := rfl
  rw [limit] at small
  generalize MAXFILE_BLOCKS = blocks at *
  simp only [BSIZE] at small ⊢
  omega

theorem blocksOf_mono {size size' : Nat} (small : size' ≤ MAXFILE_SIZE) (ordered : size ≤ size') :
    FS.blocksOf size ≤ FS.blocksOf size' := by
  rw [blocksOf_small small, blocksOf_small (Nat.le_trans ordered small)]
  exact Nat.div_le_div_right (Nat.add_le_add_right ordered _)

theorem blocksOf_uint {size : Nat} (small : size ≤ MAXFILE_SIZE) : FS.blocksOf size % 2 ^ 32 = FS.blocksOf size :=
  Nat.mod_eq_of_lt (Nat.lt_of_le_of_lt (blocksOf_le small) (by decide))

namespace FS
variable {origin : Origin} {fs after : FS} {ip : Nat}

/-- A truncation stops as other routines do, or, freeing a whole file, with a full log. -/
def ResizeStops (origin : Origin) (size : Nat) (reason : Exit) (after : FS) : Prop :=
  Stops origin reason after ∨
    size = 0 ∧ LogFull reason after ∧ (origin.watch → CommitsSound origin.lost after.sb after.history)

/-- A new size is set and the inode written. -/
theorem Wrote.finishSize {middle : FS} {bytes : Nat → Byte} (wrote : Wrote origin ip fs bytes middle) (size : Nat) :
    Ensures (do modifyCopy ip fun copy => { copy with size }; iupdate ip) middle
      (fun _ after => Acted origin ip fs size bytes after ∧ after.n_log_wrote ≤ middle.n_log_wrote + 1)
      fun reason after => LogFull reason after ∧ LogUse 1 middle after := by
  have uses := modifyCopy_uses ip (fun copy => { copy with size }) middle
  refine Ensures.bind (((wrote.running.setCopy (fun copy => { copy with size }) (fun _ => rfl) fun _ => rfl).and uses).mono
    (fun _ _ both => both) fun _ _ both => both.1) ?_
  rintro _ sized ⟨⟨running, keeps, content, same, -, copy⟩, used, -⟩
  refine (iupdate_spec running).mono ?_ fun _ _ full => ⟨full.1, used.trans full.2⟩
  rintro _ after ⟨steady, wrote', -, agrees⟩
  refine ⟨⟨steady.running, (wrote.keeps.trans keeps).trans steady.keeps, by rw [steady.size, copy], ?_, fun inum apart => ?_,
    by rw [steady.nlink, copy, wrote.nlink], agrees⟩, by omega⟩
  · rw [steady.content, content, wrote.own]
  · rw [steady.content, content, wrote.others inum apart]

/-- Growing maps every new block and shows no byte. -/
theorem growBlocks_spec (running : fs.Running origin ip) (few : origin.roomy → fs.n_log_wrote ≤ 200) (lo count : Nat)
    (within : origin.bounded → lo + count ≤ MAXFILE_BLOCKS) :
    Ensures (forRange lo count fun i => do
        itrunc2sizeLogOpRestartHelper ip
        let _ ← imap2blockno ip i) fs
      (fun _ after => Steady origin ip fs after ∧ (origin.roomy → after.n_log_wrote ≤ 200)) (Stops origin) := by
  refine Ensures.forRange (fun _ current => Steady origin ip fs current ∧ (origin.roomy → current.n_log_wrote ≤ 200))
    ⟨.refl running, few⟩ fun i current _ inside => ?_
  rintro ⟨steady, -⟩
  refine Ensures.bind (itrunc2sizeLogOpRestartHelper_spec steady.running) ?_
  rintro _ ready ⟨steady', below, -, -, -⟩
  refine Ensures.bind (steady'.running.map (fun _ => below) fun bounded => ?_) ?_
  · have fits := within bounded
    omega
  · rintro _ mapped isMapped
    rw [ensures_pure]
    have wrote := isMapped.wrote
    simp only [MAXOPBLOCKS] at below
    exact ⟨(steady.trans steady').trans isMapped.steady, fun _ => by omega⟩

/-- Shrinking gives back the blocks `[lo, lo + count)`. -/
theorem shrinkBlocks_spec (running : fs.Running origin ip) (few : origin.roomy → fs.n_log_wrote ≤ 200) (lo count : Nat)
    (within : origin.bounded → lo + count ≤ MAXFILE_BLOCKS) :
    Ensures (forRange lo count fun i => do
        itrunc2sizeLogOpRestartHelper ip
        imap2blocknoFree ip i) fs
      (fun _ after => Wrote origin ip fs (cutBlocks (fs.content (fs.inode ip).inum) lo (lo + count)) after ∧
        (origin.roomy → after.n_log_wrote ≤ 200))
      (Stops origin) := by
  refine Ensures.forRange (fun i current => Wrote origin ip fs (cutBlocks (fs.content (fs.inode ip).inum) lo i) current ∧
    (origin.roomy → current.n_log_wrote ≤ 200)) ⟨?_, few⟩ fun i current low inside => ?_
  · rw [cutBlocks_empty]
    exact (Steady.refl running).wrote
  rintro ⟨wrote, -⟩
  refine Ensures.bind (itrunc2sizeLogOpRestartHelper_spec wrote.running) ?_
  rintro _ ready ⟨steady, below, -, -, -⟩
  refine (imap2blocknoFree_spec steady.running (fun _ => below) fun bounded => ?_).weaken ?_
  · have fits := within bounded
    omega
  · rintro _ after ⟨freed, more⟩
    simp only [MAXOPBLOCKS] at below
    rw [steady.content, steady.keeps.inum, wrote.keeps.inum, wrote.own, cutBlocks_next _ low] at freed
    exact ⟨(wrote.then steady).trans freed, fun _ => by omega⟩

/-- The truncation of a file to any size. -/
theorem itrunc2size_spec (running : fs.Running origin ip) (few : origin.roomy → fs.n_log_wrote ≤ 200) (size : Nat)
    (within : origin.bounded → size ≤ MAXFILE_SIZE ∧ (fs.inode ip).copy.size ≤ MAXFILE_SIZE) :
    Ensures (itrunc2size ip size) fs
      (fun _ after => ∃ bytes, Acted origin ip fs size bytes after ∧
        (size ≤ MAXFILE_SIZE → (fs.inode ip).copy.size ≤ MAXFILE_SIZE →
          bytes = resized (fs.content (fs.inode ip).inum) (fs.inode ip).copy.size size))
      (ResizeStops origin size) := by
  unfold itrunc2size
  rw [ensures_bind, ensures_get]
  have finish : ∀ {middle : FS} {bytes : Nat → Byte}, Wrote origin ip fs bytes middle → (origin.roomy → middle.n_log_wrote ≤ 200) →
      (size ≤ MAXFILE_SIZE → (fs.inode ip).copy.size ≤ MAXFILE_SIZE →
        bytes = resized (fs.content (fs.inode ip).inum) (fs.inode ip).copy.size size) →
      Ensures (do modifyCopy ip fun copy => { copy with size }; iupdate ip) middle
        (fun _ after => ∃ bytes, Acted origin ip fs size bytes after ∧ (size ≤ MAXFILE_SIZE → (fs.inode ip).copy.size ≤ MAXFILE_SIZE →
          bytes = resized (fs.content (fs.inode ip).inum) (fs.inode ip).copy.size size))
        (ResizeStops origin size) := by
    intro middle bytes wrote low same
    refine (wrote.finishSize size).mono (fun _ after acted => ⟨bytes, acted.1, same⟩) fun _ _ full => .inl ?_
    exact wrote.running.allocStops full.2 (room_of_few fun roomy => Nat.le_trans (low roomy) (by decide)) (.inr full.1)
  have stops : ∀ reason after, Stops origin reason after → ResizeStops origin size reason after := fun _ _ => .inl
  split
  next same =>
    exact finish (Steady.refl running).wrote few fun _ _ => by rw [resized, if_pos same]
  next apart =>
  dsimp only
  split
  next whole =>
    subst whole
    refine Ensures.bind ((itrunc_spec running).mono (fun _ _ same => same) fun reason after fails => ?_) ?_
    · obtain ⟨full, count, used⟩ := fails
      exact .inr ⟨rfl, full, running.commits used⟩
    rintro _ emptied ⟨acted, -, -, -⟩
    have none : blocksOf 0 = 0 := by decide
    rw [ensures_bind, ensures_get, acted.size, if_pos (Nat.le_refl _)]
    simp only [none, Nat.zero_mod, Nat.sub_zero, forRange]
    rw [ensures_bind, ensures_pure]
    refine ((Steady.refl acted.running).wrote.finishSize 0).mono ?_ fun reason after full => ?_
    · rintro _ after ⟨ends, -⟩
      refine ⟨_, acted.trans ends, fun _ _ => ?_⟩
      rw [← acted.keeps.inum, acted.keeps.inum, acted.own, resized, if_neg apart, if_pos rfl]
    · exact .inr ⟨rfl, full.1, acted.running.commits full.2⟩
  next positive =>
    rw [ensures_bind, ensures_get]
    split
    next grows =>
      refine Ensures.bind ((growBlocks_spec running few _ _ fun bounded => ?_).mono (fun _ _ same => same) stops) ?_
      · rw [blocksOf_uint (within bounded).2, Nat.add_sub_cancel' grows]
        exact blocksOf_le (within bounded).1
      rintro _ grown ⟨steady, low⟩
      refine finish steady.wrote low fun small small' => ?_
      rw [resized, if_neg apart, if_neg positive]
      funext p
      rw [cutBlocks, if_neg]
      omega
    next shrinks =>
      refine Ensures.bind ((shrinkBlocks_spec running few _ _ fun bounded => ?_).mono (fun _ _ same => same) stops) ?_
      · rw [blocksOf_uint (within bounded).1, Nat.add_sub_cancel' (Nat.le_of_not_le shrinks)]
        exact blocksOf_le (within bounded).2
      rintro _ shrunk ⟨wrote, low⟩
      refine finish wrote low fun small small' => ?_
      rw [resized, if_neg apart, if_neg positive, blocksOf_uint small, Nat.add_sub_cancel' (Nat.le_of_not_le shrinks)]

end FS
end Myfuse
