import Myfuse.Proofs.Operation

/-! Reads and writes of a file: the blocks of a range are mapped one by one, with
restarts between them, and the bytes of the file are what the data says. -/

namespace Myfuse
open Library Library.Exec

/-- `data` laid over the bytes from `off` on. -/
def overlay (bytes : Nat → Byte) (off : Nat) (data : List Byte) : Nat → Byte := fun p =>
  if off ≤ p ∧ p < off + data.length then data.getD (p - off) 0 else bytes p

theorem overlay_nil (bytes : Nat → Byte) (off : Nat) : overlay bytes off [] = bytes := by
  funext p
  rw [overlay, if_neg]
  simp only [List.length_nil]
  omega

/-- A range is laid down in two parts. -/
theorem overlay_split (bytes : Nat → Byte) (off : Nat) (data : List Byte) {count : Nat} (fits : count ≤ data.length) :
    overlay (overlay bytes off (data.take count)) (off + count) (data.drop count) = overlay bytes off data := by
  funext p
  simp only [overlay, List.length_take, List.length_drop, Nat.min_eq_left fits]
  by_cases tail : off + count ≤ p ∧ p < off + count + (data.length - count)
  · rw [if_pos tail, if_pos (by omega), List.getD_eq_getElem?_getD, List.getD_eq_getElem?_getD, List.getElem?_drop]
    congr 2
    omega
  · rw [if_neg tail]
    by_cases head : off ≤ p ∧ p < off + count
    · rw [if_pos head, if_pos (by omega), List.getD_eq_getElem?_getD, List.getD_eq_getElem?_getD,
        List.getElem?_take_of_lt (by omega)]
    · rw [if_neg head, if_neg (by omega)]

theorem sizeT_of_lt {n : Nat} (small : n < 2 ^ 64) : sizeT n = n := Nat.mod_eq_of_lt small

/-- An operation that has written little finds room for one block more. -/
theorem room_of_few {roomy : Prop} {wrote : Nat} (few : roomy → wrote ≤ 300) : roomy → wrote + 1 < NLOG - 1 := fun holds => by
  have := few holds
  simp only [NLOG, MAXOPBLOCKS]
  omega

theorem block_below {bn : Nat} (below : bn * BSIZE < MAXFILE_SIZE) : bn < MAXFILE_BLOCKS := Nat.lt_of_mul_lt_mul_right below

namespace FS
variable {origin : Origin} {fs after : FS} {ip : Nat}

/-! Restarts. -/

theorem Running.steadyRestart (running : fs.Running origin ip) (clean : origin.watch → RestartsClean fs.history → fs.Clean ip) :
    Steady origin ip fs fs.restarted :=
  ⟨running.restart clean, restarted_keeps ip fs, restarted_content fs, by rw [restarted_inode], by rw [restarted_inode]⟩

/-- A restart before the rest of a routine. -/
theorem Running.ensuresRestart (running : fs.Running origin ip) (clean : origin.watch → RestartsClean fs.history → fs.Clean ip)
    {next : M α} {ok : α → FS → Prop} (rest : Steady origin ip fs fs.restarted → Ensures next fs.restarted ok (Stops origin)) :
    Ensures (do endOp; beginOp; next) fs ok (Stops origin) := by
  have restarts := restart_spec running.op
  have waits : ∀ reason after, (reason = .blocked ∧ 1 < fs.log.outstanding ∧ after = fs.closed) → Stops origin reason after := by
    rintro reason after ⟨-, many, rfl⟩
    refine ⟨fun roomy => ?_, fun watching => (running.sound watching).commits⟩
    have alone := running.op.alone roomy
    omega
  rw [ensures_bind] at restarts ⊢
  refine restarts.mono (fun _ middle begins => ?_) waits
  refine Ensures.bind (begins.mono (fun _ _ same => same) waits) ?_
  rintro _ _ rfl
  exact rest (running.steadyRestart clean)

/-- The lock flag is no part of what a file holds. -/
theorem setLocked_spec (running : fs.Running origin ip) (value : Bool) {exit : Exit → FS → Prop} :
    Ensures (modifyInode ip fun inode => { inode with locked := value }) fs
      (fun _ after => Steady origin ip fs after ∧ after.n_log_wrote = fs.n_log_wrote ∧
        after.inode = assign fs.inode ip { fs.inode ip with locked := value } ∧ after.store = fs.store)
      exit := by
  have uses := modifyInode_uses ip (fun inode => { inode with locked := value }) fs
  unfold modifyInode at uses ⊢
  rw [ensures_modify] at uses ⊢
  have keeps : Keeps ip fs { fs with inode := assign fs.inode ip { fs.inode ip with locked := value } } :=
    ⟨rfl, rfl, fun ip' apart => assign_of_ne apart _ _, by simp, by simp, by simp, fun _ _ _ => rfl, rfl, by simp, id⟩
  have copy : (assign fs.inode ip { fs.inode ip with locked := value } ip).copy = (fs.inode ip).copy := by simp
  have roots := keeps.roots_same running.volume.table running.loaded (by rw [copy])
  generalize afterIs : ({ fs with inode := _ } : FS) = after at uses keeps roots
  have store : after.store = fs.store := by rw [← afterIs]
  have held : after.held = fs.held := held_congr roots fun _ _ _ _ _ => by rw [store]
  have allocator : after.Allocator origin := by
    refine running.volume.toAllocator.congr keeps.sb ?_ ⟨[], ?_, by simp⟩ fun _ _ => by rw [store]
    · rw [← afterIs]
    · rw [← afterIs]
      rfl
  have volume : after.Volume origin :=
    ⟨allocator, keeps.table running.volume.table, by rw [held, keeps.sb, store]; exact running.volume.owned⟩
  have same : (after.inode ip).copy = (fs.inode ip).copy := by rw [← afterIs, copy]
  refine ⟨⟨running.use volume keeps uses.1 uses.2, keeps, ?_, by rw [same], by rw [same]⟩, by rw [← afterIs], by rw [← afterIs], store⟩
  funext inum p
  exact content_congr (by rw [held]) fun _ => by rw [store]

/-- Locking a loaded inode again reads nothing. -/
theorem ilock_spec (running : fs.Running origin ip) (unlocked : origin.roomy → (fs.inode ip).locked = false) :
    Ensures (ilock ip) fs
      (fun _ after => Steady origin ip fs after ∧ after.n_log_wrote = fs.n_log_wrote ∧ after.store = fs.store ∧
        (after.inode ip).copy = (fs.inode ip).copy)
      (Stops origin) := by
  have referenced := running.loaded.1.2
  unfold ilock
  rw [ensures_bind, ensures_get, if_neg (by omega)]
  split
  next locked =>
    refine (ensures_stop _).mpr (running.stops (.refl fs) fun roomy => ?_)
    rw [unlocked roomy] at locked
    cases locked
  next =>
    refine Ensures.bind (setLocked_spec running true) ?_
    rintro _ after ⟨steady, wrote, inode, store⟩
    rw [if_pos running.loaded.2, ensures_pure]
    exact ⟨steady, wrote, store, by rw [inode]; simp⟩

/-- After a possible restart few blocks are logged. -/
theorem restartOpOn_spec (running : fs.Running origin ip) (few : origin.roomy → fs.n_log_wrote + 1 < NLOG - 1) {nwrote : Nat}
    (some : 1 < nwrote) :
    Ensures (restartOpOn ip nwrote) fs
      (fun _ after => Steady origin ip fs after ∧ after.n_log_wrote < nwrote - 1) (Stops origin) := by
  unfold restartOpOn
  rw [ensures_bind, ensures_get]
  split
  next =>
    refine Ensures.bind (iupdate_roomy running few) ?_
    rintro _ updated ⟨steady₁, -, -, agrees⟩
    refine Ensures.bind (setLocked_spec steady₁.running false) ?_
    rintro _ unlocked ⟨steady₂, -, inode₂, store₂⟩
    have copy₂ : (unlocked.inode ip).copy = (updated.inode ip).copy := by rw [inode₂]; simp
    have clean : origin.watch → RestartsClean unlocked.history → unlocked.Clean ip := fun watching _ => by
      have agrees₂ := agrees.congr steady₂.keeps.sb store₂ steady₂.keeps.inum (by rw [copy₂]) (by rw [copy₂]) (by rw [copy₂])
        (by rw [copy₂])
      exact agrees₂.clean (steady₂.running.sound watching).used
    refine steady₂.running.ensuresRestart clean fun steady₃ => ?_
    refine (ilock_spec steady₃.running fun _ => ?_).weaken ?_
    · rw [restarted_inode, inode₂]
      simp
    · rintro _ after ⟨steady₄, wrote, -, -⟩
      have none := restarted_n_log_wrote unlocked
      exact ⟨((steady₁.trans steady₂).trans steady₃).trans steady₄, by omega⟩
  next below =>
    rw [ensures_pure]
    exact ⟨.refl running, Nat.lt_of_not_le below⟩

/-! One block. -/

theorem imap2blockno_outside {bn : Nat} (large : MAXFILE_BLOCKS ≤ bn) :
    Ensures (imap2blockno ip bn) fs (fun _ _ => False) fun reason after => after = fs ∧
      (reason = .errExit .tooManyBlocks ∧ MAXOPBLOCKS - 1 - 3 ≤ fs.n_log_wrote ∨ reason = .errExit .inodeTooBig) := by
  simp only [MAXFILE_BLOCKS, NDIRECT, NINDIRECT, NINDIRECT1, NINDIRECT2, NINDIRECT3] at large
  unfold imap2blockno assertNoNeedToRestartOpInImap2blockno
  rw [ensures_bind, ensures_bind, ensures_get, ensures_ite]
  refine ⟨fun many => (ensures_stop _).mpr ⟨rfl, .inl ⟨rfl, many⟩⟩, fun _ => ?_⟩
  rw [ensures_pure]
  dsimp only
  rw [if_neg (by simp only [NDIRECT]; omega), if_neg (by simp only [NDIRECT, NINDIRECT1]; omega),
    if_neg (by simp only [NDIRECT, NINDIRECT1, NINDIRECT2]; omega),
    if_neg (by simp only [NDIRECT, NINDIRECT1, NINDIRECT2, NINDIRECT3]; omega), ensures_stop]
  exact ⟨rfl, .inr rfl⟩

/-- A block of the file is mapped; nothing else is seen to change. -/
structure Mapped (origin : Origin) (ip bn : Nat) (fs : FS) (block : Nat) (after : FS) : Prop where
  steady : Steady origin ip fs after
  holds : after.held (fs.inode ip).inum (pathOf bn) = block
  nonzero : block ≠ 0
  wrote : after.n_log_wrote ≤ fs.n_log_wrote + 11

/-- Blocks added to the block map are seen by nobody. -/
theorem Running.grow {count : Nat} (running : fs.Running origin ip) (grown : Grown origin ip fs after) (used : LogUse count fs after)
    (lists : Lists fs after) : Steady origin ip fs after := by
  obtain ⟨addrs, copy⟩ := grown.copy
  exact ⟨running.use grown.volume grown.keeps used lists, grown.keeps, grown.content, by rw [copy], by rw [copy]⟩

theorem Running.map {bn : Nat} (running : fs.Running origin ip) (few : origin.roomy → fs.n_log_wrote < MAXOPBLOCKS - 1 - 3)
    (within : origin.bounded → bn < MAXFILE_BLOCKS) :
    Ensures (imap2blockno ip bn) fs (Mapped origin ip bn fs) (Stops origin) := by
  have uses := imap2blockno_uses ip bn fs
  have room : origin.roomy → fs.n_log_wrote + 11 < NLOG - 1 := fun roomy => by
    have few := few roomy
    simp only [NLOG, MAXOPBLOCKS] at few ⊢
    omega
  by_cases small : bn < MAXFILE_BLOCKS
  · refine ((imap2blockno_spec running.volume running.loaded running.op.inOp small).and uses).mono ?_ ?_
    · rintro block after ⟨found, used, lists⟩
      exact ⟨running.grow found.grown used lists, found.holds, found.nonzero, used.high⟩
    · rintro reason after ⟨many | fails, used⟩
      · exact running.stops used fun roomy => absurd many.2 (Nat.not_le.mpr (few roomy))
      · exact running.allocStops used room fails
  · refine ((imap2blockno_outside (Nat.not_lt.mp small)).and uses).mono (fun _ _ both => both.1.elim) ?_
    rintro reason after ⟨⟨-, many | why⟩, used⟩
    · exact running.stops used fun roomy => absurd many.2 (Nat.not_le.mpr (few roomy))
    · exact running.stops used fun _ => .inr ⟨.inl why, fun bounded => small (within bounded)⟩

/-! Writes. -/

/-- The operation goes on; the bytes of the inode are now `bytes`. -/
structure Wrote (origin : Origin) (ip : Nat) (fs : FS) (bytes : Nat → Byte) (after : FS) : Prop where
  running : after.Running origin ip
  keeps : Keeps ip fs after
  size : (after.inode ip).copy.size = (fs.inode ip).copy.size
  nlink : (after.inode ip).copy.nlink = (fs.inode ip).copy.nlink
  own : after.content (fs.inode ip).inum = bytes
  others : ∀ inum, inum ≠ (fs.inode ip).inum → after.content inum = fs.content inum

theorem Steady.wrote (steady : Steady origin ip fs after) : Wrote origin ip fs (fs.content (fs.inode ip).inum) after :=
  ⟨steady.running, steady.keeps, steady.size, steady.nlink, by rw [steady.content], fun _ _ => by rw [steady.content]⟩

theorem Wrote.trans {middle : FS} {bytes bytes' : Nat → Byte} (head : Wrote origin ip fs bytes middle)
    (tail : Wrote origin ip middle bytes' after) : Wrote origin ip fs bytes' after where
  running := tail.running
  keeps := head.keeps.trans tail.keeps
  size := tail.size.trans head.size
  nlink := tail.nlink.trans head.nlink
  own := by rw [← head.keeps.inum, tail.own]
  others inum apart := by
    rw [tail.others inum (by rw [head.keeps.inum]; exact apart), head.others inum apart]

theorem Wrote.then {middle : FS} {bytes : Nat → Byte} (head : Wrote origin ip fs bytes middle)
    (tail : Steady origin ip middle after) : Wrote origin ip fs bytes after := by
  have last := head.trans tail.wrote
  rwa [head.keeps.inum, head.own] at last

theorem Steady.and {middle : FS} {bytes : Nat → Byte} (head : Steady origin ip fs middle)
    (tail : Wrote origin ip middle bytes after) : Wrote origin ip fs bytes after := head.wrote.trans tail

/-- A mapped block is changed in place. -/
theorem writeLeaf_spec {bn block offset : Nat} {data : List Byte} (running : fs.Running origin ip)
    (few : origin.roomy → fs.n_log_wrote + 1 < NLOG - 1) (holds : fs.held (fs.inode ip).inum (pathOf bn) = block) (nonzero : block ≠ 0)
    (fits : offset + data.length ≤ BSIZE) :
    Ensures (loggedUpdate block fun old => old.splice offset data) fs
      (fun _ after => Wrote origin ip fs (overlay (fs.content (fs.inode ip).inum) (bn * BSIZE + offset) data) after ∧
        after.n_log_wrote = fs.n_log_wrote + 1)
      (Stops origin) := by
  have volume := running.volume
  have data' : fs.sb.InData block := holds ▸ volume.owned.inside _ _ (holds ▸ nonzero)
  refine ((loggedUpdate_spec running.op.inOp _ _).and (loggedUpdate_uses _ _ fs)).mono ?_ ?_
  · rintro _ after ⟨⟨_, afterIs⟩, used, lists⟩
    have inode : after.inode = fs.inode := by rw [afterIs]; rfl
    have sb : after.sb = fs.sb := by rw [afterIs]; rfl
    have written : after.store block = (fs.store block).splice offset data := by
      rw [afterIs]
      simp [logged]
    have store : ∀ other, other ≠ block → after.store other = fs.store other := fun other apart => by
      rw [afterIs]
      simp [logged, assign_of_ne apart]
    have keeps : Keeps ip fs after := by
      refine .of_same sb (by rw [afterIs]; rfl) inode (by rw [afterIs]; simp [logged]) (fun inum inside => store _ ?_)
        (volume.table.inside ip running.loaded.1)
      exact fun same => Superblock.iblock_not_data volume.layout inside (same ▸ data')
    have offBitmap : ∀ other, fs.sb.InBitmap other → after.store other = fs.store other := fun other bitmap =>
      store _ fun same => Superblock.data_not_bitmap volume.layout data' (same ▸ bitmap)
    have held : after.held = fs.held :=
      held_congr (keeps.roots_same volume.table running.loaded (by rw [inode])) fun owner path deep holds' _ => by
        rw [store _ fun same => leaf_not_index volume.owned.distinct (holds ▸ nonzero) deep (holds.trans same.symm)]
    have allocator : after.Allocator origin :=
      volume.toAllocator.congr sb (by rw [afterIs]; rfl) (.one rfl (by rw [afterIs]; rfl)) offBitmap
    have owned := volume.owned.congr fun blockno inside => bitOf_congr (offBitmap _ (Superblock.bblock_inBitmap inside.covered))
    have elsewhere : ∀ inum p, ¬ (inum = (fs.inode ip).inum ∧ p / BSIZE = bn) → after.content inum p = fs.content inum p := by
      intro inum p other
      refine content_congr (by rw [held]) fun holds' => store _ fun same => other ?_
      obtain ⟨owner, path⟩ := volume.owned.distinct _ _ _ _ holds' (same.trans holds.symm)
      exact ⟨owner, pathOf_injective path⟩
    refine ⟨⟨running.use ⟨allocator, keeps.table volume.table, by rw [held, sb]; exact owned⟩ keeps used lists, keeps,
      by rw [inode], by rw [inode], funext fun p => ?_, fun inum apart => funext fun p => elsewhere _ _ fun here => apart here.1⟩,
      by rw [afterIs]; rfl⟩
    by_cases here : p / BSIZE = bn
    · have place : (bn * BSIZE + offset ≤ p ∧ p < bn * BSIZE + offset + data.length) ↔
          offset ≤ p % BSIZE ∧ p % BSIZE < offset + data.length := by
        simp only [BSIZE] at here fits ⊢
        omega
      have same := holds
      rw [← here] at same
      rw [content_of_held (by rw [held, same]; exact nonzero), held, same, written,
        Bytes.byte_splice _ _ _ (Nat.mod_lt _ (by decide)), overlay]
      simp only [place]
      by_cases inside : offset ≤ p % BSIZE ∧ p % BSIZE < offset + data.length
      · rw [if_pos inside, if_pos inside]
        congr 1
        simp only [BSIZE] at here ⊢
        omega
      · rw [if_neg inside, if_neg inside, content_of_held (by rw [same]; exact nonzero), same]
    · rw [elsewhere _ _ fun both => here both.2, overlay, if_neg]
      simp only [BSIZE] at here fits ⊢
      omega
  · rintro _ _ ⟨full, used⟩
    exact running.allocStops used few (.inr full)

theorem writeBlock_spec {bn offset : Nat} {data : List Byte} (running : fs.Running origin ip)
    (few : origin.roomy → fs.n_log_wrote < MAXOPBLOCKS - 1 - 3) (within : origin.bounded → bn < MAXFILE_BLOCKS)
    (fits : offset + data.length ≤ BSIZE) :
    Ensures (writeBlock ip bn offset data) fs
      (fun _ after => Wrote origin ip fs (overlay (fs.content (fs.inode ip).inum) (bn * BSIZE + offset) data) after ∧
        after.n_log_wrote ≤ fs.n_log_wrote + 12)
      (Stops origin) := by
  unfold writeBlock
  refine Ensures.bind (running.map few within) ?_
  rintro block middle mapped
  have wrote := mapped.wrote
  have keeps := mapped.steady.keeps
  refine (writeLeaf_spec mapped.steady.running (fun roomy => ?_) (by rw [keeps.inum]; exact mapped.holds) mapped.nonzero fits).weaken ?_
  · have few := few roomy
    simp only [NLOG, MAXOPBLOCKS] at few ⊢
    omega
  · rintro _ after ⟨written, wrote'⟩
    rw [keeps.inum, mapped.steady.content] at written
    exact ⟨mapped.steady.and written, by omega⟩

/-- The loop over whole blocks: what is left to write stays the same, and fits one block at the end. -/
theorem writeBlocks_spec (data : List Byte) (bn : Nat) (fs : FS) (running : fs.Running origin ip)
    (few : origin.roomy → fs.n_log_wrote ≤ 200) (within : origin.bounded → bn * BSIZE + data.length ≤ MAXFILE_SIZE) :
    Ensures (writeBlocks ip data bn) fs
      (fun left after => ∃ bytes, Wrote origin ip fs bytes after ∧ (origin.roomy → after.n_log_wrote ≤ 200) ∧ left.1.length ≤ BSIZE ∧
        (origin.bounded → left.2 * BSIZE + left.1.length ≤ MAXFILE_SIZE) ∧
        overlay bytes (left.2 * BSIZE) left.1 = overlay (fs.content (fs.inode ip).inum) (bn * BSIZE) data)
      (Stops origin) := by
  unfold writeBlocks
  split
  next more =>
    refine Ensures.bind (restartOpOn_spec running (room_of_few fun roomy => Nat.le_trans (few roomy) (by decide)) (by decide)) ?_
    rintro _ restarted ⟨steady, below⟩
    have length : (data.take BSIZE).length = BSIZE := by rw [List.length_take, Nat.min_eq_left (Nat.le_of_lt more)]
    have below' : restarted.n_log_wrote < MAXOPBLOCKS - 1 - 3 := by omega
    refine Ensures.bind (writeBlock_spec steady.running (fun _ => below') (fun bounded => ?_) (by rw [length, Nat.zero_add])) ?_
    · have fits := within bounded
      refine block_below (Nat.lt_of_lt_of_le ?_ fits)
      simp only [BSIZE] at more
      omega
    rintro _ written ⟨wrote, few'⟩
    have whole := steady.and wrote
    refine (writeBlocks_spec (data.drop BSIZE) (bn + 1) written whole.running (fun _ => ?_) fun bounded => ?_).weaken ?_
    · simp only [MAXOPBLOCKS] at below
      omega
    · have fits := within bounded
      rw [List.length_drop, Nat.add_mul, Nat.one_mul, Nat.add_assoc, Nat.add_sub_cancel' (Nat.le_of_lt more)]
      exact fits
    · rintro left after ⟨bytes, wrote', rest⟩
      refine ⟨bytes, whole.trans wrote', rest.1, rest.2.1, rest.2.2.1, ?_⟩
      rw [rest.2.2.2, whole.keeps.inum, whole.own, steady.keeps.inum, steady.content, Nat.add_zero,
        show (bn + 1) * BSIZE = bn * BSIZE + BSIZE by rw [Nat.add_mul, Nat.one_mul],
        overlay_split _ _ _ (Nat.le_of_lt more)]
  next last =>
    rw [ensures_pure]
    exact ⟨_, (Steady.refl running).wrote, few, Nat.not_lt.mp last, within, rfl⟩
  termination_by data.length
  decreasing_by
    rename_i more _ _ _ _ _ _ _ _ _
    simp only [BSIZE, List.length_drop] at more ⊢
    omega

/-- What an operation on `ip` has made of its file. -/
structure Acted (origin : Origin) (ip : Nat) (fs : FS) (size : Nat) (bytes : Nat → Byte) (after : FS) : Prop where
  running : after.Running origin ip
  keeps : Keeps ip fs after
  size : (after.inode ip).copy.size = size
  own : after.content (fs.inode ip).inum = bytes
  others : ∀ inum, inum ≠ (fs.inode ip).inum → after.content inum = fs.content inum
  nlink : (after.inode ip).copy.nlink = (fs.inode ip).copy.nlink
  agrees : after.Agrees ip

theorem Acted.trans {middle : FS} {size size' : Nat} {bytes bytes' : Nat → Byte} (head : Acted origin ip fs size bytes middle)
    (tail : Acted origin ip middle size' bytes' after) : Acted origin ip fs size' bytes' after where
  running := tail.running
  keeps := head.keeps.trans tail.keeps
  size := tail.size
  own := by rw [← head.keeps.inum, tail.own]
  others inum apart := by rw [tail.others inum (by rw [head.keeps.inum]; exact apart), head.others inum apart]
  nlink := tail.nlink.trans head.nlink
  agrees := tail.agrees

theorem touch_spec (running : fs.Running origin ip) {exit : Exit → FS → Prop} :
    Ensures (touch ip) fs (fun _ after => Steady origin ip fs after ∧ after.n_log_wrote = fs.n_log_wrote) exit := by
  unfold touch
  refine Ensures.bind (getCurrentTimespec_spec running) ?_
  rintro now ticked ⟨steady, wrote, -, -⟩
  refine Ensures.weaken (steady.running.setCopy (fun copy => { copy with st_atimespec := now, st_mtimespec := now }) (fun _ => rfl) fun _ => rfl) ?_
  rintro _ after ⟨running', keeps, content, wrote', _, copy⟩
  exact ⟨steady.trans ⟨running', keeps, content, by rw [copy], by rw [copy]⟩, wrote'.trans wrote⟩

/-- `touch` and `iupdate` at the end of a write. -/
theorem Wrote.finish {middle : FS} {bytes : Nat → Byte} (wrote : Wrote origin ip fs bytes middle)
    (few : origin.roomy → middle.n_log_wrote ≤ 300)
    (count : Nat) :
    Ensures (do touch ip; iupdate ip; pure count) middle
      (fun value after => value = count ∧ Acted origin ip fs (fs.inode ip).copy.size bytes after ∧
        after.n_log_wrote ≤ middle.n_log_wrote + 1)
      (Stops origin) := by
  refine Ensures.bind (touch_spec wrote.running) ?_
  rintro _ touched ⟨steady, same⟩
  refine Ensures.bind (iupdate_roomy steady.running (room_of_few (same ▸ few))) ?_
  rintro _ after ⟨steady', wrote', -, agrees⟩
  rw [ensures_pure]
  have whole := wrote.then (steady.trans steady')
  exact ⟨rfl, ⟨whole.running, whole.keeps, whole.size, whole.own, whole.others, whole.nlink, agrees⟩, by omega⟩

theorem inodeWriteNbytesLocked_spec {data : List Byte} {off : Nat} (running : fs.Running origin ip)
    (few : origin.roomy → fs.n_log_wrote ≤ 200)
    (inside : off ≤ MAXFILE_SIZE) (within : origin.bounded → off < MAXFILE_SIZE) (memory : data.length < 2 ^ 63) :
    Ensures (inodeWriteNbytesLocked ip data off) fs
      (fun count after => count = min data.length (MAXFILE_SIZE - off) ∧
        Acted origin ip fs (max (fs.inode ip).copy.size (off + count))
          (overlay (fs.content (fs.inode ip).inum) off (data.take count)) after ∧
        after.n_log_wrote ≤ 300)
      (Stops origin) := by
  obtain ⟨nbytes, nbytesIs⟩ : ∃ nbytes, nbytes = min data.length (MAXFILE_SIZE - off) := ⟨_, rfl⟩
  have limit : MAXFILE_SIZE < 2 ^ 62 := by decide
  have counts : (if sizeT (off + data.length) > MAXFILE_SIZE then
      sizeT (data.length + 2 ^ 64 - (sizeT (off + data.length) - MAXFILE_SIZE)) else data.length) = nbytes := by
    generalize MAXFILE_SIZE = bound at *
    rw [sizeT_of_lt (by omega)]
    split
    next beyond =>
      rw [sizeT]
      omega
    next => omega
  have fits : off + nbytes ≤ MAXFILE_SIZE := by
    generalize MAXFILE_SIZE = bound at *
    omega
  have wraps : sizeT (off + nbytes) = off + nbytes := sizeT_of_lt (by
    generalize MAXFILE_SIZE = bound at *
    omega)
  have length : (data.take nbytes).length = nbytes := by
    rw [List.length_take]
    omega
  have start : off / BSIZE * BSIZE + off % BSIZE = off := by rw [Nat.mul_comm]; exact Nat.div_add_mod off BSIZE
  unfold inodeWriteNbytesLocked
  rw [if_neg (Nat.not_lt.mpr inside)]
  simp only [counts, wraps]
  generalize takenIs : data.take nbytes = taken at length
  rw [← nbytesIs]
  refine Ensures.bind (running.setCopy (fun copy => { copy with size := if copy.size < off + nbytes then off + nbytes else copy.size }) (fun _ => rfl) fun _ => rfl) ?_
  rintro _ sized ⟨running₁, keeps₁, content₁, wrote₁, _, copy₁⟩
  have size₁ : (sized.inode ip).copy.size = max (fs.inode ip).copy.size (off + nbytes) := by
    rw [copy₁]
    simp only
    split <;> omega
  refine Ensures.bind (iupdate_roomy running₁ (room_of_few fun roomy => ?_)) ?_
  · rw [wrote₁]
    exact Nat.le_trans (few roomy) (by decide)
  rintro _ updated ⟨steady₂, wrote₂, -, -⟩
  refine Ensures.bind (restartOpOn_spec steady₂.running (room_of_few fun roomy => ?_) (by decide)) ?_
  · have few := few roomy
    omega
  rintro _ restarted ⟨steady₃, wrote₃⟩
  have steady := steady₂.trans steady₃
  have low : off % BSIZE < BSIZE := Nat.mod_lt _ (by decide)
  refine Ensures.bind (writeBlock_spec steady.running (fun _ => by omega) (fun bounded => ?_) ?_) ?_
  · refine block_below (Nat.lt_of_le_of_lt ?_ (within bounded))
    omega
  · rw [List.length_take]
    omega
  rintro _ written ⟨wrote₄, few₄⟩
  have head := steady.and wrote₄
  rw [steady.keeps.inum, steady.content, start] at head
  have few₄ : written.n_log_wrote ≤ 140 := by
    simp only [MAXOPBLOCKS] at wrote₃
    omega
  -- The operation as a whole, from the state with the new size.
  have whole : ∀ {bytes after}, Acted origin ip sized (sized.inode ip).copy.size bytes after →
      Acted origin ip fs (max (fs.inode ip).copy.size (off + nbytes)) bytes after := fun acted =>
    ⟨acted.running, keeps₁.trans acted.keeps, acted.size.trans size₁, by rw [← keeps₁.inum, acted.own],
      fun inum apart => by rw [acted.others inum (by rw [keeps₁.inum]; exact apart), content₁],
      by rw [acted.nlink, copy₁], acted.agrees⟩
  have done : ∀ count after, (count = nbytes ∧
      Acted origin ip sized (sized.inode ip).copy.size (overlay (fs.content (fs.inode ip).inum) off taken) after ∧
      after.n_log_wrote ≤ 300) → count = nbytes ∧ Acted origin ip fs (max (fs.inode ip).copy.size (off + count))
        (overlay (fs.content (fs.inode ip).inum) off (data.take count)) after ∧ after.n_log_wrote ≤ 300 := by
    rintro count after ⟨rfl, acted, few⟩
    rw [takenIs]
    exact ⟨rfl, whole acted, few⟩
  have base : sized.content (sized.inode ip).inum = fs.content (fs.inode ip).inum := by rw [keeps₁.inum, content₁]
  rw [base] at head
  split
  next short =>
    rw [List.take_of_length_le (by omega)] at head
    exact (head.finish (fun _ => by omega) nbytes).weaken fun count after last => done count after ⟨last.1, last.2.1, by omega⟩
  next long =>
    refine Ensures.bind (writeBlocks_spec (taken.drop (BSIZE - off % BSIZE)) (off / BSIZE + 1) written head.running
      (fun _ => by omega) fun _ => ?_) ?_
    · rw [List.length_drop, length, show (off / BSIZE + 1) * BSIZE = off + (BSIZE - off % BSIZE) by simp only [BSIZE]; omega,
        Nat.add_assoc, Nat.add_sub_cancel' (Nat.le_of_lt (Nat.not_le.mp long))]
      exact fits
    rintro ⟨left, bn⟩ rest ⟨bytes, wrote₅, few₅, one, within, laid⟩
    rw [head.keeps.inum, head.own, show (off / BSIZE + 1) * BSIZE = off + (BSIZE - off % BSIZE) by simp only [BSIZE]; omega,
      overlay_split _ _ _ (by omega)] at laid
    dsimp only at one within laid ⊢
    refine Ensures.bind (restartOpOn_spec wrote₅.running (room_of_few fun roomy => Nat.le_trans (few₅ roomy) (by decide)) (by decide)) ?_
    rintro _ ready ⟨steady₆, wrote₆⟩
    have tail := (head.trans wrote₅).then steady₆
    simp only [MAXOPBLOCKS] at wrote₆
    have own : ready.content (ready.inode ip).inum = bytes := by rw [tail.keeps.inum, tail.own]
    split
    next more =>
      refine Ensures.bind (writeBlock_spec tail.running (fun _ => by simp only [MAXOPBLOCKS]; omega) (fun bounded => ?_) (by omega)) ?_
      · exact block_below (Nat.lt_of_lt_of_le (Nat.lt_add_of_pos_right (Nat.pos_of_ne_zero more)) (within bounded))
      rintro _ last ⟨wrote₇, few₇⟩
      rw [own, Nat.add_zero, laid] at wrote₇
      exact ((tail.trans wrote₇).finish (fun _ => by omega) nbytes).weaken fun count after last => done count after ⟨last.1, last.2.1, by omega⟩
    next none =>
      have empty : left = [] := List.eq_nil_of_length_eq_zero (by omega)
      rw [empty, overlay_nil] at laid
      rw [laid] at tail
      exact (tail.finish (fun _ => by omega) nbytes).weaken fun count after last => done count after ⟨last.1, last.2.1, by omega⟩

/-! Reads. -/

/-- The bytes of `[off, off + count)`. -/
def bytesFrom (bytes : Nat → Byte) (off count : Nat) : List Byte := (List.range count).map fun k => bytes (off + k)

theorem bytesFrom_append (bytes : Nat → Byte) (off first second : Nat) :
    bytesFrom bytes off first ++ bytesFrom bytes (off + first) second = bytesFrom bytes off (first + second) := by
  simp only [bytesFrom, List.range_add, List.map_append, List.map_map]
  congr 2
  funext k
  simp [Nat.add_assoc]

theorem readBlock_spec {bn offset count : Nat} (running : fs.Running origin ip)
    (few : origin.roomy → fs.n_log_wrote < MAXOPBLOCKS - 1 - 3)
    (within : origin.bounded → bn < MAXFILE_BLOCKS) (fits : offset + count ≤ BSIZE) :
    Ensures (readBlock ip bn offset count) fs
      (fun data after => Steady origin ip fs after ∧ after.n_log_wrote ≤ fs.n_log_wrote + 11 ∧
        data = bytesFrom (fs.content (fs.inode ip).inum) (bn * BSIZE + offset) count)
      (Stops origin) := by
  unfold readBlock loggedRead
  refine Ensures.bind (running.map few within) ?_
  rintro block after mapped
  rw [ensures_bind, ensures_bind, ensures_get, ensures_pure, ensures_pure]
  refine ⟨mapped.steady, mapped.wrote, ?_⟩
  rw [← mapped.steady.content]
  refine List.map_congr_left fun k inside => ?_
  rw [List.mem_range] at inside
  have place : (bn * BSIZE + offset + k) / BSIZE = bn ∧ (bn * BSIZE + offset + k) % BSIZE = offset + k := by
    simp only [BSIZE] at fits ⊢
    omega
  rw [content_of_held (by rw [place.1, mapped.holds]; exact mapped.nonzero), place.1, place.2, mapped.holds]

theorem readBlocks_spec (nbytes bn : Nat) (fs : FS) (running : fs.Running origin ip)
    (few : origin.roomy → fs.n_log_wrote ≤ 200)
    (within : origin.bounded → bn * BSIZE + nbytes ≤ MAXFILE_SIZE) :
    Ensures (readBlocks ip nbytes bn) fs
      (fun data after => Steady origin ip fs after ∧ (origin.roomy → after.n_log_wrote ≤ 200) ∧
        data = bytesFrom (fs.content (fs.inode ip).inum) (bn * BSIZE) nbytes)
      (Stops origin) := by
  have room := room_of_few fun roomy => Nat.le_trans (few roomy) (show 200 ≤ 300 by decide)
  have inside : nbytes ≠ 0 → origin.bounded → bn < MAXFILE_BLOCKS := fun some bounded =>
    block_below (Nat.lt_of_lt_of_le (Nat.lt_add_of_pos_right (Nat.pos_of_ne_zero some)) (within bounded))
  unfold readBlocks
  split
  next more =>
    refine Ensures.bind (restartOpOn_spec running room (by decide)) ?_
    rintro _ ready ⟨steady, below⟩
    have below' : ready.n_log_wrote < MAXOPBLOCKS - 1 - 3 := by omega
    refine Ensures.bind (readBlock_spec steady.running (fun _ => below') (inside (by omega)) (Nat.le_of_eq (Nat.zero_add _))) ?_
    rintro head middle ⟨steady', few', headIs⟩
    refine Ensures.bind (readBlocks_spec (nbytes - BSIZE) (bn + 1) middle steady'.running (fun _ => ?_) fun bounded => ?_) ?_
    · simp only [MAXOPBLOCKS] at below
      omega
    · rw [Nat.add_mul, Nat.one_mul, Nat.add_assoc, Nat.add_sub_cancel' (Nat.le_of_lt more)]
      exact within bounded
    rintro rest after ⟨steady₂, few₂, restIs⟩
    rw [ensures_pure]
    refine ⟨(steady.trans steady').trans steady₂, few₂, ?_⟩
    rw [headIs, restIs, (steady.trans steady').content, (steady.trans steady').keeps.inum, steady.content, steady.keeps.inum,
      Nat.add_zero, Nat.add_mul, Nat.one_mul, bytesFrom_append, Nat.add_sub_cancel' (Nat.le_of_lt more)]
  next one =>
    split
    next some =>
      refine Ensures.bind (restartOpOn_spec running room (by decide)) ?_
      rintro _ ready ⟨steady, below⟩
      have below' : ready.n_log_wrote < MAXOPBLOCKS - 1 - 3 := by omega
      refine (readBlock_spec steady.running (fun _ => below') (inside some) (by omega)).weaken ?_
      rintro data after ⟨steady', few', dataIs⟩
      simp only [MAXOPBLOCKS] at below
      refine ⟨steady.trans steady', fun _ => by omega, ?_⟩
      rw [dataIs, Nat.add_zero, steady.content, steady.keeps.inum]
    next none =>
      rw [ensures_pure]
      rw [not_not] at none
      exact ⟨.refl running, few, by rw [none]; rfl⟩
  termination_by nbytes
  decreasing_by
    rename_i more _ _ _ _ _ _ _ _ _ _
    simp only [BSIZE] at more ⊢
    omega

/-- The number of bytes a read serves. -/
def served (size nbytes off : Nat) : Nat :=
  if sizeT (off + nbytes) > size then sizeT (nbytes + 2 ^ 64 - (sizeT (off + nbytes) - size)) else nbytes

theorem served_eq {size nbytes off : Nat} (start : off ≤ size) (fits : off + nbytes < 2 ^ 64) :
    served size nbytes off = min nbytes (size - off) := by
  rw [served, sizeT_of_lt fits]
  split
  next beyond =>
    rw [sizeT]
    omega
  next => omega

/-- A read changes no byte, and the inode then agrees with its dinode unless nothing has happened. -/
theorem inodeReadNbytesLocked_spec {nbytes off : Nat} (running : fs.Running origin ip)
    (few : origin.roomy → fs.n_log_wrote < MAXOPBLOCKS - 1 - 3)
    (within : origin.bounded → off / BSIZE < MAXFILE_BLOCKS ∧
      off + served (fs.inode ip).copy.size nbytes off ≤ MAXFILE_SIZE) :
    Ensures (inodeReadNbytesLocked ip nbytes off) fs
      (fun data after => Steady origin ip fs after ∧ (after.Agrees ip ∨ after = fs) ∧
        data = if off > (fs.inode ip).copy.size then []
          else bytesFrom (fs.content (fs.inode ip).inum) off (served (fs.inode ip).copy.size nbytes off))
      (Stops origin) := by
  have start : off / BSIZE * BSIZE + off % BSIZE = off := by rw [Nat.mul_comm]; exact Nat.div_add_mod off BSIZE
  have low : off % BSIZE < BSIZE := Nat.mod_lt _ (by decide)
  unfold inodeReadNbytesLocked
  rw [ensures_bind, ensures_get]
  dsimp only
  change _ → off / BSIZE < MAXFILE_BLOCKS ∧ _ at within
  split
  next past =>
    rw [ensures_pure]
    exact ⟨.refl running, .inr rfl, rfl⟩
  next =>
    rw [show (if sizeT (off + nbytes) > (fs.inode ip).copy.size then
      sizeT (nbytes + 2 ^ 64 - (sizeT (off + nbytes) - (fs.inode ip).copy.size)) else nbytes) =
        served (fs.inode ip).copy.size nbytes off from rfl]
    generalize served (fs.inode ip).copy.size nbytes off = count at within ⊢
    refine Ensures.bind (readBlock_spec running few (fun bounded => (within bounded).1) (by omega)) ?_
    rintro head middle ⟨steady, few', headIs⟩
    have room : origin.roomy → middle.n_log_wrote ≤ 200 := fun roomy => by
      have few := few roomy
      simp only [MAXOPBLOCKS] at few
      omega
    rw [start] at headIs
    split
    next short =>
      refine Ensures.bind (getCurrentTimespec_spec steady.running) ?_
      rintro now ticked ⟨steady₁, wrote₁, -, -⟩
      refine Ensures.bind (steady₁.running.setCopy (fun copy => { copy with st_atimespec := now }) (fun _ => rfl) fun _ => rfl) ?_
      rintro _ stamped ⟨running₂, keeps₂, content₂, wrote₂, _, copy₂⟩
      have steady₂ : Steady origin ip ticked stamped := ⟨running₂, keeps₂, content₂, by rw [copy₂], by rw [copy₂]⟩
      refine Ensures.bind (iupdate_roomy running₂ (room_of_few fun roomy => ?_)) ?_
      · rw [wrote₂, wrote₁]
        exact Nat.le_trans (room roomy) (by decide)
      rintro _ after ⟨steady₃, _, _, agrees'⟩
      rw [ensures_pure]
      refine ⟨((steady.trans steady₁).trans steady₂).trans steady₃, .inl agrees', ?_⟩
      rw [headIs, Nat.min_eq_right short]
    next long =>
      have beyond : BSIZE - off % BSIZE ≤ count := by omega
      refine Ensures.bind (readBlocks_spec (count - (BSIZE - off % BSIZE)) (off / BSIZE + 1) middle steady.running room
        fun bounded => ?_) ?_
      · have fits := (within bounded).2
        rwa [show (off / BSIZE + 1) * BSIZE = off + (BSIZE - off % BSIZE) by simp only [BSIZE]; omega, Nat.add_assoc,
          Nat.add_sub_cancel' beyond]
      rintro rest read ⟨steady₁, few₁, restIs⟩
      refine Ensures.bind (iupdate_roomy steady₁.running (room_of_few fun roomy => Nat.le_trans (few₁ roomy) (by decide))) ?_
      rintro _ updated ⟨steady₂, _, _, agrees₂⟩
      refine Ensures.bind (getCurrentTimespec_spec steady₂.running) ?_
      rintro now ticked ⟨steady₃, -, inode₃, store₃⟩
      refine Ensures.bind (steady₃.running.setCopy (fun copy => { copy with st_atimespec := now }) (fun _ => rfl) fun _ => rfl) ?_
      rintro _ after ⟨running₄, keeps₄, content₄, -, store₄, copy₄⟩
      rw [ensures_pure]
      have steady₄ : Steady origin ip ticked after := ⟨running₄, keeps₄, content₄, by rw [copy₄], by rw [copy₄]⟩
      have agrees₃ := agrees₂.congr steady₃.keeps.sb store₃ steady₃.keeps.inum (by rw [inode₃]) (by rw [inode₃]) (by rw [inode₃])
        (by rw [inode₃])
      have agrees₄ := agrees₃.congr keeps₄.sb store₄ keeps₄.inum (by rw [copy₄]) (by rw [copy₄]) (by rw [copy₄]) (by rw [copy₄])
      refine ⟨(((steady.trans steady₁).trans steady₂).trans steady₃).trans steady₄, .inl agrees₄, ?_⟩
      · rw [headIs, restIs, steady.content, steady.keeps.inum, Nat.min_eq_left beyond,
          show (off / BSIZE + 1) * BSIZE = off + (BSIZE - off % BSIZE) by simp only [BSIZE]; omega, bytesFrom_append,
          Nat.add_sub_cancel' beyond]

end FS
end Myfuse
