import Myfuse.Proofs.Truncate

/-! What the routines below files leave as it was, whether they return or stop:
facts about one table entry and about the blocks handed out so far. -/

namespace Myfuse
open Library Library.Exec

/-- The blocks handed out, the last one first. -/
def allocatedBlocks (history : List Event) : List Nat :=
  history.filterMap fun event => match event with
    | .blockAlloc blockno => some blockno
    | _ => none

/-- The exits of directories and open files, and those of an inode that is read first. -/
def Exit.isUpper : Exit → Bool
  | .errExit .unusedInode | .errExit .invalidType | .errExit .dirlookupRead | .errExit .dirlinkRead | .errExit .dirlinkWrite | .errExit .cwdNotImplemented | .errExit .fileclose
  | .errExit .filestat | .errExit .notRegular | .errExit .readdirRead | .errExit .rmdirRead => true
  | _ => false

/-- Neither the block map nor a full disk is the reason, and it is not one of the layers above. -/
def OffMap (reason : Exit) : Prop :=
  reason ≠ .errExit .noFreeSpace ∧ reason ≠ .assertion ∧ reason ≠ .errExit .inodeTooBig ∧ reason ≠ .errExit .inodeTooBigFree ∧ reason.isUpper = false

instance (reason : Exit) : Decidable (OffMap reason) := inferInstanceAs (Decidable (_ ∧ _))

namespace FS
variable {α β : Type} {fs : FS} {ip : Nat} {p : Inode → List Nat → Prop} {ok : Exit → Prop}

/-- A fact about the entry `ip` and the blocks handed out. -/
def OnEntry (ip : Nat) (p : Inode → List Nat → Prop) (fs : FS) : Prop := p (fs.inode ip) (allocatedBlocks fs.history)

/-- The fact is kept, and a stop has an admitted reason. -/
abbrev Guards (ip : Nat) (p : Inode → List Nat → Prop) (ok : Exit → Prop) (program : M α) : Prop :=
  Preserves (OnEntry ip p) (fun reason after => OnEntry ip p after ∧ ok reason) program

/-- Entries and handed out blocks stay. -/
def Calm (program : M α) : Prop :=
  ∀ fs, Ensures program fs
    (fun _ after => after.inode = fs.inode ∧ allocatedBlocks after.history = allocatedBlocks fs.history)
    fun reason after => (after.inode = fs.inode ∧ allocatedBlocks after.history = allocatedBlocks fs.history) ∧ OffMap reason

namespace Calm
variable {program : M α} {next : α → M β}

theorem guards (calm : Calm program) (p : Inode → List Nat → Prop) (admits : ∀ reason, OffMap reason → ok reason) :
    Guards ip p ok program := fun fs holds => by
  have kept : ∀ {after : FS}, after.inode = fs.inode ∧ allocatedBlocks after.history = allocatedBlocks fs.history → OnEntry ip p after := by
    rintro after ⟨inode, allocated⟩
    rwa [OnEntry, inode, allocated]
  exact (calm fs).mono (fun _ _ same => kept same) fun reason _ same => ⟨kept same.1, admits reason same.2⟩

theorem pure (value : α) : Calm (pure value : M α) := fun _ => (ensures_pure value).mpr ⟨rfl, rfl⟩

theorem stop {reason : Exit} (off : OffMap reason) : Calm (stop reason : M α) := fun _ => (ensures_stop reason).mpr ⟨⟨rfl, rfl⟩, off⟩

theorem bind (first : Calm program) (rest : ∀ value, Calm (next value)) : Calm (program >>= next) := fun fs => by
  refine Ensures.bind (first fs) fun value middle same => ?_
  exact (rest value middle).mono (fun _ _ same' => ⟨same'.1.trans same.1, same'.2.trans same.2⟩)
    fun _ _ same' => ⟨⟨same'.1.1.trans same.1, same'.1.2.trans same.2⟩, same'.2⟩

theorem get {next : FS → M α} (rest : ∀ fs, Calm (next fs)) : Calm (Exec.get >>= next) := fun fs =>
  ensures_bind.mpr (ensures_get.mpr (rest fs fs))

theorem ite {condition : Prop} [Decidable condition] {other : M α} (yes : Calm program) (no : Calm other) :
    Calm (if condition then program else other) := by
  split
  · exact yes
  · exact no

theorem modify {change : FS → FS} (inode : ∀ fs, (change fs).inode = fs.inode)
    (history : ∀ fs, allocatedBlocks (change fs).history = allocatedBlocks fs.history) : Calm (modify change) := fun fs =>
  (ensures_modify change).mpr ⟨inode fs, history fs⟩

end Calm

theorem note_calm {event : Event} (other : ∀ blockno, event ≠ .blockAlloc blockno) : Calm (note event) := by
  refine .modify (fun _ => rfl) fun fs => ?_
  cases event with
  | blockAlloc blockno => exact absurd rfl (other blockno)
  | _ => rfl

theorem modifyBmap_calm (change : BmapCache → BmapCache) : Calm (modifyBmap change) := .modify (fun _ => rfl) fun _ => rfl

theorem loggedRead_calm (blockno : Nat) : Calm (loggedRead blockno) := .get fun _ => .pure _

theorem loggedWrite_calm (blockno : Nat) : Calm (loggedWrite blockno) :=
  .get fun _ => .ite (.stop (by decide)) (.ite (.stop (by decide))
    (.bind (.modify (fun _ => rfl) fun _ => rfl) fun _ => note_calm fun _ same => by cases same))

theorem loggedUpdate_calm (blockno : Nat) (change : Block → Block) : Calm (loggedUpdate blockno change) :=
  .bind (.modify (fun _ => rfl) fun _ => rfl) fun _ => loggedWrite_calm blockno

theorem getCurrentTimespec_calm : Calm getCurrentTimespec :=
  .get fun _ => .bind (.modify (fun _ => rfl) fun _ => rfl) fun _ => .pure _

theorem beginOp_calm : Calm beginOp :=
  .get fun _ => .ite (.bind (.modify (fun _ => rfl) fun _ => rfl) fun _ => note_calm fun _ same => by cases same) (.stop (by decide))

theorem commit_calm : Calm commit :=
  .bind (.modify (fun _ => rfl) fun _ => rfl) fun _ => .get fun _ => note_calm fun _ same => by cases same

theorem endOp_calm : Calm endOp :=
  .bind (.modify (fun _ => rfl) fun _ => rfl) fun _ => .get fun _ => .ite (.stop (by decide))
    (.bind (note_calm fun _ same => by cases same) fun _ => .ite commit_calm (.pure _))

theorem bmapBlockStatueSet_calm (blockno i : Nat) : Calm (bmapBlockStatueSet blockno i) :=
  .get fun _ => .ite (.stop (by decide)) (.bind (modifyBmap_calm _) fun _ => loggedUpdate_calm _ _)

theorem blockFree_calm (blockno : Nat) : Calm (blockFree blockno) :=
  .bind (bmapBlockStatueSet_calm _ _) fun _ => .bind (modifyBmap_calm _) fun _ => note_calm fun _ same => by cases same

theorem itrunc2sizeLogOpRestartHelper_calm (ip : Nat) : Calm (itrunc2sizeLogOpRestartHelper ip) :=
  .get fun _ => .ite (.bind (note_calm fun _ same => by cases same) fun _ => .bind endOp_calm fun _ => beginOp_calm) (.pure _)

theorem assertNoNeedToRestartOpInImap2blockno_calm : Calm assertNoNeedToRestartOpInImap2blockno :=
  .get fun _ => .ite (.stop (by decide)) (.pure _)

theorem assert_calm {condition : Prop} [Decidable condition] (holds : condition) : Calm (assert condition) := by
  rw [assert, if_pos holds]
  exact .pure _

theorem indexFreeSafe_calm (ip blockno index : Nat) : Calm (indexFreeSafe ip blockno index) :=
  .bind (loggedRead_calm _) fun _ => .ite (.bind (itrunc2sizeLogOpRestartHelper_calm _) fun _ =>
    .bind (blockFree_calm _) fun _ => loggedUpdate_calm _ _) (.pure _)

theorem indexFollow_calm {rest : Nat → M Unit} (calm : ∀ addr, Calm (rest addr)) (blockno index : Nat) : Calm (indexFollow blockno index rest) :=
  .bind (loggedRead_calm _) fun _ => .ite (.pure _) (calm _)

theorem forRange_calm {body : Nat → M Unit} (each : ∀ i, Calm (body i)) (lo count : Nat) : Calm (forRange lo count body) := by
  intro fs
  refine Ensures.forRange (fun _ current => current.inode = fs.inode ∧ allocatedBlocks current.history = allocatedBlocks fs.history)
    ?_ fun i current _ _ same => (each i current).mono ?_ ?_
  · exact ⟨rfl, rfl⟩
  · exact fun _ _ same' => ⟨same'.1.trans same.1, same'.2.trans same.2⟩
  · exact fun _ _ same' => ⟨⟨same'.1.1.trans same.1, same'.1.2.trans same.2⟩, same'.2⟩

theorem freeEntries_calm (level blockno : Nat) : Calm (freeEntries level blockno) := by
  induction level generalizing blockno with
  | zero =>
    unfold freeEntries
    exact .bind (loggedRead_calm _) fun _ => forRange_calm (fun _ => .ite (blockFree_calm _) (.pure _)) _ _
  | succ level ih =>
    unfold freeEntries
    exact .bind (loggedRead_calm _) fun _ => forRange_calm (fun _ => .ite (.bind (ih _) fun _ => blockFree_calm _) (.pure _)) _ _

theorem freeTree_calm (ip slot level : Nat) : Calm (freeTree ip slot level) :=
  .get fun _ => .ite (.bind (freeEntries_calm _ _) fun _ => blockFree_calm _) (.pure _)

/-! Routines that take blocks or change the entry. -/

theorem modifyInode_guards {change : Inode → Inode} (keeps : ∀ inode allocated, p inode allocated → p (change inode) allocated) :
    Guards ip p ok (modifyInode ip change) := by
  refine .modify fun fs holds => ?_
  have self : OnEntry ip p { fs with inode := assign fs.inode ip (change (fs.inode ip)) } ↔ p (change (fs.inode ip)) (allocatedBlocks fs.history) := by
    simp only [OnEntry, assign_self]
  exact self.mpr (keeps _ _ holds)

/-- A block handed out is noted; a full disk is one more reason to stop. -/
theorem blockAlloc_takes (ip : Nat) (fs : FS) : Ensures blockAlloc fs
    (fun blockno after => after.inode ip = fs.inode ip ∧ allocatedBlocks after.history = blockno :: allocatedBlocks fs.history)
    fun reason after => after.inode ip = fs.inode ip ∧ (OffMap reason ∨ reason = .errExit .noFreeSpace) ∧
      (allocatedBlocks after.history = allocatedBlocks fs.history ∨
        ∃ blockno, allocatedBlocks after.history = blockno :: allocatedBlocks fs.history) := by
  let same : Inode → List Nat → Prop := fun inode allocated => inode = fs.inode ip ∧ allocated = allocatedBlocks fs.history
  let why : Exit → Prop := fun reason => OffMap reason ∨ reason = .errExit .noFreeSpace
  have calm : ∀ {α : Type} {program : M α}, Calm program → Guards ip same why program := fun calm => calm.guards _ fun _ => .inl
  have updates : ∀ c j, Guards ip same why (blockAllocUpdateCache c j) := fun c j => by
    refine .bind (calm (modifyBmap_calm _)) fun _ => .get fun current holds => ?_
    refine (Preserves.ite (fun _ => ?_) fun _ => ?_) current holds
    · refine .bind (calm (modifyBmap_calm _)) fun _ => .get fun current holds => ?_
      split
      · exact calm (modifyBmap_calm _) current holds
      · exact (Preserves.bind (calm (modifyBmap_calm _)) fun _ => .stop fun _ holds => ⟨holds, .inr rfl⟩) current holds
    · dsimp only
      split
      · exact calm (modifyBmap_calm _)
      · exact .pure _
  unfold blockAlloc
  rw [ensures_bind, ensures_get, ensures_ite]
  refine ⟨fun _ => (ensures_stop _).mpr ⟨rfl, .inl (by decide), .inl rfl⟩, fun _ => ?_⟩
  refine Ensures.bind ((calm (bmapBlockStatueSet_calm _ _) fs ⟨rfl, rfl⟩).mono (fun _ _ same => same)
    fun _ _ same => ⟨same.1.1, same.2, .inl same.1.2⟩) fun _ marked holds => ?_
  refine Ensures.bind ((updates _ _ marked holds).mono (fun _ _ same => same)
    fun _ _ same => ⟨same.1.1, same.2, .inl same.1.2⟩) fun _ updated holds => ?_
  unfold note
  rw [ensures_bind, ensures_modify]
  refine Ensures.bind ((loggedUpdate_calm _ _ _).mono (fun _ _ same => same) fun _ _ same => ?_) fun _ zeroed same => ?_
  · exact ⟨by rw [same.1.1]; exact holds.1, .inl same.2, .inr ⟨_, same.1.2.trans (congrArg _ holds.2)⟩⟩
  · exact (ensures_pure _).mpr ⟨by rw [same.1]; exact holds.1, same.2.trans (congrArg _ holds.2)⟩

section
variable (admits : ∀ reason, OffMap reason → ok reason)
include admits

theorem blockAlloc_guards (full : ok (.errExit .noFreeSpace)) (grows : ∀ inode allocated blockno, p inode allocated → p inode (blockno :: allocated)) :
    Guards ip p ok blockAlloc := fun fs holds => by
  refine (blockAlloc_takes ip fs).mono (fun blockno after took => ?_) fun reason after fails => ⟨?_, ?_⟩
  · rw [OnEntry, took.1, took.2]
    exact grows _ _ _ holds
  · obtain ⟨inode, -, same | ⟨blockno, more⟩⟩ := fails
    · rwa [OnEntry, inode, same]
    · rw [OnEntry, inode, more]
      exact grows _ _ _ holds
  · exact fails.2.1.elim (admits reason) fun isFull => isFull ▸ full

theorem iupdate_guards
    (stamps : ∀ inode allocated now, p inode allocated → p { inode with copy := { inode.copy with st_ctimespec := now } } allocated) :
    Guards ip p ok (iupdate ip) := by
  refine .bind (getCurrentTimespec_calm.guards p admits) fun now => .bind (modifyInode_guards fun inode allocated => stamps inode allocated now)
    fun _ => .get fun fs holds => ?_
  exact (loggedUpdate_calm _ _).guards p admits fs holds

omit admits in
/-- A slot that is set needs no block. -/
theorem addrsFindOrAlloc_kept {slot : Nat} (present : ∀ inode allocated, p inode allocated → inode.copy.addrs slot ≠ 0) :
    Guards ip p ok (addrsFindOrAlloc ip slot) := by
  refine .get fun fs holds => ?_
  dsimp only
  rw [if_neg (present _ _ holds), ensures_pure]
  exact holds

theorem addrsFindOrAlloc_guards {slot : Nat} (full : ok (.errExit .noFreeSpace))
    (grows : ∀ inode allocated blockno, p inode allocated → p inode (blockno :: allocated))
    (slots : ∀ inode allocated addr, p inode allocated → p { inode with copy := { inode.copy with addrs := assign inode.copy.addrs slot addr } } allocated) :
    Guards ip p ok (addrsFindOrAlloc ip slot) := by
  refine .get fun fs holds => (Preserves.ite (fun _ => ?_) fun _ => .pure _) fs holds
  exact .bind (blockAlloc_guards admits full grows) fun addr => .bind (modifyInode_guards fun inode allocated => slots inode allocated addr) fun _ => .pure _

theorem indexFindOrAlloc_guards (full : ok (.errExit .noFreeSpace))
    (grows : ∀ inode allocated blockno, p inode allocated → p inode (blockno :: allocated)) (blockno index : Nat) :
    Guards ip p ok (indexFindOrAlloc blockno index) := by
  refine .bind ((loggedRead_calm _).guards p admits) fun _ => .ite (fun _ => ?_) fun _ => .pure _
  exact .bind (blockAlloc_guards admits full grows) fun _ => .bind ((loggedUpdate_calm _ _).guards p admits) fun _ => .pure _

theorem imap2blockno_guards {bn : Nat} (small : bn < MAXFILE_BLOCKS) (full : ok (.errExit .noFreeSpace))
    (grows : ∀ inode allocated blockno, p inode allocated → p inode (blockno :: allocated))
    (slots : ∀ inode allocated slot addr, p inode allocated →
      p { inode with copy := { inode.copy with addrs := assign inode.copy.addrs slot addr } } allocated) :
    Guards ip p ok (imap2blockno ip bn) := fun _ holds =>
  imap2blockno_walk (fun _ _ => OnEntry ip p) small (fun _ => ⟨holds, admits _ (by decide)⟩)
    (fun slot _ _ => addrsFindOrAlloc_guards admits full grows (fun inode allocated => slots inode allocated slot) _ holds)
    fun _ _ _ _ holds _ _ _ => indexFindOrAlloc_guards admits full grows _ _ _ holds

/-- The free routine changes a direct slot or the slot of the second tree; below the limit of a file
it fails no assertion. -/
theorem imap2blocknoFree_guards {bn : Nat} (small : bn < MAXFILE_BLOCKS)
    (slots : ∀ inode allocated slot, slot < NDIRECT → p inode allocated →
      p { inode with copy := { inode.copy with addrs := assign inode.copy.addrs slot 0 } } allocated)
    (root : InDouble bn → Guards ip p ok (addrsFindOrAlloc ip (NDIRECT + 1))) : Guards ip p ok (imap2blocknoFree ip bn) := by
  have calm : ∀ {α : Type} {program : M α}, Calm program → Guards ip p ok program := fun calm => calm.guards p admits
  simp only [MAXFILE_BLOCKS, NDIRECT, NINDIRECT, NINDIRECT1, NINDIRECT2, NINDIRECT3] at small
  refine .bind (calm assertNoNeedToRestartOpInImap2blockno_calm) fun _ => .ite (fun direct => ?_) fun indirect => ?_
  · refine .get fun fs holds => (Preserves.ite (fun _ => ?_) fun _ => .pure _) fs holds
    exact .bind (calm (itrunc2sizeLogOpRestartHelper_calm _)) fun _ => .bind (calm (blockFree_calm _)) fun _ =>
      modifyInode_guards fun inode allocated => slots inode allocated bn direct
  refine .get fun fs holds => (Preserves.ite (fun single => ?_) fun notSingle => ?_) fs holds
  · exact .ite (fun _ => .pure _) fun _ => calm (indexFreeSafe_calm _ _ _)
  refine .ite (fun double => ?_) fun notDouble => .ite (fun triple => .ite (fun _ => .pure _) fun _ => calm ?_) fun outside => ?_
  · refine .bind (root ⟨by omega, by omega⟩) fun addr => .bind (calm (assert_calm ?_)) fun _ => calm (indexFollow_calm (fun _ => indexFreeSafe_calm _ _ _) _ _)
    simp only [NDIRECT, NINDIRECT1, NINDIRECT2, BSIZE] at double ⊢
    omega
  · refine .bind (assert_calm ?_) fun _ => indexFollow_calm (fun _ => .bind (assert_calm ?_) fun _ =>
      indexFollow_calm (fun _ => indexFreeSafe_calm _ _ _) _ _) _ _
    · simp only [NDIRECT, NINDIRECT1, NINDIRECT2, NINDIRECT3, BSIZE] at triple ⊢
      omega
    · simp only [NDIRECT, NINDIRECT1, NINDIRECT2, BSIZE]
      omega
  · simp only [NDIRECT, NINDIRECT1, NINDIRECT2, NINDIRECT3] at outside
    omega

theorem itrunc_guards
    (clears : ∀ inode allocated, p inode allocated → p { inode with copy := { inode.copy with addrs := fun _ => 0, size := 0 } } allocated)
    (stamps : ∀ inode allocated now, p inode allocated → p { inode with copy := { inode.copy with st_ctimespec := now } } allocated) :
    Guards ip p ok (itrunc ip) := by
  have calm : ∀ {α : Type} {program : M α}, Calm program → Guards ip p ok program := fun calm => calm.guards p admits
  refine .bind (calm (forRange_calm (fun _ => .get fun _ => .ite (blockFree_calm _) (.pure _)) _ _)) fun _ => .bind (calm (freeTree_calm _ _ _)) fun _ =>
    .bind (calm (freeTree_calm _ _ _)) fun _ => .bind (calm (freeTree_calm _ _ _)) fun _ => .bind (modifyInode_guards clears) fun _ =>
      iupdate_guards admits stamps

end

/-! Reads and writes, and their restarts. -/

/-- A fact about a loaded entry that does not depend on its lock, its times and its slots, and stays when
blocks are handed out. -/
structure Lasting (p : Inode → List Nat → Prop) : Prop where
  valid : ∀ inode allocated, p inode allocated → inode.valid = true
  locks : ∀ inode allocated locked, p inode allocated → p { inode with locked } allocated
  stamps : ∀ (inode : Inode) allocated st_atimespec st_mtimespec st_ctimespec, p inode allocated →
    p { inode with copy := { inode.copy with st_atimespec, st_mtimespec, st_ctimespec } } allocated
  slots : ∀ (inode : Inode) allocated slot addr, p inode allocated →
    p { inode with copy := { inode.copy with addrs := assign inode.copy.addrs slot addr } } allocated
  grows : ∀ inode allocated blockno, p inode allocated → p inode (blockno :: allocated)

namespace Lasting
variable (lasting : Lasting p) (admits : ∀ reason, OffMap reason → ok reason)
include lasting

theorem modifies {change : Dinode → Dinode}
    (times : ∀ copy, ∃ st_atimespec st_mtimespec st_ctimespec, change copy = { copy with st_atimespec, st_mtimespec, st_ctimespec }) :
    Guards ip p ok (modifyCopy ip change) :=
  modifyInode_guards fun inode allocated holds => by
    obtain ⟨_, _, _, same⟩ := times inode.copy
    rw [same]
    exact lasting.stamps inode allocated _ _ _ holds

include admits

theorem iupdate : Guards ip p ok (iupdate ip) :=
  iupdate_guards admits fun inode allocated now => lasting.stamps inode allocated inode.copy.st_atimespec inode.copy.st_mtimespec now

/-- A loaded entry is not read again. -/
theorem ilock : Guards ip p ok (ilock ip) := by
  refine .get fun fs holds => (Preserves.ite (fun _ => ?_) fun _ => .ite (fun _ => ?_) fun _ => ?_) fs holds
  · exact .stop fun _ holds => ⟨holds, admits _ (by decide)⟩
  · exact .stop fun _ holds => ⟨holds, admits _ (by decide)⟩
  · rw [if_pos (lasting.valid _ _ holds)]
    exact .bind (modifyInode_guards fun inode allocated => lasting.locks inode allocated true) fun _ => .pure _

theorem restartOpOn (nwrote : Nat) : Guards ip p ok (restartOpOn ip nwrote) := by
  refine .get fun fs holds => (Preserves.ite (fun _ => ?_) fun _ => .pure _) fs holds
  exact .bind (lasting.iupdate admits) fun _ => .bind (modifyInode_guards fun inode allocated => lasting.locks inode allocated false) fun _ =>
    .bind (endOp_calm.guards p admits) fun _ => .bind (beginOp_calm.guards p admits) fun _ => lasting.ilock admits

variable (full : ok (.errExit .noFreeSpace))
include full

/-- The walk to a block past the limit of a file stops. -/
theorem imap2blockno {bn : Nat} (within : bn < MAXFILE_BLOCKS ∨ ok (.errExit .inodeTooBig)) : Guards ip p ok (imap2blockno ip bn) := by
  rcases Nat.lt_or_ge bn MAXFILE_BLOCKS with small | large
  · exact imap2blockno_guards admits small full lasting.grows lasting.slots
  · refine fun fs holds => (imap2blockno_outside large).mono (fun _ _ => False.elim) ?_
    rintro reason _ ⟨rfl, ⟨rfl, -⟩ | rfl⟩
    · exact ⟨holds, admits _ (by decide)⟩
    · exact ⟨holds, within.resolve_left (Nat.not_lt.mpr large)⟩

theorem readBlock {bn : Nat} (within : bn < MAXFILE_BLOCKS ∨ ok (.errExit .inodeTooBig)) (offset count : Nat) :
    Guards ip p ok (readBlock ip bn offset count) :=
  .bind (lasting.imap2blockno admits full within) fun _ => .bind ((loggedRead_calm _).guards p admits) fun _ => .pure _

theorem readBlocks {bn nbytes : Nat} (within : ∀ bn', bn ≤ bn' → bn' * BSIZE < bn * BSIZE + nbytes → bn' < MAXFILE_BLOCKS ∨ ok (.errExit .inodeTooBig)) :
    Guards ip p ok (readBlocks ip nbytes bn) := by
  fun_induction FS.readBlocks ip nbytes bn with
  | case1 nbytes bn more ih =>
    refine .bind (lasting.restartOpOn admits _) fun _ => .bind (lasting.readBlock admits full (within bn (Nat.le_refl _) ?_) _ _) fun _ =>
      .bind (ih fun bn' low high => within bn' (by omega) ?_) fun _ => .pure _
    · omega
    · rw [Nat.add_mul, Nat.one_mul, Nat.add_assoc, Nat.add_sub_cancel' (Nat.le_of_lt more)] at high
      exact high
  | case2 nbytes bn more some =>
    exact .bind (lasting.restartOpOn admits _) fun _ => lasting.readBlock admits full (within bn (Nat.le_refl _) (by omega)) _ _
  | case3 => exact .pure _

theorem writeBlock {bn : Nat} (within : bn < MAXFILE_BLOCKS ∨ ok (.errExit .inodeTooBig)) (offset : Nat) (data : List Byte) :
    Guards ip p ok (writeBlock ip bn offset data) :=
  .bind (lasting.imap2blockno admits full within) fun _ => (loggedUpdate_calm _ _).guards p admits

end Lasting

end FS
end Myfuse
