import Myfuse.Proofs.CallRuns

/-! Every block that a call changes is listed in the log until it is committed. So when no
operation is open the device has all that the calls wrote. -/

namespace Myfuse
open Library Library.Exec

namespace FS
variable {α β : Type}

/-- Changes that are not on the device stay listed. -/
def Syncs (program : M α) : Prop := ∀ fs, fs.Synced → Ensures program fs (fun _ after => after.Synced) fun _ _ => True

namespace Syncs
variable {first second : M α}

theorem pure (value : α) : Syncs (pure value : M α) := fun _ synced => (ensures_pure value).mpr synced

theorem stop (reason : Exit) : Syncs (stop reason : M α) := fun _ _ => (ensures_stop reason).mpr trivial

theorem bind {next : α → M β} (head : Syncs first) (tail : ∀ value, Syncs (next value)) : Syncs (first >>= next) :=
  fun fs synced => Ensures.bind (head fs synced) fun value after synced => tail value after synced

theorem get {next : FS → M α} (rest : ∀ fs, Syncs (next fs)) : Syncs (Exec.get >>= next) :=
  fun fs synced => ensures_bind.mpr (ensures_get.mpr (rest fs fs synced))

theorem ite {condition : Prop} [Decidable condition] (yes : Syncs first) (no : Syncs second) : Syncs (if condition then first else second) := by
  split
  · exact yes
  · exact no

theorem forRange {body : Nat → M Unit} (each : ∀ i, Syncs (body i)) (lo count : Nat) : Syncs (forRange lo count body) := by
  intro fs synced
  exact Ensures.forRange (fun _ => Synced) synced fun i current _ _ synced => each i current synced

/-- A change of what is not in blocks. -/
theorem modify {change : FS → FS} (store : ∀ fs, (change fs).store = fs.store) (device : ∀ fs, (change fs).device = fs.device)
    (block : ∀ fs, (change fs).log.block = fs.log.block) : Syncs (modify change : M Unit) := by
  intro fs synced
  apply (ensures_modify change).mpr
  intro blockno
  rw [store, device, block]
  exact synced blockno

/-- What only logs keeps to the list. -/
theorem uses {count : Nat} {program : M α} (uses : UsesLog count program) : Syncs program := by
  intro fs synced
  apply (uses fs).mono
  · intro _ after used blockno changed
    obtain ⟨used, lists⟩ := used
    rw [used.device] at changed
    by_cases before : fs.store blockno = fs.device blockno
    · exact lists.store blockno fun same => changed (same.trans before)
    · exact lists.block blockno (synced blockno before)
  · exact fun _ _ _ => trivial

end Syncs

theorem note_syncs (event : Event) : Syncs (note event) := .modify (fun _ => rfl) (fun _ => rfl) fun _ => rfl

theorem modifyFile_syncs (f : Nat) (change : File → File) : Syncs (modifyFile f change) := .modify (fun _ => rfl) (fun _ => rfl) fun _ => rfl

theorem modifyCopy_syncs (ip : Nat) (change : Dinode → Dinode) : Syncs (modifyCopy ip change) := .uses (modifyCopy_uses ip change)

theorem loggedRead_syncs (blockno : Nat) : Syncs (loggedRead blockno) := .uses (loggedRead_uses blockno)

theorem loggedUpdate_syncs (blockno : Nat) (change : Block → Block) : Syncs (loggedUpdate blockno change) := .uses (loggedUpdate_uses blockno change)

theorem getCurrentTimespec_syncs : Syncs getCurrentTimespec := .uses getCurrentTimespec_uses

theorem blockFree_syncs (blockno : Nat) : Syncs (blockFree blockno) := .uses (blockFree_uses blockno)

theorem iget_syncs (inum : Nat) : Syncs (iget inum) := .uses (iget_uses inum)

theorem ialloc_syncs (type : BitVec 16) : Syncs (ialloc type) := .uses (ialloc_uses type)

theorem ilock_syncs (ip : Nat) : Syncs (ilock ip) := .uses (ilock_uses ip)

theorem iunlock_syncs (ip : Nat) : Syncs (iunlock ip) := .uses (iunlock_uses ip)

theorem iupdate_syncs (ip : Nat) : Syncs (iupdate ip) := .uses (iupdate_uses ip)

theorem iput_syncs (ip : Nat) : Syncs (iput ip) := .uses (iput_uses ip)

theorem iunlockput_syncs (ip : Nat) : Syncs (iunlockput ip) := .uses (iunlockput_uses ip)

theorem imap2blockno_syncs (ip bn : Nat) : Syncs (imap2blockno ip bn) := .uses (imap2blockno_uses ip bn)

theorem assert_syncs (condition : Prop) [Decidable condition] : Syncs (assert condition) := .uses (assert_uses condition)

/-! Operations. -/

theorem beginOp_syncs : Syncs beginOp :=
  .get fun _ => .ite (.bind (.modify (fun _ => rfl) (fun _ => rfl) fun _ => rfl) fun _ => note_syncs _) (.stop _)

/-- A commit brings the device up to date. -/
theorem commit_syncs : Syncs commit := by
  intro fs synced
  apply commit_spec.mono
  · intro _ after same blockno changed
    rw [same] at changed
    apply absurd _ changed
    exact (congrFun (committedDisk_synced synced) blockno).symm
  · exact fun _ _ _ => trivial

theorem endOp_syncs : Syncs endOp :=
  .bind (.modify (fun _ => rfl) (fun _ => rfl) fun _ => rfl) fun _ => .get fun _ =>
    .ite (.stop _) (.bind (note_syncs _) fun _ => .ite commit_syncs (.pure _))

/-! Bytes of files. -/

theorem restartOpOn_syncs (ip nwrote : Nat) : Syncs (restartOpOn ip nwrote) := by
  apply Syncs.get
  intro fs
  apply Syncs.ite
  · exact .bind (iupdate_syncs ip) fun _ => .bind (iunlock_syncs ip) fun _ => .bind endOp_syncs fun _ => .bind beginOp_syncs fun _ => ilock_syncs ip
  · exact .pure _

theorem writeBlock_syncs (ip bn offset : Nat) (data : List Byte) : Syncs (writeBlock ip bn offset data) := .uses (writeBlock_uses ip bn offset data)

theorem readBlock_syncs (ip bn offset count : Nat) : Syncs (readBlock ip bn offset count) := .uses (readBlock_uses ip bn offset count)

theorem touch_syncs (ip : Nat) : Syncs (touch ip) := .uses (touch_uses ip)

theorem writeBlocks_syncs (ip : Nat) (data : List Byte) (bn : Nat) : Syncs (writeBlocks ip data bn) := by
  unfold writeBlocks
  split
  next =>
    apply Syncs.bind (restartOpOn_syncs ip _)
    intro _
    exact .bind (writeBlock_syncs ip bn 0 _) fun _ => writeBlocks_syncs ip (data.drop BSIZE) (bn + 1)
  next => exact .pure _
  termination_by data.length
  decreasing_by
    rename_i more
    simp only [BSIZE, List.length_drop] at more ⊢
    omega

theorem inodeWriteNbytesLocked_syncs (ip : Nat) (data : List Byte) (off : Nat) : Syncs (inodeWriteNbytesLocked ip data off) := by
  have finish (nbytes : Nat) : Syncs (do touch ip; iupdate ip; pure nbytes) := .bind (touch_syncs ip) fun _ => .bind (iupdate_syncs ip) fun _ => .pure _
  apply Syncs.ite (.pure _)
  apply Syncs.bind (modifyCopy_syncs ip _)
  intro _
  apply Syncs.bind (iupdate_syncs ip)
  intro _
  apply Syncs.bind (restartOpOn_syncs ip _)
  intro _
  apply Syncs.bind (writeBlock_syncs ip _ _ _)
  intro _
  apply Syncs.ite (finish _)
  apply Syncs.bind (writeBlocks_syncs ip _ _)
  intro rest
  apply Syncs.bind (restartOpOn_syncs ip _)
  intro _
  apply Syncs.ite
  · exact .bind (writeBlock_syncs ip _ _ _) fun _ => finish _
  · exact finish _

theorem readBlocks_syncs (ip nbytes bn : Nat) : Syncs (readBlocks ip nbytes bn) := by
  unfold readBlocks
  split
  next =>
    apply Syncs.bind (restartOpOn_syncs ip _)
    intro _
    apply Syncs.bind (readBlock_syncs ip _ _ _)
    intro head
    exact .bind (readBlocks_syncs ip (nbytes - BSIZE) (bn + 1)) fun _ => .pure _
  next =>
    apply Syncs.ite
    · exact .bind (restartOpOn_syncs ip _) fun _ => readBlock_syncs ip _ _ _
    · exact .pure _
  termination_by nbytes
  decreasing_by
    rename_i more
    simp only [BSIZE] at more ⊢
    omega

theorem inodeReadNbytesLocked_syncs (ip nbytes off : Nat) : Syncs (inodeReadNbytesLocked ip nbytes off) := by
  apply Syncs.get
  intro fs
  apply Syncs.ite (.pure _)
  apply Syncs.bind (readBlock_syncs ip _ _ _)
  intro head
  apply Syncs.ite
  · exact .bind getCurrentTimespec_syncs fun _ => .bind (modifyCopy_syncs ip _) fun _ => .bind (iupdate_syncs ip) fun _ => .pure _
  · apply Syncs.bind (readBlocks_syncs ip _ _)
    intro rest
    exact .bind (iupdate_syncs ip) fun _ => .bind getCurrentTimespec_syncs fun _ => .bind (modifyCopy_syncs ip _) fun _ => .pure _

theorem inodeWriteNbytesUnlocked_syncs (ip : Nat) (data : List Byte) (off : Nat) : Syncs (inodeWriteNbytesUnlocked ip data off) := by
  apply Syncs.bind beginOp_syncs
  intro _
  apply Syncs.bind (ilock_syncs ip)
  intro _
  apply Syncs.bind (inodeWriteNbytesLocked_syncs ip data off)
  intro nbytes
  exact .bind (iunlock_syncs ip) fun _ => .bind endOp_syncs fun _ => .pure _

theorem inodeReadNbytesUnlocked_syncs (ip nbytes off : Nat) : Syncs (inodeReadNbytesUnlocked ip nbytes off) := by
  apply Syncs.bind beginOp_syncs
  intro _
  apply Syncs.bind (ilock_syncs ip)
  intro _
  apply Syncs.bind (inodeReadNbytesLocked_syncs ip nbytes off)
  intro data
  exact .bind (iunlock_syncs ip) fun _ => .bind endOp_syncs fun _ => .pure _

/-! Truncation. -/

theorem itrunc2sizeLogOpRestartHelper_syncs (ip : Nat) : Syncs (itrunc2sizeLogOpRestartHelper ip) :=
  .get fun _ => .ite (.bind (note_syncs _) fun _ => .bind endOp_syncs fun _ => beginOp_syncs) (.pure _)

theorem addrsFreeSafe_syncs (ip slot : Nat) : Syncs (addrsFreeSafe ip slot) := by
  apply Syncs.get
  intro fs
  apply Syncs.ite
  · exact .bind (itrunc2sizeLogOpRestartHelper_syncs ip) fun _ => .bind (blockFree_syncs _) fun _ => modifyCopy_syncs ip _
  · exact .pure _

theorem indexFreeSafe_syncs (ip blockno index : Nat) : Syncs (indexFreeSafe ip blockno index) := by
  apply Syncs.bind (loggedRead_syncs blockno)
  intro bp
  apply Syncs.ite
  · exact .bind (itrunc2sizeLogOpRestartHelper_syncs ip) fun _ => .bind (blockFree_syncs _) fun _ => loggedUpdate_syncs _ _
  · exact .pure _

theorem indexFollow_syncs {rest : Nat → M Unit} (blockno index : Nat) (syncs : ∀ addr, Syncs (rest addr)) : Syncs (indexFollow blockno index rest) :=
  .bind (loggedRead_syncs blockno) fun _ => .ite (.pure _) (syncs _)

theorem imap2blocknoFree_syncs (ip bn : Nat) : Syncs (imap2blocknoFree ip bn) := by
  apply Syncs.bind (.uses assertNoNeedToRestart_uses)
  intro _
  apply Syncs.ite (addrsFreeSafe_syncs ip bn)
  apply Syncs.get
  intro fs
  apply Syncs.ite
  · exact .ite (.pure _) (indexFreeSafe_syncs ip _ _)
  apply Syncs.ite
  · apply Syncs.bind (.uses (addrsFindOrAlloc_uses ip _))
    intro addr
    exact .bind (assert_syncs _) fun _ => indexFollow_syncs _ _ fun _ => indexFreeSafe_syncs ip _ _
  apply Syncs.ite
  · apply Syncs.ite (.pure _)
    apply Syncs.bind (assert_syncs _)
    intro _
    apply indexFollow_syncs
    intro addr
    exact .bind (assert_syncs _) fun _ => indexFollow_syncs _ _ fun _ => indexFreeSafe_syncs ip _ _
  · exact .stop _

theorem itrunc2size_syncs (ip size : Nat) : Syncs (itrunc2size ip size) := by
  have finish : Syncs (do modifyCopy ip fun copy => { copy with size }; iupdate ip) := .bind (modifyCopy_syncs ip _) fun _ => iupdate_syncs ip
  have grow (i : Nat) : Syncs (do itrunc2sizeLogOpRestartHelper ip; let _ ← imap2blockno ip i) :=
    .bind (itrunc2sizeLogOpRestartHelper_syncs ip) fun _ => .bind (imap2blockno_syncs ip i) fun _ => .pure _
  have cut (i : Nat) : Syncs (do itrunc2sizeLogOpRestartHelper ip; imap2blocknoFree ip i) :=
    .bind (itrunc2sizeLogOpRestartHelper_syncs ip) fun _ => imap2blocknoFree_syncs ip i
  unfold itrunc2size
  apply Syncs.get
  intro fs
  apply Syncs.ite finish
  apply Syncs.ite
  · apply Syncs.bind (.uses (itrunc_uses ip))
    intro _
    apply Syncs.get
    intro fs
    exact .ite (.bind (.forRange grow _ _) fun _ => finish) (.bind (.forRange cut _ _) fun _ => finish)
  · apply Syncs.get
    intro fs
    exact .ite (.bind (.forRange grow _ _) fun _ => finish) (.bind (.forRange cut _ _) fun _ => finish)

/-! Directories. -/

theorem dirlookup_syncs (dp : Nat) (name : Name) : Syncs (dirlookup dp name) := by
  apply Syncs.get
  intro fs
  apply Syncs.bind (inodeReadNbytesLocked_syncs dp _ 0)
  intro data
  apply Syncs.ite (.stop _)
  split
  · exact .stop _
  · exact .pure _
  · exact .bind (iget_syncs _) fun _ => .pure _

theorem dirlinkOffset_syncs (dp : Nat) : Syncs (dirlinkOffset dp) := by
  apply Syncs.get
  intro fs
  apply Syncs.ite
  · apply Syncs.bind (inodeReadNbytesLocked_syncs dp _ 0)
    intro data
    apply Syncs.ite (.stop _)
    split
    · exact .stop _
    · exact .ite (.stop _) (.pure _)
  · exact .pure _

theorem dirlink_syncs (dp : Nat) (name : Name) (inum : Nat) : Syncs (dirlink dp name inum) := by
  apply Syncs.bind (dirlookup_syncs dp name)
  intro found
  split
  · exact .bind (iput_syncs _) fun _ => .pure _
  · apply Syncs.bind (dirlinkOffset_syncs dp)
    intro off
    exact .bind (inodeWriteNbytesLocked_syncs dp _ off) fun _ => .ite (.stop _) (.pure _)

theorem namexFrom_syncs (nameiparent : Bool) (names : List Name) (ip : Nat) : Syncs (namexFrom nameiparent names ip) := by
  induction names generalizing ip with
  | nil => exact .ite (.bind (iput_syncs ip) fun _ => .pure _) (.pure _)
  | cons name rest ih =>
    apply Syncs.bind (ilock_syncs ip)
    intro _
    apply Syncs.get
    intro fs
    apply Syncs.ite
    · exact .bind (iunlockput_syncs ip) fun _ => .pure _
    apply Syncs.ite
    · exact .bind (iunlock_syncs ip) fun _ => .pure _
    apply Syncs.bind (dirlookup_syncs ip name)
    intro found
    split
    · exact .bind (iunlockput_syncs ip) fun _ => .pure _
    · exact .bind (iunlockput_syncs ip) fun _ => ih _

theorem namex_syncs (path : List Byte) (nameiparent : Bool) : Syncs (namex path nameiparent) :=
  .ite (.bind (iget_syncs ROOTINO) fun _ => namexFrom_syncs nameiparent _ _) (.stop _)

theorem path2inode_syncs (path : List Byte) : Syncs (path2inode path) := .bind (namex_syncs path false) fun _ => .pure _

theorem path2parentinode_syncs (path : List Byte) : Syncs (path2parentinode path) := namex_syncs path true

/-! Handles. -/

theorem ftableGrow_syncs : Syncs ftableGrow := .modify (fun _ => rfl) (fun _ => rfl) fun _ => rfl

theorem filealloc_syncs : Syncs filealloc := by
  apply Syncs.get
  intro fs
  split
  · exact .bind (modifyFile_syncs _ _) fun _ => .pure _
  · exact .bind ftableGrow_syncs fun _ => .bind (modifyFile_syncs _ _) fun _ => .pure _

theorem iputPtr_syncs (ip : Option Nat) : Syncs (iputPtr ip) := by
  cases ip with
  | none => exact .stop _
  | some ip => exact iput_syncs ip

theorem iputSome_syncs (ip : Option Nat) : Syncs (iputSome ip) := by
  cases ip with
  | none => exact .pure _
  | some ip => exact iput_syncs ip

theorem fileclose_syncs (f : Nat) : Syncs (fileclose f) := by
  apply Syncs.get
  intro fs
  apply Syncs.ite (.stop _)
  apply Syncs.bind (modifyFile_syncs f _)
  intro _
  exact .ite (.pure _) (.bind beginOp_syncs fun _ => .bind (iputPtr_syncs _) fun _ => endOp_syncs)

theorem setAccess_syncs (file flags : Nat) : Syncs (setAccess file flags) :=
  .ite (modifyFile_syncs _ _) (.ite (modifyFile_syncs _ _) (.ite (modifyFile_syncs _ _) (modifyFile_syncs _ _)))

theorem openHandle_syncs (file_inode flags : Nat) : Syncs (openHandle file_inode flags) := by
  apply Syncs.bind filealloc_syncs
  intro file
  exact .bind (modifyFile_syncs _ _) fun _ => .bind (setAccess_syncs _ _) fun _ => .bind (iunlock_syncs _) fun _ => .bind endOp_syncs fun _ => .pure _

theorem handleInode_syncs (fi : FuseFileInfo) : Syncs (handleInode fi) := by
  unfold handleInode
  split
  · exact .stop _
  · exact .get fun _ => .pure _

theorem statInum_syncs (inum : Nat) : Syncs (statInum inum) :=
  .bind (iget_syncs inum) fun _ => .bind (ilock_syncs _) fun _ => .get fun _ => .bind (iunlockput_syncs _) fun _ => .pure _

theorem readdirFrom_syncs (dp : Nat) (data : List Byte) (full : List (Name × Stat) → Name × Stat → Bool) (count off : Nat) (filled : List (Name × Stat)) :
    Syncs (readdirFrom dp data full count off filled) := by
  induction count generalizing off filled with
  | zero => exact .pure _
  | succ count ih =>
    have goes (file_name : Name) (st : Int × Stat) : Syncs (if st.1 = 0 then
        if full filled (file_name, st.2) then pure (filled ++ [(file_name, st.2)])
        else readdirFrom dp data full count (off + direntSize) (filled ++ [(file_name, st.2)])
      else readdirFrom dp data full count (off + direntSize) filled) := .ite (.ite (.pure _) (ih _ _)) (ih _ _)
    apply Syncs.ite (.stop _)
    apply Syncs.ite (ih _ _)
    split
    · exact .stop _
    · apply Syncs.get
      intro fs
      exact .ite (.bind (statInum_syncs _) fun st => goes _ st) (.bind (.pure _) fun st => goes _ st)

/-! Calls. -/

theorem myfuseGetattr_syncs (path : List Byte) : Syncs (myfuseGetattr path) := by
  apply Syncs.bind beginOp_syncs
  intro _
  apply Syncs.bind (path2inode_syncs path)
  intro found
  split
  · exact .bind endOp_syncs fun _ => .pure _
  · exact .bind (ilock_syncs _) fun _ => .get fun _ => .bind (iunlockput_syncs _) fun _ => .bind endOp_syncs fun _ => .pure _

theorem myfuseReaddir_syncs (full : List (Name × Stat) → Name × Stat → Bool) (fi : Option FuseFileInfo) : Syncs (myfuseReaddir full fi) := by
  unfold myfuseReaddir
  split
  · exact .pure _
  apply Syncs.bind beginOp_syncs
  intro _
  split
  · exact .stop _
  apply Syncs.get
  intro fs
  split
  · exact .bind endOp_syncs fun _ => .pure _
  apply Syncs.bind (ilock_syncs _)
  intro _
  apply Syncs.get
  intro fs
  apply Syncs.bind (inodeReadNbytesLocked_syncs _ _ _)
  intro data
  apply Syncs.ite (.stop _)
  apply Syncs.bind (readdirFrom_syncs _ _ _ _ _ _)
  intro filled
  exact .bind (iunlock_syncs _) fun _ => .bind endOp_syncs fun _ => .pure _

theorem myfuseOpendir_syncs (path : List Byte) (fi : FuseFileInfo) : Syncs (myfuseOpendir path fi) := by
  apply Syncs.bind beginOp_syncs
  intro _
  apply Syncs.bind (path2inode_syncs path)
  intro found
  split
  · exact .bind endOp_syncs fun _ => .pure _
  apply Syncs.bind (ilock_syncs _)
  intro _
  apply Syncs.get
  intro fs
  apply Syncs.ite
  · exact .bind (iunlockput_syncs _) fun _ => .bind endOp_syncs fun _ => .pure _
  · apply Syncs.bind filealloc_syncs
    intro file
    exact .bind (modifyFile_syncs _ _) fun _ => .bind (iunlock_syncs _) fun _ => .bind endOp_syncs fun _ => .pure _

theorem myfuseOpen_syncs (path : List Byte) (fi : FuseFileInfo) : Syncs (myfuseOpen path fi) := by
  apply Syncs.bind beginOp_syncs
  intro _
  apply Syncs.bind (path2inode_syncs path)
  intro found
  split
  · exact .bind (ilock_syncs _) fun _ => .bind (openHandle_syncs _ _) fun _ => .pure _
  apply Syncs.ite (.pure _)
  apply Syncs.bind (path2parentinode_syncs path)
  intro place
  split
  · exact .bind endOp_syncs fun _ => .pure _
  apply Syncs.bind (ialloc_syncs _)
  intro file_inode
  apply Syncs.bind (modifyCopy_syncs _ _)
  intro _
  apply Syncs.bind (iupdate_syncs _)
  intro _
  apply Syncs.bind (ilock_syncs _)
  intro _
  apply Syncs.get
  intro fs
  apply Syncs.bind (dirlink_syncs _ _ _)
  intro _
  exact .bind (iunlockput_syncs _) fun _ => .bind (ilock_syncs _) fun _ => .bind (openHandle_syncs _ _) fun _ => .pure _

theorem myfuseRelease_syncs (fi : Option FuseFileInfo) : Syncs (myfuseRelease fi) := by
  unfold myfuseRelease
  split
  · exact .pure _
  split
  · exact .pure _
  · exact .bind (fileclose_syncs _) fun _ => .pure _

theorem myfuseMkdir_syncs (path : List Byte) (mode : Nat) : Syncs (myfuseMkdir path mode) := by
  apply Syncs.bind beginOp_syncs
  intro _
  apply Syncs.bind (path2parentinode_syncs path)
  intro place
  apply Syncs.bind (ialloc_syncs _)
  intro ip
  apply Syncs.bind (ilock_syncs ip)
  intro _
  split
  · exact .stop _
  apply Syncs.bind (ilock_syncs _)
  intro _
  apply Syncs.get
  intro fs
  apply Syncs.bind (dirlink_syncs _ _ _)
  intro linked
  apply Syncs.ite
  · exact .bind (iunlockput_syncs ip) fun _ => .bind endOp_syncs fun _ => .pure _
  apply Syncs.bind (iunlockput_syncs _)
  intro _
  apply Syncs.bind (modifyCopy_syncs ip _)
  intro _
  apply Syncs.bind getCurrentTimespec_syncs
  intro now
  exact .bind (modifyCopy_syncs ip _) fun _ => .bind (iupdate_syncs ip) fun _ => .bind (iunlockput_syncs ip) fun _ => .bind endOp_syncs fun _ => .pure _

theorem clearDirent_syncs (dp : Nat) (name : Name) : Syncs (clearDirent dp name) := by
  apply Syncs.bind (dirlookup_syncs dp name)
  intro found
  split
  · exact .pure _
  · exact .bind (inodeWriteNbytesLocked_syncs _ _ _) fun _ => .pure _

theorem myfuseUnlink_syncs (path : List Byte) : Syncs (myfuseUnlink path) := by
  have finish (ip dp : Nat) : Syncs (do iupdate ip; iunlockput ip; iunlockput dp; endOp; pure (0 : Int)) :=
    .bind (iupdate_syncs ip) fun _ => .bind (iunlockput_syncs ip) fun _ => .bind (iunlockput_syncs dp) fun _ => .bind endOp_syncs fun _ => .pure _
  apply Syncs.bind beginOp_syncs
  intro _
  apply Syncs.bind (path2inode_syncs path)
  intro found
  split
  · exact .bind endOp_syncs fun _ => .pure _
  apply Syncs.bind (path2parentinode_syncs path)
  intro place
  split
  · exact .stop _
  apply Syncs.bind (ilock_syncs _)
  intro _
  apply Syncs.bind (ilock_syncs _)
  intro _
  apply Syncs.get
  intro fs
  apply Syncs.ite
  · exact .bind (iunlockput_syncs _) fun _ => .bind (iunlockput_syncs _) fun _ => .bind endOp_syncs fun _ => .pure _
  apply Syncs.bind (modifyCopy_syncs _ _)
  intro _
  apply Syncs.get
  intro fs
  apply Syncs.ite
  · apply Syncs.bind (clearDirent_syncs _ _)
    intro cleared
    split
    · exact finish _ _
    · exact .bind (iput_syncs _) fun _ => finish _ _
  · exact finish _ _

theorem hasDirent_syncs (ip : Nat) : Syncs (hasDirent ip) := by
  apply Syncs.get
  intro fs
  apply Syncs.ite
  · apply Syncs.bind (inodeReadNbytesLocked_syncs ip _ 0)
    intro data
    apply Syncs.ite (.stop _)
    split
    · exact .stop _
    · exact .pure _
  · exact .pure _

theorem myfuseRmdir_syncs (path : List Byte) : Syncs (myfuseRmdir path) := by
  have finish (ip dp : Nat) : Syncs (do iupdate ip; iunlockput dp; iunlockput ip; endOp; pure (0 : Int)) :=
    .bind (iupdate_syncs ip) fun _ => .bind (iunlockput_syncs dp) fun _ => .bind (iunlockput_syncs ip) fun _ => .bind endOp_syncs fun _ => .pure _
  apply Syncs.bind beginOp_syncs
  intro _
  apply Syncs.bind (path2inode_syncs path)
  intro found
  split
  · exact .bind endOp_syncs fun _ => .pure _
  apply Syncs.bind (ilock_syncs _)
  intro _
  apply Syncs.bind (hasDirent_syncs _)
  intro used
  apply Syncs.ite
  · exact .bind (iunlockput_syncs _) fun _ => .bind endOp_syncs fun _ => .pure _
  apply Syncs.bind (path2parentinode_syncs path)
  intro place
  split
  · exact .stop _
  apply Syncs.bind (ilock_syncs _)
  intro _
  apply Syncs.bind (modifyCopy_syncs _ _)
  intro _
  apply Syncs.get
  intro fs
  apply Syncs.ite
  · exact .bind (clearDirent_syncs _ _) fun _ => finish _ _
  · exact finish _ _

theorem myfuseRead_syncs (size offset : Nat) (fi : FuseFileInfo) : Syncs (myfuseRead size offset fi) := by
  apply Syncs.bind (handleInode_syncs fi)
  intro found
  split
  · exact .bind beginOp_syncs fun _ => .stop _
  · exact .bind (inodeReadNbytesUnlocked_syncs _ _ _) fun _ => .pure _

theorem myfuseWrite_syncs (data : List Byte) (offset : Nat) (fi : FuseFileInfo) : Syncs (myfuseWrite data offset fi) := by
  apply Syncs.bind (handleInode_syncs fi)
  intro found
  split
  · exact .bind beginOp_syncs fun _ => .stop _
  · exact .bind (inodeWriteNbytesUnlocked_syncs _ _ _) fun _ => .pure _

theorem myfuseTruncate_syncs (path : List Byte) (size : Nat) : Syncs (myfuseTruncate path size) := by
  apply Syncs.bind beginOp_syncs
  intro _
  apply Syncs.bind (path2inode_syncs path)
  intro found
  split
  · exact .bind endOp_syncs fun _ => .pure _
  apply Syncs.get
  intro fs
  apply Syncs.ite
  · exact .bind endOp_syncs fun _ => .pure _
  · exact .bind (ilock_syncs _) fun _ => .bind (itrunc2size_syncs _ size) fun _ => .bind (iunlockput_syncs _) fun _ => .bind endOp_syncs fun _ => .pure _

theorem myfuseAccess_syncs (path : List Byte) : Syncs (myfuseAccess path) := by
  apply Syncs.bind beginOp_syncs
  intro _
  apply Syncs.bind (path2inode_syncs path)
  intro found
  split
  · exact .pure _
  · exact .bind (iput_syncs _) fun _ => .bind endOp_syncs fun _ => .pure _

theorem myfuseCreate_syncs (path : List Byte) (mode : Nat) (fi : FuseFileInfo) : Syncs (myfuseCreate path mode fi) := by
  apply Syncs.ite (.stop _)
  apply Syncs.bind beginOp_syncs
  intro _
  apply Syncs.bind (path2parentinode_syncs path)
  intro place
  split
  · exact .bind endOp_syncs fun _ => .pure _
  apply Syncs.bind (ialloc_syncs _)
  intro file_inode
  apply Syncs.bind (ilock_syncs file_inode)
  intro _
  apply Syncs.bind (modifyCopy_syncs _ _)
  intro _
  apply Syncs.bind getCurrentTimespec_syncs
  intro now
  apply Syncs.bind (modifyCopy_syncs _ _)
  intro _
  apply Syncs.bind (iupdate_syncs file_inode)
  intro _
  apply Syncs.bind (ilock_syncs _)
  intro _
  apply Syncs.get
  intro fs
  apply Syncs.bind (dirlink_syncs _ _ _)
  intro _
  exact .bind (iunlockput_syncs _) fun _ => .bind (openHandle_syncs _ _) fun _ => .pure _

theorem myfuseChmod_syncs (path : List Byte) (mode : Nat) : Syncs (myfuseChmod path mode) := by
  apply Syncs.bind beginOp_syncs
  intro _
  apply Syncs.bind (path2inode_syncs path)
  intro found
  split
  · exact .pure _
  · apply Syncs.bind (ilock_syncs _)
    intro _
    exact .bind (modifyCopy_syncs _ _) fun _ => .bind (iupdate_syncs _) fun _ => .bind (iunlockput_syncs _) fun _ => .bind endOp_syncs fun _ => .pure _

theorem dropDirent_syncs (dp : Nat) (name : Name) : Syncs (dropDirent dp name) := by
  apply Syncs.bind (dirlookup_syncs dp name)
  intro found
  exact .bind (iputPtr_syncs _) fun _ => .bind (inodeWriteNbytesLocked_syncs _ _ _) fun _ => .pure _

theorem renameTarget_syncs (from_ip from_dp : Nat) (from_name : Name) (target_ip : Option Nat) (target : Option (Nat × Name)) (flags : Nat) :
    Syncs (renameTarget from_ip from_dp from_name target_ip target flags) := by
  apply Syncs.get
  intro fs
  split
  · split
    · exact .stop _
    · exact .bind (ilock_syncs _) fun _ => .bind (dirlink_syncs _ _ _) fun _ => .bind (iunlock_syncs _) fun _ => .pure _
  apply Syncs.ite
  · exact .bind (ilock_syncs _) fun _ => .bind (dirlink_syncs _ _ _) fun _ => .bind (iunlock_syncs _) fun _ => .pure _
  apply Syncs.ite
  · split
    · exact .stop _
    apply Syncs.bind (ilock_syncs _)
    intro _
    apply Syncs.bind (ilock_syncs _)
    intro _
    apply Syncs.bind (dropDirent_syncs _ _)
    intro _
    apply Syncs.bind (dirlink_syncs _ _ _)
    intro _
    apply Syncs.bind (dirlink_syncs _ _ _)
    intro _
    exact .bind (iunlock_syncs _) fun _ => .bind (iunlock_syncs _) fun _ => .pure _
  · exact .ite (.pure _) (.pure _)

theorem myfuseRename_syncs (source target : List Byte) (flags : Nat) : Syncs (myfuseRename source target flags) := by
  apply Syncs.bind beginOp_syncs
  intro _
  apply Syncs.bind (path2inode_syncs target)
  intro target_ip
  apply Syncs.bind (path2parentinode_syncs target)
  intro target_dp
  apply Syncs.bind (path2inode_syncs source)
  intro from_ip
  apply Syncs.bind (path2parentinode_syncs source)
  intro from_dp
  split
  · apply Syncs.ite (.pure _)
    apply Syncs.bind (ilock_syncs _)
    intro _
    apply Syncs.bind (ilock_syncs _)
    intro _
    apply Syncs.bind (dropDirent_syncs _ _)
    intro _
    apply Syncs.bind (iunlock_syncs _)
    intro _
    apply Syncs.bind (iunlock_syncs _)
    intro _
    apply Syncs.bind (renameTarget_syncs _ _ _ _ _ _)
    intro res
    apply Syncs.bind (iputSome_syncs _)
    intro _
    exact .bind (iputSome_syncs _) fun _ => .bind (iput_syncs _) fun _ => .bind (iput_syncs _) fun _ => .bind endOp_syncs fun _ => .pure _
  · exact .pure _

end FS

namespace FuseCall
open FS

/-- Every call. -/
theorem run_syncs (call : FuseCall) : Syncs call.run := by
  cases call with
  | getattr path => exact .bind (myfuseGetattr_syncs path) fun _ => .pure _
  | readdir full fi => exact .bind (myfuseReaddir_syncs full fi) fun _ => .pure _
  | opendir path fi => exact .bind (myfuseOpendir_syncs path fi) fun _ => .pure _
  | openFile path fi => exact .bind (myfuseOpen_syncs path fi) fun _ => .pure _
  | create path mode fi => exact .bind (myfuseCreate_syncs path mode fi) fun _ => .pure _
  | release fi => exact .bind (myfuseRelease_syncs fi) fun _ => .pure _
  | mkdir path mode => exact .bind (myfuseMkdir_syncs path mode) fun _ => .pure _
  | unlink path => exact .bind (myfuseUnlink_syncs path) fun _ => .pure _
  | rmdir path => exact .bind (myfuseRmdir_syncs path) fun _ => .pure _
  | read size offset fi => exact .bind (myfuseRead_syncs size offset fi) fun _ => .pure _
  | write data offset fi => exact .bind (myfuseWrite_syncs data offset fi) fun _ => .pure _
  | truncate path size => exact .bind (myfuseTruncate_syncs path size) fun _ => .pure _
  | access path => exact .bind (myfuseAccess_syncs path) fun _ => .pure _
  | chmod path mode => exact .bind (myfuseChmod_syncs path mode) fun _ => .pure _
  | rename source target flags => exact .bind (myfuseRename_syncs source target flags) fun _ => .pure _

end FuseCall

namespace FS
variable {fs after : FS}

/-- The device has all that is written, and nothing waits in the log. -/
structure OnDevice (fs : FS) : Prop where
  device : fs.device = fs.store
  empty : fs.log.block = []

theorem OnDevice.synced (onDevice : fs.OnDevice) : fs.Synced := fun blockno changed => absurd (congrFun onDevice.device blockno).symm changed

/-- A call that has ended its operation has left everything on the device. -/
theorem OnDevice.call {call : FuseCall} {value : Int × Option Nat} (onDevice : fs.OnDevice) (mounted : Mounted fs) (idle : fs.log.outstanding = 0)
    (returned : call.run fs = (.ok value, after)) (closed : after.log.outstanding = 0) : after.OnDevice := by
  have synced := (call.run_syncs fs onDevice.synced).returned returned
  obtain ⟨left, tally⟩ := mounted.tally returned
  have ops : left.ops = 0 := tally.books.ops.symm.trans closed
  have clean : ¬ call.LeavesOpen fs := by
    intro opens
    have opened : left.ops = fs.log.outstanding + 1 := tally.opens opens
    omega
  have empty := (tally.ends clean).2 (fun _ => onDevice.empty) closed
  refine ⟨?_, empty⟩
  funext blockno
  by_contra changed
  have listed := synced blockno fun same => changed same.symm
  rw [empty] at listed
  cases listed

end FS
end Myfuse
