import Myfuse.File

/-! The table of open files is used by `file.c` alone: nothing of the inode, directory
and log layers changes it. -/

namespace Myfuse
open Library Library.Exec

namespace FS
variable {α β : Type} {fs : FS} {ip : Nat}

/-- A returned run leaves the table as it was. -/
def TableKept (program : M α) : Prop :=
  ∀ fs, Ensures program fs (fun _ after => after.files = fs.files ∧ after.nfile = fs.nfile) fun _ _ => True

namespace TableKept
variable {first second : M α}

theorem pure (value : α) : TableKept (pure value : M α) := fun _ => (ensures_pure value).mpr ⟨rfl, rfl⟩

theorem stop (reason : Exit) : TableKept (stop reason : M α) := fun _ => (ensures_stop reason).mpr trivial

theorem bind {next : α → M β} (head : TableKept first) (tail : ∀ value, TableKept (next value)) : TableKept (first >>= next) := by
  refine fun fs => Ensures.bind (head fs) fun value middle same => (tail value middle).weaken fun _ after later => ?_
  exact ⟨later.1.trans same.1, later.2.trans same.2⟩

theorem get {next : FS → M α} (rest : ∀ fs, TableKept (next fs)) : TableKept (Exec.get >>= next) :=
  fun fs => ensures_bind.mpr (ensures_get.mpr (rest fs fs))

theorem ite {condition : Prop} [Decidable condition] (yes : TableKept first) (no : TableKept second) :
    TableKept (if condition then first else second) := by
  split
  · exact yes
  · exact no

theorem forRange {body : Nat → M Unit} (each : ∀ i, TableKept (body i)) (lo count : Nat) : TableKept (forRange lo count body) := by
  refine fun fs => Ensures.forRange (fun _ (after : FS) => after.files = fs.files ∧ after.nfile = fs.nfile) ⟨rfl, rfl⟩ ?_
  intro i current _ _ same
  exact (each i current).weaken fun _ _ later => ⟨later.1.trans same.1, later.2.trans same.2⟩

theorem modify {change : FS → FS} (same : ∀ fs, (change fs).files = fs.files ∧ (change fs).nfile = fs.nfile) : TableKept (modify change : M Unit) :=
  fun fs => (ensures_modify _).mpr (same fs)

end TableKept

/-! Log and allocator. -/

theorem note_files (event : Event) : TableKept (note event) := .modify fun _ => ⟨rfl, rfl⟩

theorem modifyBmap_files (change : BmapCache → BmapCache) : TableKept (modifyBmap change) := .modify fun _ => ⟨rfl, rfl⟩

theorem modifyInode_files (change : Inode → Inode) : TableKept (modifyInode ip change) := .modify fun _ => ⟨rfl, rfl⟩

theorem modifyCopy_files (change : Dinode → Dinode) : TableKept (modifyCopy ip change) := modifyInode_files _

theorem loggedRead_files (blockno : Nat) : TableKept (loggedRead blockno) := .get fun _ => .pure _

theorem getCurrentTimespec_files : TableKept getCurrentTimespec := .get fun _ => .bind (.modify fun _ => ⟨rfl, rfl⟩) fun _ => .pure _

theorem loggedUpdate_files (blockno : Nat) (change : Block → Block) : TableKept (loggedUpdate blockno change) := by
  refine .bind (.modify fun _ => ⟨rfl, rfl⟩) fun _ => .get fun fs => .ite (.stop _) (.ite (.stop _) ?_)
  exact .bind (.modify fun _ => ⟨rfl, rfl⟩) fun _ => note_files _

theorem beginOp_files : TableKept beginOp := .get fun _ => .ite (.bind (.modify fun _ => ⟨rfl, rfl⟩) fun _ => note_files _) (.stop _)

theorem commit_files : TableKept commit := .bind (.modify fun _ => ⟨rfl, rfl⟩) fun _ => .get fun _ => note_files _

theorem endOp_files : TableKept endOp := by
  refine .bind (.modify fun _ => ⟨rfl, rfl⟩) fun _ => .get fun fs => ?_
  exact .ite (.stop _) (.bind (note_files _) fun _ => .ite commit_files (.pure _))

theorem bmapBlockStatueSet_files (blockno i : Nat) : TableKept (bmapBlockStatueSet blockno i) :=
  .get fun _ => .ite (.stop _) (.bind (modifyBmap_files _) fun _ => loggedUpdate_files _ _)

theorem blockAllocUpdateCache_files (c j : Nat) : TableKept (blockAllocUpdateCache c j) := by
  refine .bind (modifyBmap_files _) fun _ => .get fun fs => .ite (.bind (modifyBmap_files _) fun _ => .get fun fs => ?_) ?_
  · split
    · exact modifyBmap_files _
    · exact .bind (modifyBmap_files _) fun _ => .stop _
  · dsimp only
    split
    · exact modifyBmap_files _
    · exact .pure _

theorem blockAlloc_files : TableKept blockAlloc := by
  refine .get fun fs => .ite (.stop _) (.bind (bmapBlockStatueSet_files _ _) fun _ => .bind (blockAllocUpdateCache_files _ _) fun _ => ?_)
  exact .bind (note_files _) fun _ => .bind (loggedUpdate_files _ _) fun _ => .pure _

theorem blockFree_files (blockno : Nat) : TableKept (blockFree blockno) :=
  .bind (bmapBlockStatueSet_files _ _) fun _ => .bind (modifyBmap_files _) fun _ => note_files _

/-! Inodes. -/

theorem iupdate_files : TableKept (iupdate ip) :=
  .bind getCurrentTimespec_files fun _ => .bind (modifyCopy_files _) fun _ => .get fun _ => loggedUpdate_files _ _

theorem ilock_files : TableKept (ilock ip) := by
  refine .get fun fs => .ite (.stop _) (.ite (.stop _) (.bind (modifyInode_files _) fun _ => .ite (.pure _) ?_))
  refine .bind (loggedRead_files _) fun _ => .bind (modifyInode_files _) fun _ => ?_
  exact .ite (.stop _) (.ite (.stop _) (.pure _))

theorem iunlock_files : TableKept (iunlock ip) := modifyInode_files _

theorem addrsFindOrAlloc_files (slot : Nat) : TableKept (addrsFindOrAlloc ip slot) :=
  .get fun _ => .ite (.bind blockAlloc_files fun _ => .bind (modifyCopy_files _) fun _ => .pure _) (.pure _)

theorem indexFindOrAlloc_files (blockno index : Nat) : TableKept (indexFindOrAlloc blockno index) :=
  .bind (loggedRead_files _) fun _ => .ite (.bind blockAlloc_files fun _ => .bind (loggedUpdate_files _ _) fun _ => .pure _) (.pure _)

theorem assert_files (condition : Prop) [Decidable condition] : TableKept (assert condition) := .ite (.pure _) (.stop _)

theorem imap2blockno_files (bn : Nat) : TableKept (imap2blockno ip bn) := by
  unfold imap2blockno
  refine .bind (.get fun _ => .ite (.stop _) (.pure _)) fun _ => ?_
  dsimp only
  split
  · exact addrsFindOrAlloc_files bn
  split
  · exact .bind (addrsFindOrAlloc_files _) fun _ => indexFindOrAlloc_files _ _
  split
  · refine .bind (addrsFindOrAlloc_files _) fun _ => .bind (assert_files _) fun _ => ?_
    exact .bind (indexFindOrAlloc_files _ _) fun _ => indexFindOrAlloc_files _ _
  split
  · refine .bind (addrsFindOrAlloc_files _) fun _ => .bind (assert_files _) fun _ => ?_
    refine .bind (indexFindOrAlloc_files _ _) fun _ => .bind (assert_files _) fun _ => ?_
    exact .bind (indexFindOrAlloc_files _ _) fun _ => indexFindOrAlloc_files _ _
  · exact .stop _

theorem freeEntries_files : ∀ level blockno, TableKept (freeEntries level blockno)
  | 0, _ => .bind (loggedRead_files _) fun _ => .forRange (fun _ => .ite (blockFree_files _) (.pure _)) _ _
  | level + 1, _ => .bind (loggedRead_files _) fun _ =>
    .forRange (fun _ => .ite (.bind (freeEntries_files level _) fun _ => blockFree_files _) (.pure _)) _ _

theorem freeTree_files (slot level : Nat) : TableKept (freeTree ip slot level) :=
  .get fun _ => .ite (.bind (freeEntries_files level _) fun _ => blockFree_files _) (.pure _)

theorem itrunc_files : TableKept (itrunc ip) := by
  refine .bind (.forRange (fun _ => .get fun _ => .ite (blockFree_files _) (.pure _)) _ _) fun _ => ?_
  refine .bind (freeTree_files _ _) fun _ => .bind (freeTree_files _ _) fun _ => .bind (freeTree_files _ _) fun _ => ?_
  exact .bind (modifyCopy_files _) fun _ => iupdate_files

theorem iget_files (inum : Nat) : TableKept (iget inum) := by
  have claim (ip : Nat) : TableKept (igetClaim ip inum) := .bind (modifyInode_files _) fun _ => .pure _
  refine .get fun fs => ?_
  split
  · exact .bind (modifyInode_files _) fun _ => .pure _
  · split
    · exact claim _
    · exact .bind (.modify fun _ => ⟨rfl, rfl⟩) fun _ => claim _

theorem iput_files : TableKept (iput ip) := by
  have drop : TableKept (modifyInode ip fun inode => { inode with ref := inode.ref - 1 }) := modifyInode_files _
  unfold iput
  refine .get fun fs => ?_
  dsimp only
  refine .ite (.ite (.stop _) (.bind itrunc_files fun _ => .bind (modifyCopy_files _) fun _ => ?_)) drop
  exact .bind iupdate_files fun _ => .bind (modifyInode_files _) fun _ => drop

theorem iunlockput_files : TableKept (iunlockput ip) := .bind iunlock_files fun _ => iput_files

theorem iallocFrom_files (type : BitVec 16) : ∀ count inum, TableKept (iallocFrom type count inum)
  | 0, _ => .stop _
  | count + 1, inum => .get fun _ => .bind (loggedRead_files _) fun _ =>
    .ite (.bind (loggedUpdate_files _ _) fun _ => iget_files _) (iallocFrom_files type count (inum + 1))

theorem ialloc_files (type : BitVec 16) : TableKept (ialloc type) := .get fun _ => iallocFrom_files type _ _

theorem restartOpOn_files (nwrote : Nat) : TableKept (restartOpOn ip nwrote) := by
  refine .get fun fs => .ite (.bind iupdate_files fun _ => .bind iunlock_files fun _ => ?_) (.pure _)
  exact .bind endOp_files fun _ => .bind beginOp_files fun _ => ilock_files

theorem writeBlock_files (bn offset : Nat) (data : List Byte) : TableKept (writeBlock ip bn offset data) :=
  .bind (imap2blockno_files bn) fun _ => loggedUpdate_files _ _

theorem readBlock_files (bn offset count : Nat) : TableKept (readBlock ip bn offset count) :=
  .bind (imap2blockno_files bn) fun _ => .bind (loggedRead_files _) fun _ => .pure _

theorem touch_files : TableKept (touch ip) := .bind getCurrentTimespec_files fun _ => modifyCopy_files _

theorem writeBlocks_files (data : List Byte) (bn : Nat) : TableKept (writeBlocks ip data bn) := by
  unfold writeBlocks
  split
  next more =>
    refine .bind (restartOpOn_files _) fun _ => .bind (writeBlock_files _ _ _) fun _ => ?_
    exact writeBlocks_files (data.drop BSIZE) (bn + 1)
  next => exact .pure _
  termination_by data.length
  decreasing_by
    rename_i more
    simp only [BSIZE, List.length_drop] at more ⊢
    omega

theorem inodeWriteNbytesLocked_files (data : List Byte) (off : Nat) : TableKept (inodeWriteNbytesLocked ip data off) := by
  have finish (nbytes : Nat) : TableKept (do touch ip; iupdate ip; pure nbytes) :=
    .bind touch_files fun _ => .bind iupdate_files fun _ => .pure _
  unfold inodeWriteNbytesLocked
  apply TableKept.ite (.pure _)
  dsimp only
  refine .bind (modifyCopy_files _) fun _ => .bind iupdate_files fun _ => ?_
  refine .bind (restartOpOn_files _) fun _ => .bind (writeBlock_files _ _ _) fun _ => .ite (finish _) ?_
  refine .bind (writeBlocks_files _ _) fun left => .bind (restartOpOn_files _) fun _ => ?_
  split
  · exact .bind (writeBlock_files _ _ _) fun _ => finish _
  · exact finish _

theorem readBlocks_files (nbytes bn : Nat) : TableKept (readBlocks ip nbytes bn) := by
  unfold readBlocks
  split
  next more =>
    refine .bind (restartOpOn_files _) fun _ => .bind (readBlock_files _ _ _) fun _ => ?_
    exact .bind (readBlocks_files (nbytes - BSIZE) (bn + 1)) fun _ => .pure _
  split
  · exact .bind (restartOpOn_files _) fun _ => readBlock_files _ _ _
  · exact .pure _
  termination_by nbytes
  decreasing_by
    rename_i more
    simp only [BSIZE] at more ⊢
    omega

theorem inodeReadNbytesLocked_files (nbytes off : Nat) : TableKept (inodeReadNbytesLocked ip nbytes off) := by
  have stamp : ∀ now, TableKept (modifyCopy ip fun copy => { copy with st_atimespec := now }) := fun _ => modifyCopy_files _
  unfold inodeReadNbytesLocked
  refine .get fun fs => ?_
  dsimp only
  refine .ite (.pure _) (.bind (readBlock_files _ _ _) fun head => .ite ?_ ?_)
  · exact .bind getCurrentTimespec_files fun now => .bind (stamp now) fun _ => .bind iupdate_files fun _ => .pure _
  · refine .bind (readBlocks_files _ _) fun rest => .bind iupdate_files fun _ => ?_
    exact .bind getCurrentTimespec_files fun now => .bind (stamp now) fun _ => .pure _

/-! Directories and paths. -/

theorem dirlookup_files (dp : Nat) (name : Name) : TableKept (dirlookup dp name) := by
  refine .get fun fs => .bind (inodeReadNbytesLocked_files _ _) fun data => .ite (.stop _) ?_
  split
  · exact .stop _
  · exact .pure _
  · exact .bind (iget_files _) fun _ => .pure _

theorem dirlinkOffset_files (dp : Nat) : TableKept (dirlinkOffset dp) := by
  refine .get fun fs => ?_
  dsimp only
  refine .ite (.bind (inodeReadNbytesLocked_files _ _) fun data => .ite (.stop _) ?_) (.pure _)
  split
  · exact .stop _
  · exact .ite (.stop _) (.pure _)

theorem dirlink_files (dp : Nat) (name : Name) (inum : Nat) : TableKept (dirlink dp name inum) := by
  refine .bind (dirlookup_files dp name) fun found => ?_
  split
  · exact .bind iput_files fun _ => .pure _
  · exact .bind (dirlinkOffset_files dp) fun _ => .bind (inodeWriteNbytesLocked_files _ _) fun _ => .ite (.stop _) (.pure _)

theorem namexFrom_files (nameiparent : Bool) : ∀ names ip, TableKept (namexFrom nameiparent names ip)
  | [], ip => .ite (.bind iput_files fun _ => .pure _) (.pure _)
  | name :: rest, ip => by
    refine .bind ilock_files fun _ => .get fun fs => .ite ?_ (.ite ?_ ?_)
    · exact .bind iunlockput_files fun _ => .pure _
    · exact .bind iunlock_files fun _ => .pure _
    · refine .bind (dirlookup_files ip name) fun found => ?_
      split
      · exact .bind iunlockput_files fun _ => .pure _
      · exact .bind iunlockput_files fun _ => namexFrom_files nameiparent rest _

theorem namex_files (path : List Byte) (nameiparent : Bool) : TableKept (namex path nameiparent) :=
  .ite (.bind (iget_files _) fun _ => namexFrom_files nameiparent _ _) (.stop _)

theorem path2inode_files (path : List Byte) : TableKept (path2inode path) := .bind (namex_files path false) fun _ => .pure _

theorem path2parentinode_files (path : List Byte) : TableKept (path2parentinode path) := namex_files path true

end FS
end Myfuse
