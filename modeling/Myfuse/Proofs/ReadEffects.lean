import Myfuse.Proofs.BlockMap
import Myfuse.Proofs.FileBytes
import Myfuse.Proofs.EntryRules

/-! What `inode_read_nbytes_locked` does to the file system: nothing but the
times of the inode when all blocks it looks up are mapped; else it maps them. -/

namespace Myfuse
open Library Library.Exec

namespace FS
variable {α : Type} {origin : Origin} {fs middle after : FS} {ip : Nat}

/-! Blocks that are mapped already. -/

/-- Nothing but the access and change times of the entry `ip`, its lock and its dinode may differ. -/
structure OnlyTimes (ip : Nat) (fs after : FS) : Prop where
  sb : after.sb = fs.sb
  ninode : after.ninode = fs.ninode
  others : ∀ ip', ip' ≠ ip → after.inode ip' = fs.inode ip'
  entry : ∃ locked st_atimespec st_ctimespec,
    after.inode ip = { fs.inode ip with locked, copy := { (fs.inode ip).copy with st_atimespec, st_ctimespec } }
  store : ∀ blockno, blockno ≠ fs.sb.iblock (fs.inode ip).inum → after.store blockno = fs.store blockno
  dinodes : ∀ inum, inum ≠ (fs.inode ip).inum → after.dinode inum = fs.dinode inum
  taken : allocatedBlocks after.history = allocatedBlocks fs.history

namespace OnlyTimes

theorem refl (ip : Nat) (fs : FS) : OnlyTimes ip fs fs := ⟨rfl, rfl, fun _ _ => rfl, ⟨_, _, _, rfl⟩, fun _ _ => rfl, fun _ _ => rfl, rfl⟩

/-- A step that moves neither entries nor blocks. -/
theorem step (only : OnlyTimes ip fs middle) (sb : after.sb = middle.sb) (ninode : after.ninode = middle.ninode) (inode : after.inode = middle.inode)
    (store : after.store = middle.store) (taken : allocatedBlocks after.history = allocatedBlocks middle.history) : OnlyTimes ip fs after where
  sb := sb.trans only.sb
  ninode := ninode.trans only.ninode
  others ip' apart := by rw [inode, only.others ip' apart]
  entry := by rw [inode]; exact only.entry
  store blockno apart := by rw [store, only.store blockno apart]
  dinodes inum apart := (dinode_congr sb (by rw [store])).trans (only.dinodes inum apart)
  taken := taken.trans only.taken

variable (only : OnlyTimes ip fs after)
include only

theorem inum : (after.inode ip).inum = (fs.inode ip).inum := by
  obtain ⟨_, _, _, entry⟩ := only.entry
  rw [entry]

theorem valid : (after.inode ip).valid = (fs.inode ip).valid := by
  obtain ⟨_, _, _, entry⟩ := only.entry
  rw [entry]

theorem addrs : (after.inode ip).copy.addrs = (fs.inode ip).copy.addrs := by
  obtain ⟨_, _, _, entry⟩ := only.entry
  rw [entry]

theorem identity (ip' : Nat) : (after.inode ip').inum = (fs.inode ip').inum ∧ (after.inode ip').ref = (fs.inode ip').ref ∧
    (after.inode ip').valid = (fs.inode ip').valid := by
  by_cases here : ip' = ip
  · subst here
    obtain ⟨_, _, _, entry⟩ := only.entry
    rw [entry]
    exact ⟨rfl, rfl, rfl⟩
  · rw [only.others ip' here]
    exact ⟨rfl, rfl, rfl⟩

theorem frame : Frame ip fs after := ⟨only.sb, only.ninode, only.others, only.inum, fun inum _ apart => only.dinodes inum apart⟩

theorem live {ip' : Nat} : after.Live ip' ↔ fs.Live ip' := by rw [Live, Live, only.ninode, (only.identity ip').2.1]

theorem loaded {ip' : Nat} : after.Loaded ip' ↔ fs.Loaded ip' := by rw [Loaded, Loaded, only.live, (only.identity ip').2.2]

theorem table (table : fs.TableOk) : after.TableOk where
  inside ip' isLive := by
    rw [only.sb, (only.identity ip').1]
    exact table.inside ip' (only.live.mp isLive)
  unique first second isLive isLive' same := by
    rw [(only.identity first).1, (only.identity second).1] at same
    exact table.unique first second (only.live.mp isLive) (only.live.mp isLive') same

theorem roots (table : fs.TableOk) (loaded : fs.Loaded ip) : after.roots = fs.roots := by
  funext inum slot
  by_cases here : inum = (fs.inode ip).inum
  · rw [here, roots_loaded table loaded, ← only.inum, roots_loaded (only.table table) (only.loaded.mpr loaded), only.addrs]
  · rw [only.frame.roots here]

theorem held (volume : fs.Volume origin) (loaded : fs.Loaded ip) : after.held = fs.held :=
  held_congr (only.roots volume.table loaded) fun owner path _ holds _ => by
    rw [only.store]
    exact fun same => Superblock.iblock_not_data volume.layout (volume.table.inside ip loaded.1) (same ▸ volume.owned.inside _ _ holds)

theorem bits (volume : fs.Volume origin) (loaded : fs.Loaded ip) {blockno : Nat} (covered : blockno < fs.sb.nbitmap * BPB) :
    bitOf fs.sb after.store blockno = bitOf fs.sb fs.store blockno := by
  refine bitOf_congr (only.store _ fun same => ?_)
  exact Superblock.iblock_not_bitmap volume.layout (volume.table.inside ip loaded.1) (same ▸ Superblock.bblock_inBitmap covered)

end OnlyTimes

/-- What reading may leave changed: the times of the inode read. -/
structure FilesKept (ip : Nat) (fs after : FS) : Prop where
  bitmap : ∀ blockno < fs.sb.nbitmap * BPB, bitOf fs.sb after.store blockno = bitOf fs.sb fs.store blockno
  taken : allocatedBlocks after.history = allocatedBlocks fs.history
  blocks : after.held = fs.held
  content : after.content = fs.content
  size : ∀ inum < fs.sb.ninodes, after.fileSize inum = fs.fileSize inum
  others : ∀ inum < fs.sb.ninodes, inum ≠ (fs.inode ip).inum → after.current inum = fs.current inum
  own : ∃ st_atimespec st_ctimespec,
    after.current (fs.inode ip).inum = { fs.current (fs.inode ip).inum with st_atimespec, st_ctimespec }

theorem OnlyTimes.kept (only : OnlyTimes ip fs after) (volume : fs.Volume origin) (loaded : fs.Loaded ip) : FilesKept ip fs after := by
  have held := only.held volume loaded
  have others : ∀ inum < fs.sb.ninodes, inum ≠ (fs.inode ip).inum → after.current inum = fs.current inum := fun inum inside apart =>
    only.frame.current inside apart
  have own : after.current (fs.inode ip).inum = (after.inode ip).copy := by
    rw [← only.inum, current_loaded (only.table volume.table) (only.loaded.mpr loaded)]
  obtain ⟨_, atime, ctime, entry⟩ := only.entry
  refine ⟨fun _ covered => only.bits volume loaded covered, only.taken, held, ?_, fun inum inside => ?_, others, atime, ctime, ?_⟩
  · funext inum p
    refine content_congr (by rw [held]) fun holds => only.store _ fun same => ?_
    exact Superblock.iblock_not_data volume.layout (volume.table.inside ip loaded.1) (same ▸ volume.owned.inside _ _ holds)
  · unfold fileSize
    by_cases here : inum = (fs.inode ip).inum
    · rw [here, own, current_loaded volume.table loaded, entry]
    · rw [others inum inside here]
  · rw [own, current_loaded volume.table loaded, entry]

/-! Routines that change nothing but times. -/

abbrev Times (ip : Nat) (fs : FS) (program : M α) : Prop := Preserves (OnlyTimes ip fs) (fun _ => OnlyTimes ip fs) program

theorem stop_times (reason : Exit) : Times ip fs (stop reason : M α) := .stop fun _ only => only

theorem getCurrentTimespec_times : Times ip fs getCurrentTimespec :=
  .gets fun _ => .bind (.modify fun _ only => only.step rfl rfl rfl rfl rfl) fun _ => .pure _

theorem loggedWrite_times (blockno : Nat) : Times ip fs (loggedWrite blockno) :=
  .gets fun _ => .ite (fun _ => stop_times _) fun _ => .ite (fun _ => stop_times _) fun _ =>
    .bind (.modify fun _ only => only.step rfl rfl rfl rfl rfl) fun _ => .modify fun _ only => only.step rfl rfl rfl rfl rfl

theorem beginOp_times : Times ip fs beginOp :=
  .gets fun _ => .ite (fun _ => .bind (.modify fun _ only => only.step rfl rfl rfl rfl rfl) fun _ =>
    .modify fun _ only => only.step rfl rfl rfl rfl rfl) fun _ => stop_times _

theorem endOp_times : Times ip fs endOp :=
  .bind (.modify fun _ only => only.step rfl rfl rfl rfl rfl) fun _ => .gets fun _ => .ite (fun _ => stop_times _) fun _ =>
    .bind (.modify fun _ only => only.step rfl rfl rfl rfl rfl) fun _ => .ite (fun _ => .bind
      (.modify fun _ only => only.step rfl rfl rfl rfl rfl) fun _ => .gets fun _ => .modify fun _ only => only.step rfl rfl rfl rfl rfl) fun _ => .pure _

theorem modifyInode_times {change : Inode → Inode}
    (times : ∀ inode, ∃ locked st_atimespec st_ctimespec, change inode = { inode with locked, copy := { inode.copy with st_atimespec, st_ctimespec } }) :
    Times ip fs (modifyInode ip change) := by
  refine .modify fun middle only => ⟨only.sb, only.ninode, fun ip' apart => (assign_of_ne apart _ _).trans (only.others ip' apart), ?_, only.store,
    only.dinodes, only.taken⟩
  obtain ⟨_, _, _, entry⟩ := only.entry
  obtain ⟨locked, atime, ctime, changed⟩ := times (middle.inode ip)
  refine ⟨locked, atime, ctime, ?_⟩
  simp only [assign_self]
  rw [changed, entry]

/-- The dinode alone is written. -/
theorem writeDinode_times {current : FS} (only : OnlyTimes ip fs current) :
    Ensures (loggedUpdate (current.sb.iblock (current.inode ip).inum) fun data =>
        Dinode.write data (Dinode.offsetOf (current.inode ip).inum) (current.inode ip).copy) current
      (fun _ => OnlyTimes ip fs) fun _ => OnlyTimes ip fs := by
  unfold loggedUpdate
  rw [ensures_bind, ensures_modify, only.sb, only.inum]
  refine loggedWrite_times _ _ ⟨rfl, only.ninode, only.others, only.entry, fun blockno apart => ?_, fun inum apart => ?_, only.taken⟩
  · exact (assign_of_ne apart _ _).trans (only.store blockno apart)
  · rw [← only.dinodes inum apart]
    unfold dinode
    dsimp only
    rw [only.sb]
    by_cases same : fs.sb.iblock inum = fs.sb.iblock (fs.inode ip).inum
    · rw [same, assign_self]
      refine Dinode.read_write_other _ _ ?_ apart
      simp only [Superblock.iblock] at same
      omega
    · rw [assign_of_ne same]

theorem iupdate_times : Times ip fs (iupdate ip) := by
  refine .bind getCurrentTimespec_times fun now => .bind (modifyInode_times fun inode => ⟨_, inode.copy.st_atimespec, now, rfl⟩) fun _ =>
    .get fun current only => ?_
  exact writeDinode_times only

/-- A loaded entry is not read again. -/
theorem ilock_times (loaded : (fs.inode ip).valid = true) : Times ip fs (ilock ip) := by
  refine .get fun current only => (Preserves.ite (fun _ => stop_times _) fun _ => .ite (fun _ => stop_times _) fun _ => ?_) current only
  rw [if_pos (only.valid.trans loaded)]
  exact .bind (modifyInode_times fun inode => ⟨true, inode.copy.st_atimespec, inode.copy.st_ctimespec, rfl⟩) fun _ => .pure _

theorem restartOpOn_times (loaded : (fs.inode ip).valid = true) (nwrote : Nat) : Times ip fs (restartOpOn ip nwrote) := by
  refine .get fun current only => (Preserves.ite (fun _ => ?_) fun _ => .pure _) current only
  refine .bind iupdate_times fun _ => .bind (modifyInode_times fun inode => ?_) fun _ => .bind endOp_times fun _ => .bind beginOp_times fun _ =>
    ilock_times loaded
  exact ⟨false, inode.copy.st_atimespec, inode.copy.st_ctimespec, rfl⟩

/-! Blocks that are looked up. -/

/-- The entry is loaded, and more blocks were handed out than `taken`. -/
def More (taken : Nat) (inode : Inode) (allocated : List Nat) : Prop := inode.valid = true ∧ taken < allocated.length

theorem More.lasting (taken : Nat) : Lasting (More taken) where
  valid _ _ := And.left
  locks _ _ _ := id
  stamps _ _ _ _ _ := id
  slots _ _ _ _ := id
  grows _ _ _ more := ⟨more.1, Nat.lt_succ_of_lt more.2⟩

/-- More blocks were handed out than in `fs`. -/
abbrev TakesMore (ip : Nat) (fs after : FS) : Prop := OnEntry ip (More (allocatedBlocks fs.history).length) after

/-- A mapped block is found and nothing changes; for a missing one blocks are taken. -/
theorem imap2blockno_finds {bn : Nat} (table : fs.TableOk) (loaded : fs.Loaded ip) :
    Ensures (imap2blockno ip bn) fs
      (fun _ after => fs.held (fs.inode ip).inum (pathOf bn) ≠ 0 ∧ after = fs ∨ fs.held (fs.inode ip).inum (pathOf bn) = 0 ∧ TakesMore ip fs after)
      fun _ after => after = fs ∨ fs.held (fs.inode ip).inum (pathOf bn) = 0 := by
  rcases Nat.lt_or_ge bn MAXFILE_BLOCKS with small | large
  · refine Ensures.weaken (imap2blockno_walk (fun path block current =>
      (current = fs ∧ block = fs.held (fs.inode ip).inum path ∧ block ≠ 0) ∨ fs.held (fs.inode ip).inum path = 0 ∧ TakesMore ip fs current)
      small (fun _ => .inl rfl) ?_ ?_) ?_
    · intro slot inside before
      have root := roots_loaded table loaded slot
      rw [if_pos inside, ← held_root] at root
      unfold addrsFindOrAlloc
      rw [ensures_bind, ensures_get]
      dsimp only
      rw [← root]
      split
      next missing =>
        refine Ensures.bind ((blockAlloc_takes ip fs).mono (fun _ _ same => same) fun _ _ _ => .inr (held_missing_above (by simp) before missing)) ?_
        rintro block taken ⟨inode, allocated⟩
        unfold modifyCopy modifyInode
        rw [ensures_bind, ensures_modify, ensures_pure]
        refine .inr ⟨missing, ?_⟩
        simp only [OnEntry, More, assign_self, inode, allocated, loaded.2, List.length_cons, Nat.lt_succ_self, and_self]
      next present => exact (ensures_pure _).mpr (.inl ⟨rfl, rfl, present⟩)
    · rintro path block middle index (⟨rfl, rfl, present⟩ | ⟨missing, more⟩) deep inside before
      · have nonempty : path ≠ [] := by
          rintro rfl
          exact deep
        have below : middle.held (middle.inode ip).inum (path ++ [index]) = entry (middle.store (middle.held (middle.inode ip).inum path)) index := by
          rw [held_append _ nonempty, if_pos ⟨deep, present⟩]
        unfold indexFindOrAlloc loggedRead
        rw [ensures_bind, ensures_bind, ensures_get, ensures_pure, ← below]
        split
        next missing =>
          refine Ensures.bind ((blockAlloc_takes ip middle).mono (fun _ _ same => same) fun _ _ _ => .inr (held_missing_above (by simp) before missing)) ?_
          rintro block taken ⟨inode, allocated⟩
          refine Ensures.bind ((loggedUpdate_calm _ _ taken).mono (fun _ _ same => same) fun _ _ _ => .inr (held_missing_above (by simp) before missing)) ?_
          rintro _ after ⟨inode', allocated'⟩
          rw [ensures_pure]
          refine .inr ⟨missing, ?_⟩
          simp only [OnEntry, More, inode', allocated', inode, allocated, loaded.2, List.length_cons, Nat.lt_succ_self, and_self]
        next held => exact (ensures_pure _).mpr (.inl ⟨rfl, rfl, held⟩)
      · have nonempty : path ≠ [] := by
          rintro rfl
          exact deep
        have gone : ∀ {further : List Nat}, path <+: further → fs.held (fs.inode ip).inum further = 0 := fun longer => held_missing_above nonempty longer missing
        have guards : Guards ip (More (allocatedBlocks fs.history).length) (fun _ => True) (indexFindOrAlloc block index) :=
          indexFindOrAlloc_guards (fun _ _ => trivial) trivial (More.lasting _).grows _ _
        refine (guards middle more).mono ?_ ?_
        · exact fun _ _ more => .inr ⟨gone (List.prefix_append _ _), more⟩
        · exact fun _ _ _ => .inr (gone ((List.prefix_append _ _).trans before))
    · rintro block after (⟨rfl, rfl, present⟩ | missing)
      · exact .inl ⟨present, rfl⟩
      · exact .inr missing
  · exact (imap2blockno_outside large).mono (fun _ _ => False.elim) fun _ _ same => .inl same.1

/-! Whole reads. -/

/-- The blocks a read of `nbytes` at `off` looks up. -/
def Visits (size nbytes off bn : Nat) : Prop :=
  off ≤ size ∧ (bn = off / BSIZE ∨ off / BSIZE < bn ∧ bn * BSIZE < off + served size nbytes off)

/-- Every block the read looks up is mapped. -/
def ReadsMapped (fs : FS) (ip nbytes off : Nat) : Prop :=
  ∀ bn, Visits (fs.inode ip).copy.size nbytes off bn → fs.blockMap (fs.inode ip).inum bn ≠ none

/-- How far a read has come: all it has `seen` was mapped and nothing but times has changed, or it has taken blocks. -/
def ReadTo (ip : Nat) (fs : FS) (seen : Prop) (after : FS) : Prop := seen ∧ OnlyTimes ip fs after ∨ ¬ seen ∧ TakesMore ip fs after

/-- When all blocks are mapped a read that stops has changed nothing but times. -/
abbrev ReadEnds (ip : Nat) (fs : FS) (all : Prop) (_ : Exit) (after : FS) : Prop := all → OnlyTimes ip fs after

section
variable {seen all : Prop}

theorem ReadTo.congr {seen' : Prop} (reached : ReadTo ip fs seen after) (same : seen ↔ seen') : ReadTo ip fs seen' after := by
  rwa [ReadTo, ← same]

/-- A routine that looks up no block. -/
theorem ReadTo.keeps {program : M α} (implied : all → seen) (times : Times ip fs program)
    (guards : Guards ip (More (allocatedBlocks fs.history).length) (fun _ => True) program) :
    Preserves (ReadTo ip fs seen) (ReadEnds ip fs all) program := by
  rintro middle (⟨isSeen, only⟩ | ⟨unseen, more⟩)
  · exact (times middle only).mono (fun _ _ only => .inl ⟨isSeen, only⟩) fun _ _ only _ => only
  · exact (guards middle more).mono (fun _ _ more => .inr ⟨unseen, more⟩) fun _ _ _ isAll => absurd (implied isAll) unseen

theorem ReadTo.readBlock {bn offset count : Nat} (volume : fs.Volume origin) (loaded : fs.Loaded ip)
    (implied : all → seen ∧ fs.blockMap (fs.inode ip).inum bn ≠ none) (reached : ReadTo ip fs seen middle) :
    Ensures (readBlock ip bn offset count) middle (fun _ => ReadTo ip fs (seen ∧ fs.blockMap (fs.inode ip).inum bn ≠ none)) (ReadEnds ip fs all) := by
  rw [ne_eq, blockMap_eq_none] at implied ⊢
  obtain ⟨isSeen, only⟩ | ⟨unseen, more⟩ := reached
  · unfold FS.readBlock loggedRead
    have same : middle.held (middle.inode ip).inum (pathOf bn) = fs.held (fs.inode ip).inum (pathOf bn) := by
      rw [only.held volume loaded, only.inum]
    refine Ensures.bind ((imap2blockno_finds (only.table volume.table) (only.loaded.mpr loaded)).mono (fun _ _ found => found) ?_) ?_
    · rintro _ after (rfl | missing) isAll
      · exact only
      · exact absurd (same ▸ missing) (implied isAll).2
    · rintro _ after found
      rw [ensures_bind, ensures_bind, ensures_get, ensures_pure, ensures_pure]
      obtain ⟨present, rfl⟩ | ⟨missing, isValid, more⟩ := found
      · exact .inl ⟨⟨isSeen, same ▸ present⟩, only⟩
      · rw [only.taken] at more
        exact .inr ⟨fun both => both.2 (same ▸ missing), isValid, more⟩
  · have guards : Guards ip (More (allocatedBlocks fs.history).length) (fun _ => True) (FS.readBlock ip bn offset count) :=
      (More.lasting _).readBlock (fun _ _ => trivial) trivial (.inr trivial) _ _
    exact (guards middle more).mono (fun _ _ more => .inr ⟨fun both => unseen both.1, more⟩) fun _ _ _ isAll => absurd (implied isAll).1 unseen

theorem ReadTo.restarts (loaded : fs.Loaded ip) (implied : all → seen) (nwrote : Nat) :
    Preserves (ReadTo ip fs seen) (ReadEnds ip fs all) (restartOpOn ip nwrote) :=
  ReadTo.keeps implied (restartOpOn_times loaded.2 nwrote) ((More.lasting _).restartOpOn (fun _ _ => trivial) nwrote)

theorem ReadTo.readBlocks (volume : fs.Volume origin) (loaded : fs.Loaded ip) {nbytes bn : Nat}
    (implied : all → seen ∧ ∀ bn', bn ≤ bn' → bn' * BSIZE < bn * BSIZE + nbytes → fs.blockMap (fs.inode ip).inum bn' ≠ none)
    (reached : ReadTo ip fs seen middle) : Ensures (readBlocks ip nbytes bn) middle
      (fun _ => ReadTo ip fs (seen ∧ ∀ bn', bn ≤ bn' → bn' * BSIZE < bn * BSIZE + nbytes → fs.blockMap (fs.inode ip).inum bn' ≠ none))
      (ReadEnds ip fs all) := by
  fun_induction FS.readBlocks ip nbytes bn generalizing middle seen with
  | case1 nbytes bn more ih =>
    have rest : (bn + 1) * BSIZE + (nbytes - BSIZE) = bn * BSIZE + nbytes := by
      rw [Nat.add_mul, Nat.one_mul, Nat.add_assoc, Nat.add_sub_cancel' (Nat.le_of_lt more)]
    have split : ∀ {seen : Prop}, ((seen ∧ fs.blockMap (fs.inode ip).inum bn ≠ none) ∧
        ∀ bn', bn + 1 ≤ bn' → bn' * BSIZE < (bn + 1) * BSIZE + (nbytes - BSIZE) → fs.blockMap (fs.inode ip).inum bn' ≠ none) ↔
          seen ∧ ∀ bn', bn ≤ bn' → bn' * BSIZE < bn * BSIZE + nbytes → fs.blockMap (fs.inode ip).inum bn' ≠ none := by
      intro seen
      rw [rest, and_assoc]
      refine and_congr_right fun _ => ⟨fun both bn' low high => ?_, fun each => ⟨each bn (Nat.le_refl _) (by omega), fun bn' low => each bn' (by omega)⟩⟩
      rcases Nat.eq_or_lt_of_le low with rfl | later
      · exact both.1
      · exact both.2 bn' later high
    refine Ensures.bind (ReadTo.restarts loaded (fun isAll => (implied isAll).1) _ middle reached) fun _ ready reached => ?_
    refine Ensures.bind (reached.readBlock volume loaded fun isAll => (split.mpr (implied isAll)).1) fun head read reached => ?_
    refine Ensures.bind (ih (fun isAll => split.mpr (implied isAll)) reached) fun rest after reached => ?_
    exact (ensures_pure _).mpr (reached.congr split)
  | case2 nbytes bn more some =>
    refine Ensures.bind (ReadTo.restarts loaded (fun isAll => (implied isAll).1) _ middle reached) fun _ ready reached => ?_
    have one : (fs.blockMap (fs.inode ip).inum bn ≠ none) ↔
        ∀ bn', bn ≤ bn' → bn' * BSIZE < bn * BSIZE + nbytes → fs.blockMap (fs.inode ip).inum bn' ≠ none := by
      refine ⟨fun mapped bn' low high => ?_, fun each => each bn (Nat.le_refl _) (by omega)⟩
      have same : bn' = bn := by
        simp only [BSIZE] at more high
        omega
      rwa [same]
    refine (reached.readBlock volume loaded fun isAll => ?_).weaken fun _ _ reached => reached.congr (and_congr_right fun _ => one)
    exact ⟨(implied isAll).1, one.mpr (implied isAll).2⟩
  | case3 nbytes bn more none =>
    rw [not_not] at none
    refine (ensures_pure _).mpr (reached.congr (iff_self_and.mpr fun _ bn' low high => ?_))
    have := Nat.mul_le_mul_right BSIZE low
    omega

end

theorem inodeReadNbytesLocked_reads (volume : fs.Volume origin) (loaded : fs.Loaded ip) (nbytes off : Nat) :
    Ensures (inodeReadNbytesLocked ip nbytes off) fs (fun _ => ReadTo ip fs (fs.ReadsMapped ip nbytes off))
      (ReadEnds ip fs (fs.ReadsMapped ip nbytes off)) := by
  have low : off % BSIZE < BSIZE := Nat.mod_lt _ (by decide)
  have next : (off / BSIZE + 1) * BSIZE = off + (BSIZE - off % BSIZE) := by simp only [BSIZE]; omega
  have untouched : ReadTo ip fs True fs := .inl ⟨trivial, .refl ip fs⟩
  have stamps : ∀ now, Times ip fs (modifyCopy ip fun copy => { copy with st_atimespec := now }) := fun now =>
    modifyInode_times fun inode => ⟨inode.locked, now, inode.copy.st_ctimespec, rfl⟩
  have stampsMore : ∀ now, Guards ip (More (allocatedBlocks fs.history).length) (fun _ => True)
      (modifyCopy ip fun copy => { copy with st_atimespec := now }) := fun now =>
    (More.lasting _).modifies fun copy => ⟨now, copy.st_mtimespec, copy.st_ctimespec, rfl⟩
  unfold inodeReadNbytesLocked
  rw [ensures_bind, ensures_get]
  dsimp only
  split
  next past =>
    refine (ensures_pure _).mpr (.inl ⟨fun bn visits => ?_, .refl ip fs⟩)
    exact absurd visits.1 (Nat.not_le.mpr past)
  next inside =>
    rw [show (if sizeT (off + nbytes) > (fs.inode ip).copy.size then
      sizeT (nbytes + 2 ^ 64 - (sizeT (off + nbytes) - (fs.inode ip).copy.size)) else nbytes) =
        served (fs.inode ip).copy.size nbytes off from rfl]
    have visits : fs.ReadsMapped ip nbytes off ↔ (True ∧ fs.blockMap (fs.inode ip).inum (off / BSIZE) ≠ none) ∧
        ∀ bn, off / BSIZE + 1 ≤ bn → bn * BSIZE < off + served (fs.inode ip).copy.size nbytes off → fs.blockMap (fs.inode ip).inum bn ≠ none := by
      rw [true_and]
      refine ⟨fun each => ⟨each _ ⟨Nat.not_lt.mp inside, .inl rfl⟩, fun bn above within => each bn ⟨Nat.not_lt.mp inside, .inr ⟨above, within⟩⟩⟩, ?_⟩
      rintro ⟨first, rest⟩ bn ⟨-, rfl | ⟨above, within⟩⟩
      · exact first
      · exact rest bn above within
    generalize fs.ReadsMapped ip nbytes off = all at visits ⊢
    generalize served (fs.inode ip).copy.size nbytes off = count at visits ⊢
    refine Ensures.bind (untouched.readBlock volume loaded fun isAll => (visits.mp isAll).1) fun head read reached => ?_
    split
    next short =>
      have whole : all ↔ True ∧ fs.blockMap (fs.inode ip).inum (off / BSIZE) ≠ none := by
        rw [visits]
        refine and_iff_left fun bn above within => ?_
        have above := Nat.mul_le_mul_right BSIZE above
        rw [next] at above
        omega
      refine (Preserves.bind (ReadTo.keeps (id : all → all) getCurrentTimespec_times (getCurrentTimespec_calm.guards _ fun _ _ => trivial)) fun now =>
        .bind (ReadTo.keeps (fun isAll => isAll) (stamps now) (stampsMore now)) fun _ =>
          .bind (ReadTo.keeps (fun isAll => isAll) iupdate_times ((More.lasting _).iupdate fun _ _ => trivial)) fun _ => .pure _) read (reached.congr whole.symm)
    next long =>
      have after : (off / BSIZE + 1) * BSIZE + (count - (BSIZE - off % BSIZE)) = off + count := by
        rw [next, Nat.add_assoc, Nat.add_sub_cancel' (Nat.le_of_lt (Nat.not_le.mp long))]
      rw [← after] at visits
      refine Ensures.bind (reached.readBlocks volume loaded visits.mp) fun rest done reached => ?_
      refine (Preserves.bind (ReadTo.keeps (id : all → all) iupdate_times ((More.lasting _).iupdate fun _ _ => trivial)) fun _ =>
        .bind (ReadTo.keeps (fun isAll => isAll) getCurrentTimespec_times (getCurrentTimespec_calm.guards _ fun _ _ => trivial)) fun now =>
          .bind (ReadTo.keeps (fun isAll => isAll) (stamps now) (stampsMore now)) fun _ => .pure _) done (reached.congr visits.symm)

/-- A read that returns has changed nothing but the times of its inode if and only if every block it looks up
is mapped; then one that stops has changed nothing else either. -/
theorem read_changes_nothing_iff {nbytes off : Nat} (ready : fs.Ready) (loaded : fs.Loaded ip) :
    (∀ data after, inodeReadNbytesLocked ip nbytes off fs = (.ok data, after) → (FilesKept ip fs after ↔ fs.ReadsMapped ip nbytes off)) ∧
      (fs.ReadsMapped ip nbytes off → ∀ reason after, inodeReadNbytesLocked ip nbytes off fs = (.error reason, after) → FilesKept ip fs after) := by
  have reads := inodeReadNbytesLocked_reads ready.volume loaded nbytes off
  refine ⟨fun data after returned => ⟨fun kept => ?_, fun mapped => ?_⟩, fun mapped reason after stopped => ?_⟩
  · obtain ⟨mapped, -⟩ | ⟨-, -, more⟩ := reads.returned returned
    · exact mapped
    · rw [kept.taken] at more
      exact absurd more (Nat.lt_irrefl _)
  · obtain ⟨-, only⟩ | ⟨missing, -⟩ := reads.returned returned
    · exact only.kept ready.volume loaded
    · exact absurd mapped missing
  · exact (reads.stopped stopped mapped).kept ready.volume loaded

/-- The byte a new file holds is read again. -/
theorem read_changes_nothing_one : ∃ fs after data, inodeReadNbytesLocked 0 1 0 fs = (.ok data, after) ∧ FilesKept 0 fs after := by
  have computed : valueOf (do
      beginOp
      ilock 0
      let _ ← inodeWriteNbytesLocked 0 [7] 0
      let fs : FS ← get
      let _ ← inodeReadNbytesLocked 0 1 0
      pure ((fs.inode 0).copy.size, (fs.blockMap 17 0).isSome)) freshFile = some (1, true) := by decide +kernel
  obtain ⟨start, ready, loaded, inOp, inum, rest⟩ := freshFile_wellFormed.opens ⟨by decide, by decide⟩ (returns_of_valueOf computed)
  obtain ⟨_, fs, wrote, rest⟩ := bind_returns rest
  rw [bind_ok get_apply] at rest
  obtain ⟨data, after, reads, last⟩ := bind_returns rest
  obtain ⟨size, mapped⟩ : (fs.inode 0).copy.size = 1 ∧ (fs.blockMap 17 0).isSome = true := by
    simpa using congrArg Prod.fst last
  obtain ⟨-, acted, -⟩ := (inodeWriteNbytesLocked_spec (ready.running loaded inOp) (fun roomy => roomy.elim) (by decide) (fun bounded => bounded.elim)
    (by decide)).returned wrote
  refine ⟨fs, after, data, reads, ((read_changes_nothing_iff acted.running.usable.ready acted.running.loaded).1 data after reads).mpr ?_⟩
  rintro bn ⟨-, first | ⟨above, within⟩⟩
  · rw [first, acted.keeps.inum, inum]
    exact Option.isSome_iff_ne_none.mp mapped
  · rw [size, served_eq (by decide) (by decide)] at within
    simp only [BSIZE] at above within
    omega

/-- A read at the end of a new file, which is empty, takes a block for it. -/
theorem empty_read_takes : ∃ fs after data, fs.Ready ∧ fs.Loaded 0 ∧ 1 ≤ fs.log.outstanding ∧ inodeReadNbytesLocked 0 1 0 fs = (.ok data, after) ∧
    fs.blockMap 17 0 = none ∧ after.blockMap 17 0 ≠ none ∧ ¬ FilesKept 0 fs after := by
  have computed : valueOf (do
      beginOp
      ilock 0
      let fs : FS ← get
      let _ ← inodeReadNbytesLocked 0 1 0
      let after : FS ← get
      pure ((fs.blockMap 17 0).isSome, (after.blockMap 17 0).isSome)) freshFile = some (false, true) := by decide +kernel
  obtain ⟨fs, ready, loaded, inOp, -, rest⟩ := freshFile_wellFormed.opens ⟨by decide, by decide⟩ (returns_of_valueOf computed)
  rw [bind_ok get_apply] at rest
  obtain ⟨data, after, reads, last⟩ := bind_returns rest
  rw [bind_ok get_apply] at last
  obtain ⟨missing, mapped⟩ : fs.blockMap 17 0 = none ∧ (after.blockMap 17 0).isSome = true := by
    simpa using congrArg Prod.fst last
  have mapped := Option.isSome_iff_ne_none.mp mapped
  refine ⟨fs, after, data, ready, loaded, inOp, reads, missing, mapped, fun kept => mapped ?_⟩
  rw [blockMap_eq_none] at missing ⊢
  rw [kept.blocks, missing]

end FS
end Myfuse
