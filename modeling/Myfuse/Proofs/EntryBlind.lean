import Myfuse.Directory
import Myfuse.Proofs.AllocatorBlind

/-! Two runs from states whose inode tables differ: what looks at no entry, and what
looks at one loaded entry only, goes the same way in both. -/

namespace Myfuse
open Library Library.Exec

namespace FS
variable {α β : Type} {fs fs' : FS} {ip : Nat}

/-- Only the tables differ, which are those of the start, and no commit is going on. -/
def Tables (start start' fs fs' : FS) : Prop :=
  fs.inode = start.inode ∧ fs.ninode = start.ninode ∧ fs.log.committing = false ∧ fs' = { fs with inode := start'.inode }

/-- The program does not look at the inode table. -/
abbrev TableBlind (program : M α) : Prop := ∀ start start', Blind (Tables start start') (Tables start start') program

/-! Functions that do not look at the table. -/

theorem tables_outside (start start' : FS) : OutsideAllocator (Tables start start') where
  sb := by rintro fs _ ⟨-, -, -, rest⟩; rw [rest]
  bmap := by rintro fs _ ⟨-, -, -, rest⟩; rw [rest]
  log := by rintro fs _ ⟨-, -, -, rest⟩; rw [rest]
  setBmap := by rintro fs _ bmap ⟨same, size, calm, rfl⟩; exact ⟨same, size, calm, rfl⟩
  noted := by rintro fs _ event ⟨same, size, calm, rfl⟩; exact ⟨same, size, calm, rfl⟩
  absorbed := by rintro fs _ blockno ⟨same, size, calm, rfl⟩; exact ⟨same, size, (Fslog.absorb_committing _ _).trans calm, rfl⟩
  written := by rintro fs _ blockno change ⟨same, size, calm, rfl⟩; exact ⟨same, size, calm, rfl⟩

theorem blockAlloc_tables : TableBlind blockAlloc := fun start start' => blockAlloc_blind (tables_outside start start')

theorem blockFree_tables (blockno : Nat) : TableBlind (blockFree blockno) := fun start start' => blockFree_blind (tables_outside start start') blockno

theorem loggedUpdate_tables (blockno : Nat) (change : Block → Block) : TableBlind (loggedUpdate blockno change) :=
  fun start start' => loggedUpdate_blind (tables_outside start start') blockno change

theorem note_tables (event : Event) : TableBlind (note event) := fun start start' => note_blind (tables_outside start start') event

namespace TableBlind

theorem stop (reason : Exit) : TableBlind (stop reason : M α) := fun _ _ => .stop reason fun _ _ same => same

theorem pure (value : α) : TableBlind (pure value : M α) := fun _ _ => .pure value

theorem bind {first : M α} {next : α → M β} (head : TableBlind first) (tail : ∀ value, TableBlind (next value)) : TableBlind (first >>= next) :=
  fun start start' => .bind (head start start') fun value => tail value start start'

theorem ite {condition : Prop} [Decidable condition] {first second : M α} (yes : TableBlind first) (no : TableBlind second) :
    TableBlind (if condition then first else second) := fun start start' => .ite (yes start start') (no start start')

theorem forRange {body : Nat → M Unit} (each : ∀ i, TableBlind (body i)) (lo count : Nat) : TableBlind (forRange lo count body) :=
  fun start start' => .forRange (fun i => each i start start') lo count

/-- A read whose continuation does not mention the table. -/
theorem read {next : FS → M α} (same : ∀ fs inode', next { fs with inode := inode' } = next fs) (rest : ∀ fs, TableBlind (next fs)) :
    TableBlind (Exec.get >>= next) := by
  refine fun start start' => .read ?_ fun fs => rest fs start start'
  rintro fs _ ⟨-, -, -, rfl⟩
  exact same fs start'.inode

theorem modify {change : FS → FS} (calm : ∀ fs, fs.log.committing = false → (change fs).log.committing = false)
    (same : ∀ fs, (change fs).inode = fs.inode ∧ (change fs).ninode = fs.ninode)
    (rest : ∀ fs inode', change { fs with inode := inode' } = { change fs with inode := inode' }) :
    TableBlind (Exec.modify change : M Unit) := by
  refine fun start start' => .modify ?_
  rintro fs _ ⟨here, size, quiet, rfl⟩
  exact ⟨(same fs).1.trans here, (same fs).2.trans size, calm fs quiet, rest fs start'.inode⟩

end TableBlind

theorem commit_tables : TableBlind commit := by
  refine .bind (.modify (fun _ calm => calm) (fun _ => ⟨rfl, rfl⟩) fun _ _ => rfl) fun _ => ?_
  exact .read (fun _ _ => rfl) fun _ => note_tables _

theorem endOp_tables : TableBlind endOp := by
  refine .bind (.modify (fun _ calm => calm) (fun _ => ⟨rfl, rfl⟩) fun _ _ => rfl) fun _ => .read (fun _ _ => rfl) fun fs => ?_
  exact .ite (.stop _) (.bind (note_tables _) fun _ => .ite commit_tables (.pure _))

theorem beginOp_tables : TableBlind beginOp := by
  refine .read (fun _ _ => rfl) fun fs => .ite (.bind ?_ fun _ => note_tables _) (.stop _)
  exact .modify (fun _ calm => calm) (fun _ => ⟨rfl, rfl⟩) fun _ _ => rfl

theorem loggedRead_tables (blockno : Nat) : TableBlind (loggedRead blockno) := .read (fun _ _ => rfl) fun _ => .pure _

theorem getCurrentTimespec_tables : TableBlind getCurrentTimespec :=
  .read (fun _ _ => rfl) fun _ => .bind (.modify (fun _ calm => calm) (fun _ => ⟨rfl, rfl⟩) fun _ _ => rfl) fun _ => .pure _

theorem assert_tables (condition : Prop) [Decidable condition] : TableBlind (assert condition) := .ite (.pure _) (.stop _)

theorem indexFindOrAlloc_tables (blockno index : Nat) : TableBlind (indexFindOrAlloc blockno index) := by
  refine .bind (loggedRead_tables blockno) fun bp => .ite (.bind blockAlloc_tables fun addr => ?_) (.pure _)
  exact .bind (loggedUpdate_tables _ _) fun _ => .pure _

theorem assertNoNeedToRestart_tables : TableBlind assertNoNeedToRestartOpInImap2blockno :=
  .read (fun _ _ => rfl) fun _ => .ite (.stop _) (.pure _)

theorem freeEntries_tables : ∀ level blockno, TableBlind (freeEntries level blockno)
  | 0, blockno => .bind (loggedRead_tables blockno) fun _ => .forRange (fun _ => .ite (blockFree_tables _) (.pure _)) _ _
  | level + 1, blockno => .bind (loggedRead_tables blockno) fun _ =>
    .forRange (fun _ => .ite (.bind (freeEntries_tables level _) fun _ => blockFree_tables _) (.pure _)) _ _

/-! Routines on one loaded entry. -/

/-- The states differ in nothing that the routines on the loaded entry `ip` look at. -/
structure OutsideEntry (ip : Nat) (related failed : FS → FS → Prop) : Prop where
  fails : ∀ {fs fs'}, related fs fs' → failed fs fs'
  rest : ∀ {fs fs'}, related fs fs' → fs' = { fs with inode := fs'.inode }
  entry : ∀ {fs fs'}, related fs fs' → ∃ ref, fs'.inode ip = { fs.inode ip with ref } ∧ (ref < 1 ↔ (fs.inode ip).ref < 1)
  valid : ∀ {fs fs'}, related fs fs' → (fs.inode ip).valid = true
  blind : ∀ {α : Type} {program : M α}, TableBlind program → Blind related failed program
  change : ∀ {change : Inode → Inode}, (∀ inode ref, change { inode with ref } = { change inode with ref }) →
    (∀ inode, (change inode).valid = inode.valid) → Blind related failed (modifyInode ip change)

namespace OutsideEntry
variable {related failed : FS → FS → Prop} (outside : OutsideEntry ip related failed)
include outside

theorem stop (reason : Exit) : Blind related failed (stop reason : M α) := .stop reason fun _ _ => outside.fails

/-- A read for the entry, whatever its references. -/
theorem read {next : FS → M α}
    (same : ∀ (fs fs' : FS) ref, fs' = { fs with inode := fs'.inode } → fs'.inode ip = { fs.inode ip with ref } → next fs' = next fs)
    (rest : ∀ fs, Blind related failed (next fs)) : Blind related failed (Exec.get >>= next) := by
  refine .read (fun fs fs' holds => ?_) rest
  obtain ⟨ref, entry, -⟩ := outside.entry holds
  exact same fs fs' ref (outside.rest holds) entry

theorem modifyCopy (change : Dinode → Dinode) : Blind related failed (modifyCopy ip change) := outside.change (fun _ _ => rfl) fun _ => rfl

theorem iunlock : Blind related failed (iunlock ip) := outside.change (fun _ _ => rfl) fun _ => rfl

theorem iupdate : Blind related failed (iupdate ip) := by
  refine .bind (outside.blind getCurrentTimespec_tables) fun now => .bind (outside.modifyCopy _) fun _ => ?_
  refine outside.read (fun fs fs' ref rest same => ?_) fun fs => outside.blind (loggedUpdate_tables _ _)
  have layout : fs'.sb = fs.sb := by rw [rest]
  rw [same, layout]

/-- The entry is not read again. -/
theorem ilock : Blind related failed (ilock ip) := by
  intro fs fs' holds
  obtain ⟨ref, entry, lost⟩ := outside.entry holds
  have valid := outside.valid holds
  apply Alike.read
  rw [entry]
  refine .ite lost (fun _ => .stop (outside.fails holds)) fun _ => .ite Iff.rfl (fun _ => .stop (outside.fails holds)) fun _ => ?_
  rw [if_pos valid, if_pos valid]
  have locks : Blind related failed (modifyInode ip fun inode => { inode with locked := true }) := outside.change (fun _ _ => rfl) fun _ => rfl
  exact .bind (locks fs fs' holds) fun _ _ _ holds => .pure holds

theorem assert (condition : Prop) [Decidable condition] : Blind related failed (assert condition) := outside.blind (assert_tables condition)

theorem addrsFindOrAlloc (slot : Nat) : Blind related failed (addrsFindOrAlloc ip slot) := by
  refine outside.read (fun fs fs' ref _ same => by rw [same]) fun fs => .ite ?_ (.pure _)
  exact .bind (outside.blind blockAlloc_tables) fun addr => .bind (outside.modifyCopy _) fun _ => .pure _

theorem indexFindOrAlloc (blockno index : Nat) : Blind related failed (indexFindOrAlloc blockno index) :=
  outside.blind (indexFindOrAlloc_tables blockno index)

theorem imap2blockno (bn : Nat) : Blind related failed (imap2blockno ip bn) := by
  unfold FS.imap2blockno
  refine .bind (outside.blind assertNoNeedToRestart_tables) fun _ => ?_
  dsimp only
  split
  · exact outside.addrsFindOrAlloc bn
  split
  · exact .bind (outside.addrsFindOrAlloc NDIRECT) fun addr => outside.indexFindOrAlloc _ _
  split
  · refine .bind (outside.addrsFindOrAlloc (NDIRECT + 1)) fun addr => .bind (outside.assert _) fun _ => ?_
    exact .bind (outside.indexFindOrAlloc _ _) fun addr => outside.indexFindOrAlloc _ _
  split
  · refine .bind (outside.addrsFindOrAlloc (NDIRECT + 2)) fun addr => .bind (outside.assert _) fun _ => ?_
    refine .bind (outside.indexFindOrAlloc _ _) fun addr => .bind (outside.assert _) fun _ => ?_
    exact .bind (outside.indexFindOrAlloc _ _) fun addr => outside.indexFindOrAlloc _ _
  · exact outside.stop _

theorem freeTree (slot level : Nat) : Blind related failed (freeTree ip slot level) := by
  refine outside.read (fun fs fs' ref _ same => by rw [same]) fun fs => .ite ?_ (.pure _)
  exact .bind (outside.blind (freeEntries_tables level _)) fun _ => outside.blind (blockFree_tables _)

theorem itrunc : Blind related failed (itrunc ip) := by
  have direct (i : Nat) : Blind related failed (do
      let fs ← Exec.get
      let addr := (fs.inode ip).copy.addrs i
      if addr ≠ 0 then blockFree addr else pure ()) :=
    outside.read (fun fs fs' ref _ same => by rw [same]) fun fs => .ite (outside.blind (blockFree_tables _)) (.pure _)
  refine .bind (.forRange direct _ _) fun _ => .bind (outside.freeTree _ _) fun _ => ?_
  refine .bind (outside.freeTree _ _) fun _ => .bind (outside.freeTree _ _) fun _ => ?_
  exact .bind (outside.modifyCopy _) fun _ => outside.iupdate

theorem touch : Blind related failed (touch ip) := .bind (outside.blind getCurrentTimespec_tables) fun _ => outside.modifyCopy _

theorem writeBlock (bn offset : Nat) (data : List Byte) : Blind related failed (writeBlock ip bn offset data) :=
  .bind (outside.imap2blockno bn) fun _ => outside.blind (loggedUpdate_tables _ _)

theorem readBlock (bn offset count : Nat) : Blind related failed (readBlock ip bn offset count) :=
  .bind (outside.imap2blockno bn) fun _ => .bind (outside.blind (loggedRead_tables _)) fun _ => .pure _

theorem restartOpOn (nwrote : Nat) : Blind related failed (restartOpOn ip nwrote) := by
  refine outside.read (fun fs fs' ref rest _ => ?_) fun fs => .ite ?_ (.pure _)
  · have wrote : fs'.n_log_wrote = fs.n_log_wrote := by rw [rest]
    rw [wrote]
  · refine .bind outside.iupdate fun _ => .bind outside.iunlock fun _ => ?_
    exact .bind (outside.blind endOp_tables) fun _ => .bind (outside.blind beginOp_tables) fun _ => outside.ilock

theorem writeBlocks (data : List Byte) (bn : Nat) : Blind related failed (writeBlocks ip data bn) := by
  unfold FS.writeBlocks
  split
  next more =>
    refine .bind (outside.restartOpOn _) fun _ => .bind (outside.writeBlock _ _ _) fun _ => ?_
    exact writeBlocks (data.drop BSIZE) (bn + 1)
  next => exact .pure _
  termination_by data.length
  decreasing_by
    rename_i more
    simp only [BSIZE, List.length_drop] at more ⊢
    omega

theorem inodeWriteNbytesLocked (data : List Byte) (off : Nat) : Blind related failed (inodeWriteNbytesLocked ip data off) := by
  unfold FS.inodeWriteNbytesLocked
  apply Blind.ite (.pure _)
  dsimp only
  refine .bind (outside.modifyCopy _) fun _ => .bind outside.iupdate fun _ => ?_
  refine .bind (outside.restartOpOn _) fun _ => .bind (outside.writeBlock _ _ _) fun _ => ?_
  apply Blind.ite
  · exact .bind outside.touch fun _ => .bind outside.iupdate fun _ => .pure _
  refine .bind (outside.writeBlocks _ _) fun left => .bind (outside.restartOpOn _) fun _ => ?_
  split
  · refine .bind (outside.writeBlock _ _ _) fun _ => .bind outside.touch fun _ => ?_
    exact .bind outside.iupdate fun _ => .pure _
  · exact .bind outside.touch fun _ => .bind outside.iupdate fun _ => .pure _

theorem readBlocks (nbytes bn : Nat) : Blind related failed (readBlocks ip nbytes bn) := by
  unfold FS.readBlocks
  split
  next more =>
    refine .bind (outside.restartOpOn _) fun _ => .bind (outside.readBlock _ _ _) fun _ => ?_
    exact .bind (readBlocks (nbytes - BSIZE) (bn + 1)) fun _ => .pure _
  split
  · exact .bind (outside.restartOpOn _) fun _ => outside.readBlock _ _ _
  · exact .pure _
  termination_by nbytes
  decreasing_by
    rename_i more
    simp only [BSIZE] at more ⊢
    omega

theorem inodeReadNbytesLocked (nbytes off : Nat) : Blind related failed (inodeReadNbytesLocked ip nbytes off) := by
  unfold FS.inodeReadNbytesLocked
  refine outside.read (fun fs fs' ref _ same => by rw [same]) fun fs => ?_
  dsimp only
  refine .ite (.pure _) (.bind (outside.readBlock _ _ _) fun head => .ite ?_ ?_)
  · refine .bind (outside.blind getCurrentTimespec_tables) fun _ => .bind (outside.modifyCopy _) fun _ => ?_
    exact .bind outside.iupdate fun _ => .pure _
  · refine .bind (outside.readBlocks _ _) fun rest => .bind outside.iupdate fun _ => ?_
    exact .bind (outside.blind getCurrentTimespec_tables) fun _ => .bind (outside.modifyCopy _) fun _ => .pure _

theorem restartHelper : Blind related failed (itrunc2sizeLogOpRestartHelper ip) := by
  refine outside.read (fun fs fs' ref rest same => ?_) fun fs => .ite ?_ (.pure _)
  · have wrote : fs'.n_log_wrote = fs.n_log_wrote := by rw [rest]
    have dinodes : fs'.dinode = fs.dinode := by rw [rest]; rfl
    rw [wrote, same, dinodes]
  · exact .bind (outside.blind (note_tables _)) fun _ => .bind (outside.blind endOp_tables) fun _ => outside.blind beginOp_tables

theorem addrsFreeSafe (slot : Nat) : Blind related failed (addrsFreeSafe ip slot) := by
  refine outside.read (fun fs fs' ref _ same => by rw [same]) fun fs => .ite ?_ (.pure _)
  exact .bind outside.restartHelper fun _ => .bind (outside.blind (blockFree_tables _)) fun _ => outside.modifyCopy _

theorem indexFreeSafe (blockno index : Nat) : Blind related failed (indexFreeSafe ip blockno index) := by
  refine .bind (outside.blind (loggedRead_tables _)) fun bp => .ite ?_ (.pure _)
  exact .bind outside.restartHelper fun _ => .bind (outside.blind (blockFree_tables _)) fun _ => outside.blind (loggedUpdate_tables _ _)

theorem indexFollow (blockno index : Nat) {rest : Nat → M Unit} (follows : ∀ addr, Blind related failed (rest addr)) :
    Blind related failed (indexFollow blockno index rest) :=
  .bind (outside.blind (loggedRead_tables _)) fun _ => .ite (.pure _) (follows _)

theorem imap2blocknoFree (bn : Nat) : Blind related failed (imap2blocknoFree ip bn) := by
  unfold FS.imap2blocknoFree
  refine .bind (outside.blind assertNoNeedToRestart_tables) fun _ => ?_
  dsimp only
  split
  · exact outside.addrsFreeSafe bn
  refine outside.read (fun fs fs' ref _ same => by rw [same]) fun fs => ?_
  split
  · exact .ite (.pure _) (outside.indexFreeSafe _ _)
  split
  · refine .bind (outside.addrsFindOrAlloc _) fun addr => .bind (outside.assert _) fun _ => ?_
    exact outside.indexFollow _ _ fun addr => outside.indexFreeSafe _ _
  split
  · refine .ite (.pure _) (.bind (outside.assert _) fun _ => outside.indexFollow _ _ fun addr => ?_)
    exact .bind (outside.assert _) fun _ => outside.indexFollow _ _ fun addr => outside.indexFreeSafe _ _
  · exact outside.stop _

theorem itrunc2size (size : Nat) : Blind related failed (itrunc2size ip size) := by
  have finish : Blind related failed (do FS.modifyCopy ip fun copy => { copy with size }; FS.iupdate ip) :=
    .bind (outside.modifyCopy _) fun _ => outside.iupdate
  have resize : Blind related failed (do
      let fs ← Exec.get
      let target_blockno := blocksOf size
      let origin_blockno := blocksOf (fs.inode ip).copy.size
      if target_blockno ≥ origin_blockno then do
        Exec.forRange (origin_blockno % 2 ^ 32) (target_blockno - origin_blockno % 2 ^ 32) fun i => do
          itrunc2sizeLogOpRestartHelper ip
          let _ ← FS.imap2blockno ip i
        FS.modifyCopy ip fun copy => { copy with size }
        FS.iupdate ip
      else do
        Exec.forRange (target_blockno % 2 ^ 32) (origin_blockno - target_blockno % 2 ^ 32) fun i => do
          itrunc2sizeLogOpRestartHelper ip
          FS.imap2blocknoFree ip i
        FS.modifyCopy ip fun copy => { copy with size }
        FS.iupdate ip) := by
    refine outside.read (fun fs fs' ref _ same => by rw [same]) fun fs => .ite ?_ ?_
    · refine .bind (.forRange (fun i => ?_) _ _) fun _ => finish
      exact .bind outside.restartHelper fun _ => .bind (outside.imap2blockno i) fun _ => .pure _
    · refine .bind (.forRange (fun i => ?_) _ _) fun _ => finish
      exact .bind outside.restartHelper fun _ => outside.imap2blocknoFree i
  unfold FS.itrunc2size
  refine outside.read (fun fs fs' ref _ same => by rw [same]) fun fs => .ite finish ?_
  dsimp only
  split
  · exact .bind outside.itrunc fun _ => resize
  · exact resize

theorem dirlinkOffset : Blind related failed (dirlinkOffset ip) := by
  refine outside.read (fun fs fs' ref _ same => by rw [same]) fun fs => ?_
  dsimp only
  refine .ite (.bind (outside.inodeReadNbytesLocked _ _) fun data => .ite (outside.stop _) ?_) (.pure _)
  cases emptyDirent data (direntCount (fs.inode ip).copy.size) 0 0 with
  | none => exact outside.stop _
  | some place => exact .ite (outside.stop _) (.pure _)

end OutsideEntry

end FS
end Myfuse
