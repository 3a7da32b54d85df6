import Myfuse.Proofs.Shrink

/-! The largest file: which requests stay below `MAXFILE_BLOCKS`, and that the
others end the process. -/

namespace Myfuse
open Library Library.Exec

namespace FS
variable {α : Type} {fs : FS} {ip : Nat} {ok : Exit → Prop}

/-- A loaded inode no larger than the largest file. -/
def Limited (inode : Inode) (_ : List Nat) : Prop := inode.valid = true ∧ inode.copy.size ≤ MAXFILE_SIZE

theorem limited_lasting : Lasting Limited := ⟨fun _ _ => And.left, fun _ _ _ => id, fun _ _ _ _ _ => id, fun _ _ _ _ => id, fun _ _ _ => id⟩

/-- The exits of the block map past the limit. -/
def TooBig (reason : Exit) : Prop := reason = .errExit .inodeTooBig ∨ reason = .errExit .inodeTooBigFree

instance (reason : Exit) : Decidable (TooBig reason) := inferInstanceAs (Decidable (_ ∨ _))

/-- An exit below the limit of a file, and not one of the layers above. -/
def Inner (reason : Exit) : Prop := ¬ TooBig reason ∧ reason.isUpper = false

instance (reason : Exit) : Decidable (Inner reason) := inferInstanceAs (Decidable (_ ∧ _))

theorem noFreeSpace_inner : Inner (.errExit .noFreeSpace) := by decide

theorem offMap_inner (reason : Exit) (off : OffMap reason) : Inner reason :=
  ⟨fun big => big.elim off.2.2.1 off.2.2.2.1, off.2.2.2.2⟩

/-! Requests below the limit. -/

/-- The size is kept below the limit and no block past it is asked for. -/
abbrev StaysBelow (ip : Nat) (program : M α) : Prop := Guards ip Limited Inner program

/-- What the loop leaves is laid after what it wrote. -/
theorem writeBlocks_below {data : List Byte} {bn : Nat} (fits : bn * BSIZE + data.length ≤ MAXFILE_SIZE) (limited : OnEntry ip Limited fs) :
    Ensures (writeBlocks ip data bn) fs
      (fun rest after => OnEntry ip Limited after ∧ rest.2 * BSIZE + rest.1.length = bn * BSIZE + data.length)
      fun reason after => OnEntry ip Limited after ∧ Inner reason := by
  fun_induction writeBlocks ip data bn generalizing fs with
  | case1 data bn more ih =>
    have first : bn * BSIZE < MAXFILE_SIZE := Nat.lt_of_lt_of_le (Nat.lt_add_of_pos_right (Nat.zero_lt_of_lt more)) fits
    have next : (bn + 1) * BSIZE + (data.drop BSIZE).length = bn * BSIZE + data.length := by
      rw [List.length_drop, Nat.add_mul, Nat.one_mul, Nat.add_assoc, Nat.add_sub_cancel' (Nat.le_of_lt more)]
    refine Ensures.bind (limited_lasting.restartOpOn offMap_inner _ fs limited) fun _ ready limited => ?_
    refine Ensures.bind (limited_lasting.writeBlock offMap_inner noFreeSpace_inner (.inl (block_below first)) _ _ ready limited) fun _ wrote limited => ?_
    exact (ih (next.trans_le fits) limited).weaken fun rest after both => ⟨both.1, both.2.trans next⟩
  | case2 data bn short => exact (ensures_pure _).mpr ⟨limited, rfl⟩

theorem finish_below (ip count : Nat) : StaysBelow ip (do touch ip; iupdate ip; pure count) :=
  .bind (.bind (getCurrentTimespec_calm.guards _ offMap_inner) fun now => limited_lasting.modifies fun copy => ⟨now, now, copy.st_ctimespec, rfl⟩) fun _ =>
    .bind (limited_lasting.iupdate offMap_inner) fun _ => .pure _

theorem inodeWriteNbytesLocked_below {data : List Byte} {off : Nat} (domain : off + data.length < 2 ^ 63) (within : off ≠ MAXFILE_SIZE) :
    StaysBelow ip (inodeWriteNbytesLocked ip data off) := by
  unfold inodeWriteNbytesLocked
  split
  next => exact .pure _
  next inside =>
    have limit : MAXFILE_SIZE < 2 ^ 62 := by decide
    generalize countIs : (if sizeT (off + data.length) > MAXFILE_SIZE then
      sizeT (data.length + 2 ^ 64 - (sizeT (off + data.length) - MAXFILE_SIZE)) else data.length) = count
    have fits : off + count ≤ MAXFILE_SIZE ∧ count ≤ data.length := by
      rw [← countIs, sizeT_of_lt (by omega)]
      split
      next beyond =>
        rw [sizeT]
        omega
      next => omega
    obtain ⟨fits, short⟩ := fits
    have wraps : sizeT (off + count) = off + count := sizeT_of_lt (by omega)
    have below : off < MAXFILE_SIZE := by omega
    have first : off / BSIZE < MAXFILE_BLOCKS := block_below (Nat.lt_of_le_of_lt (Nat.div_mul_le_self off BSIZE) below)
    simp only [wraps]
    refine .bind (modifyInode_guards fun inode allocated limited => ⟨limited.1, ?_⟩) fun _ => .bind (limited_lasting.iupdate offMap_inner) fun _ =>
      .bind (limited_lasting.restartOpOn offMap_inner _) fun _ => .bind (limited_lasting.writeBlock offMap_inner noFreeSpace_inner (.inl first) _ _) fun _ =>
        .ite (fun _ => finish_below ip count) fun long => fun current limited => ?_
    · dsimp only
      split
      · exact fits
      · exact limited.2
    · have next : (off / BSIZE + 1) * BSIZE + ((data.take count).drop (BSIZE - off % BSIZE)).length = off + count := by
        rw [List.length_drop, List.length_take, Nat.min_eq_left short]
        simp only [BSIZE] at long ⊢
        omega
      refine Ensures.bind (writeBlocks_below (next.trans_le fits) limited) ?_
      rintro ⟨rest, bn⟩ written ⟨limited, laid⟩
      dsimp only at laid ⊢
      refine Preserves.bind (limited_lasting.restartOpOn offMap_inner _) (fun _ => .ite (fun more => ?_) fun _ => finish_below ip count) written limited
      refine .bind (limited_lasting.writeBlock offMap_inner noFreeSpace_inner (.inl (block_below ?_)) _ _) fun _ => finish_below ip count
      exact Nat.lt_of_lt_of_le (Nat.lt_add_of_pos_right (Nat.pos_of_ne_zero more)) ((laid.trans next).trans_le fits)

theorem inodeReadNbytesLocked_below {nbytes off : Nat} (domain : off + nbytes < 2 ^ 63) (limited : OnEntry ip Limited fs)
    (within : off ≠ MAXFILE_SIZE ∨ (fs.inode ip).copy.size ≠ MAXFILE_SIZE) :
    Ensures (inodeReadNbytesLocked ip nbytes off) fs (fun _ => OnEntry ip Limited) fun reason after => OnEntry ip Limited after ∧ Inner reason := by
  have stamps : ∀ now, StaysBelow ip (modifyCopy ip fun copy => { copy with st_atimespec := now }) := fun now =>
    limited_lasting.modifies fun copy => ⟨now, copy.st_mtimespec, copy.st_ctimespec, rfl⟩
  have size := limited.2
  unfold inodeReadNbytesLocked
  rw [ensures_bind, ensures_get]
  dsimp only
  split
  next => exact (ensures_pure _).mpr limited
  next inside =>
    rw [show (if sizeT (off + nbytes) > (fs.inode ip).copy.size then
      sizeT (nbytes + 2 ^ 64 - (sizeT (off + nbytes) - (fs.inode ip).copy.size)) else nbytes) =
        served (fs.inode ip).copy.size nbytes off from rfl, served_eq (Nat.not_lt.mp inside) (by omega)]
    have below : off < MAXFILE_SIZE := by omega
    have fits : off + min nbytes ((fs.inode ip).copy.size - off) ≤ MAXFILE_SIZE := by omega
    generalize min nbytes ((fs.inode ip).copy.size - off) = count at fits
    have first : off / BSIZE < MAXFILE_BLOCKS := block_below (Nat.lt_of_le_of_lt (Nat.div_mul_le_self off BSIZE) below)
    refine (Preserves.bind (limited_lasting.readBlock offMap_inner noFreeSpace_inner (.inl first) _ _) fun head => .ite (fun _ => ?_) fun long => ?_) fs limited
    · exact .bind (getCurrentTimespec_calm.guards _ offMap_inner) fun now => .bind (stamps now) fun _ =>
        .bind (limited_lasting.iupdate offMap_inner) fun _ => .pure _
    · have next : (off / BSIZE + 1) * BSIZE + (count - (BSIZE - off % BSIZE)) = off + count := by
        simp only [BSIZE] at long ⊢
        omega
      refine .bind (limited_lasting.readBlocks offMap_inner noFreeSpace_inner fun bn above high => .inl (block_below ?_)) fun _ =>
        .bind (limited_lasting.iupdate offMap_inner) fun _ => .bind (getCurrentTimespec_calm.guards _ offMap_inner) fun now => .bind (stamps now) fun _ => .pure _
      exact Nat.lt_of_lt_of_le high (next.trans_le fits)

/-- The body of the loop that grows a file. -/
def growBlock (ip bn : Nat) : M Unit := do
  itrunc2sizeLogOpRestartHelper ip
  let _ ← imap2blockno ip bn
  pure ()

/-- What `itrunc2size` runs after the file was emptied or kept. -/
def resizeBlocks (ip size : Nat) : M Unit := do
  let fs ← get
  if blocksOf size ≥ blocksOf (fs.inode ip).copy.size then do
    forRange (blocksOf (fs.inode ip).copy.size % 2 ^ 32) (blocksOf size - blocksOf (fs.inode ip).copy.size % 2 ^ 32) (growBlock ip)
    setSize ip size
  else do
    forRange (blocksOf size % 2 ^ 32) (blocksOf (fs.inode ip).copy.size - blocksOf size % 2 ^ 32) (shrinkBlock ip)
    setSize ip size

theorem itrunc2size_eq (ip size : Nat) : itrunc2size ip size = (do
    let fs ← get
    if size = (fs.inode ip).copy.size then setSize ip size
    else if size = 0 then do
      itrunc ip
      resizeBlocks ip size
    else resizeBlocks ip size) := rfl

theorem itrunc2size_below {size : Nat} (within : size ≤ MAXFILE_SIZE) : StaysBelow ip (itrunc2size ip size) := by
  have stamps : ∀ inode allocated now, Limited inode allocated → Limited { inode with copy := { inode.copy with st_ctimespec := now } } allocated :=
    fun _ _ _ => id
  have finish : StaysBelow ip (setSize ip size) := setSize_guards offMap_inner (fun _ _ limited => ⟨limited.1, within⟩) stamps
  have empties : StaysBelow ip (itrunc ip) := itrunc_guards offMap_inner (fun _ _ limited => ⟨limited.1, Nat.zero_le _⟩) stamps
  have target := blocksOf_le within
  have resizes : StaysBelow ip (resizeBlocks ip size) := by
    refine .get fun fs limited => ?_
    have origin := blocksOf_le limited.2
    rw [blocksOf_uint limited.2, blocksOf_uint within]
    refine (Preserves.ite (fun grows => ?_) fun shrinks => ?_) fs limited
    · refine .bind (.forRange fun bn _ high => .bind ((itrunc2sizeLogOpRestartHelper_calm ip).guards _ offMap_inner) fun _ => .bind ?_ fun _ => .pure _)
        fun _ => finish
      exact limited_lasting.imap2blockno offMap_inner noFreeSpace_inner (.inl (by omega))
    · refine .bind (.forRange fun bn _ high => shrinkBlock_guards offMap_inner (by omega) (fun _ _ _ _ => id) fun _ => ?_) fun _ => finish
      exact addrsFindOrAlloc_guards offMap_inner noFreeSpace_inner (fun _ _ _ => id) fun _ _ _ => id
  rw [itrunc2size_eq]
  exact .gets fun fs => .ite (fun _ => finish) fun _ => .ite (fun _ => .bind empties fun _ => resizes) fun _ => resizes

/-! Requests past the limit. -/

/-- The run does not return. -/
abbrev Ends (program : M α) (fs : FS) : Prop := Ensures program fs (fun _ _ => False) fun _ _ => True

theorem ends_after {β : Type} {program : M α} {next : α → M β} (rest : ∀ value after, Ends (next value) after) : Ends (program >>= next) fs :=
  Ensures.bind (ensures_true.mono (fun _ _ _ => trivial) fun _ _ _ => trivial) fun value after _ => rest value after

theorem imap2blockno_ends {bn : Nat} (large : MAXFILE_BLOCKS ≤ bn) (fs : FS) : Ends (imap2blockno ip bn) fs :=
  (imap2blockno_outside large).mono (fun _ _ => id) fun _ _ _ => trivial

theorem ends_first {β : Type} {program : M α} {next : α → M β} (ends : Ends program fs) : Ends (program >>= next) fs :=
  Ensures.bind ends fun _ _ => False.elim

/-- A loop that meets a round which does not return. -/
theorem forRange_ends {body : Nat → M Unit} {lo count : Nat} (bn : Nat) (ends : ∀ current, Ends (body bn) current) (low : lo ≤ bn) (high : bn < lo + count) :
    Ends (forRange lo count body) fs := by
  refine Ensures.weaken (Ensures.forRange (fun i _ => i ≤ bn) low fun i current _ _ before => ?_) fun _ _ (after : lo + count ≤ bn) => by omega
  rcases Nat.eq_or_lt_of_le before with rfl | earlier
  · exact (ends current).weaken fun _ _ => False.elim
  · exact ensures_true.mono (fun _ _ _ => earlier) fun _ _ _ => trivial

/-- The block of an offset at the limit. -/
theorem limit_block : MAXFILE_BLOCKS ≤ MAXFILE_SIZE / BSIZE := by decide

theorem inodeWriteNbytesLocked_ends (data : List Byte) (fs : FS) : Ends (inodeWriteNbytesLocked ip data MAXFILE_SIZE) fs := by
  unfold inodeWriteNbytesLocked
  rw [if_neg (Nat.lt_irrefl _)]
  exact ends_after fun _ _ => ends_after fun _ _ => ends_after fun _ _ => ends_first (ends_first (imap2blockno_ends limit_block _))

theorem inodeReadNbytesLocked_ends {nbytes : Nat} (full : (fs.inode ip).copy.size = MAXFILE_SIZE) :
    Ends (inodeReadNbytesLocked ip nbytes MAXFILE_SIZE) fs := by
  unfold inodeReadNbytesLocked
  refine ensures_bind.mpr (ensures_get.mpr ?_)
  dsimp only
  rw [if_neg (by rw [full]; exact Nat.lt_irrefl _)]
  exact ends_first (ends_first (imap2blockno_ends limit_block _))

theorem itrunc2size_ends {size : Nat} (domain : size < 2 ^ 63) (limit : (fs.inode ip).copy.size ≤ MAXFILE_SIZE) (past : MAXFILE_SIZE < size) :
    Ends (itrunc2size ip size) fs := by
  have origin := blocksOf_le limit
  have target : MAXFILE_BLOCKS < blocksOf size := by
    rw [blocksOf, sizeT_of_lt (by simp only [BSIZE]; omega)]
    have limitIs : MAXFILE_SIZE = MAXFILE_BLOCKS * BSIZE := rfl
    rw [limitIs] at past
    generalize MAXFILE_BLOCKS = blocks at *
    simp only [BSIZE] at past ⊢
    omega
  rw [itrunc2size_eq]
  refine ensures_bind.mpr (ensures_get.mpr ?_)
  rw [if_neg (by omega), if_neg (by omega)]
  refine ensures_bind.mpr (ensures_get.mpr ?_)
  rw [if_pos (by omega), blocksOf_uint limit]
  refine ends_first (forRange_ends MAXFILE_BLOCKS (fun current => ?_) origin (by omega))
  exact ends_after fun _ _ => ends_first (imap2blockno_ends (Nat.le_refl _) _)

/-! All requests. -/

/-- The calls on the bytes of a locked inode. -/
inductive FileRequest where
  | read (nbytes off : Nat)
  | write (data : List Byte) (off : Nat)
  | truncate (size : Nat)

namespace FileRequest

def run (ip : Nat) : FileRequest → M Unit
  | read nbytes off => do
    let _ ← inodeReadNbytesLocked ip nbytes off
  | write data off => do
    let _ ← inodeWriteNbytesLocked ip data off
  | truncate size => itrunc2size ip size

/-- The ends of the requests that the calls' types and callers allow. -/
def Domain : FileRequest → Prop
  | read nbytes off => off + nbytes < 2 ^ 63
  | write data off => off + data.length < 2 ^ 63
  | truncate size => size < 2 ^ 63

/-- No read or write starts right at the limit of a file, and no truncation goes past it. -/
def Fits (size : Nat) : FileRequest → Prop
  | read _ off => off ≠ MAXFILE_SIZE ∨ size ≠ MAXFILE_SIZE
  | write _ off => off ≠ MAXFILE_SIZE
  | truncate size => size ≤ MAXFILE_SIZE

theorem below {request : FileRequest} (domain : request.Domain) (limited : OnEntry ip Limited fs) (fits : request.Fits (fs.inode ip).copy.size) :
    Ensures (request.run ip) fs (fun _ => OnEntry ip Limited) fun reason after => OnEntry ip Limited after ∧ Inner reason := by
  cases request with
  | read nbytes off => exact Ensures.bind (inodeReadNbytesLocked_below domain limited fits) fun _ _ limited => (ensures_pure _).mpr limited
  | write data off => exact Ensures.bind (inodeWriteNbytesLocked_below domain fits fs limited) fun _ _ limited => (ensures_pure _).mpr limited
  | truncate size => exact itrunc2size_below fits fs limited

theorem ends {request : FileRequest} (domain : request.Domain) (limit : (fs.inode ip).copy.size ≤ MAXFILE_SIZE)
    (unfit : ¬ request.Fits (fs.inode ip).copy.size) : Ends (request.run ip) fs := by
  cases request with
  | read nbytes off =>
    obtain ⟨rfl, full⟩ : off = MAXFILE_SIZE ∧ (fs.inode ip).copy.size = MAXFILE_SIZE := by
      rw [Fits, not_or, not_not, not_not] at unfit
      exact unfit
    exact ends_first (inodeReadNbytesLocked_ends full)
  | write data off =>
    obtain rfl : off = MAXFILE_SIZE := not_not.mp unfit
    exact ends_first (inodeWriteNbytesLocked_ends data fs)
  | truncate size => exact itrunc2size_ends domain limit (Nat.not_le.mp unfit)

end FileRequest

/-- A request returns with the size within the limit if and only if it fits, unless the log or the disk ends it
first; one that fits takes no exit of the block map in any case. -/
theorem request_within_limit_iff (request : FileRequest) (loaded : fs.Loaded ip) (limit : (fs.inode ip).copy.size ≤ MAXFILE_SIZE) (domain : request.Domain) :
    (∀ result after, request.run ip fs = (result, after) → (∀ reason, result = .error reason → TooBig reason) →
      (result = .ok () ∧ (after.inode ip).copy.size ≤ MAXFILE_SIZE ↔ request.Fits (fs.inode ip).copy.size)) ∧
    (request.Fits (fs.inode ip).copy.size → ∀ reason after, request.run ip fs = (.error reason, after) →
      (after.inode ip).copy.size ≤ MAXFILE_SIZE ∧ ¬ TooBig reason) := by
  have limited : OnEntry ip Limited fs := ⟨loaded.2, limit⟩
  refine ⟨fun result after ran big => ⟨fun served => ?_, fun fits => ?_⟩, fun fits reason after stopped => ?_⟩
  · by_contra unfit
    obtain ⟨rfl, -⟩ := served
    exact (request.ends domain limit unfit).returned ran
  · have below := request.below domain limited fits
    cases result with
    | ok _ => exact ⟨rfl, (below.returned ran).2⟩
    | error reason => exact absurd (big reason rfl) (below.stopped ran).2.1
  · obtain ⟨stays, small⟩ := (request.below domain limited fits).stopped stopped
    exact ⟨stays.2, small.1⟩

/-- One byte is written to a new file. -/
theorem request_within_limit_one : ∃ fs after, (FileRequest.write [7] 0).run 0 fs = (.ok (), after) ∧ (after.inode 0).copy.size ≤ MAXFILE_SIZE := by
  have computed : valueOf (do
      beginOp
      ilock 0
      let fs : FS ← get
      (FileRequest.write [7] 0).run 0
      pure (fs.inode 0).copy.size) freshFile = some 0 := by decide +kernel
  obtain ⟨fs, -, loaded, -, -, rest⟩ := freshFile_wellFormed.opens ⟨by decide, by decide⟩ (returns_of_valueOf computed)
  rw [bind_ok get_apply] at rest
  obtain ⟨_, after, wrote, last⟩ := bind_returns rest
  have size : (fs.inode 0).copy.size = 0 := by simpa using congrArg Prod.fst last
  have fits := (request_within_limit_iff (.write [7] 0) loaded (by rw [size]; decide) (show 0 + 1 < 2 ^ 63 by decide)).1 _ after wrote (by simp)
  exact ⟨fs, after, wrote, (fits.mpr (show 0 ≠ MAXFILE_SIZE by decide)).2⟩

/-- A file of the largest size, with its last block only: a write and a read at its end and a truncation by one
byte more end the process. -/
theorem full_file_exits : ∃ fs, fs.Ready ∧ fs.Loaded 0 ∧ 1 ≤ fs.log.outstanding ∧ (fs.inode 0).copy.size = MAXFILE_SIZE ∧
    ∀ request ∈ [FileRequest.write [7] MAXFILE_SIZE, .read 1 MAXFILE_SIZE, .truncate (MAXFILE_SIZE + 1)],
      request.Domain ∧ ∃ after, request.run 0 fs = (.error (.errExit .inodeTooBig), after) := by
  have computed : valueOf (do
      beginOp
      ilock 0
      let _ ← inodeWriteNbytesLocked 0 [7] (MAXFILE_SIZE - 1)
      let fs : FS ← get
      let first ← probe ((FileRequest.write [7] MAXFILE_SIZE).run 0)
      let second ← probe ((FileRequest.read 1 MAXFILE_SIZE).run 0)
      let third ← probe ((FileRequest.truncate (MAXFILE_SIZE + 1)).run 0)
      pure (fs.log.outstanding, (fs.inode 0).copy.size, first, second, third)) freshFile =
        some (1, MAXFILE_SIZE, some (.errExit .inodeTooBig), some (.errExit .inodeTooBig), some (.errExit .inodeTooBig)) := by decide +kernel
  obtain ⟨start, ready, loaded, inOp, -, rest⟩ := freshFile_wellFormed.opens ⟨by decide, by decide⟩ (returns_of_valueOf computed)
  obtain ⟨_, fs, wrote, rest⟩ := bind_returns rest
  rw [bind_ok get_apply] at rest
  obtain ⟨first, _, writes, rest⟩ := bind_returns rest
  obtain ⟨second, _, reads, rest⟩ := bind_returns rest
  obtain ⟨third, _, truncates, last⟩ := bind_returns rest
  obtain ⟨outstanding, size, rfl, rfl, rfl⟩ : fs.log.outstanding = 1 ∧ (fs.inode 0).copy.size = MAXFILE_SIZE ∧
      first = some (.errExit .inodeTooBig) ∧ second = some (.errExit .inodeTooBig) ∧ third = some (.errExit .inodeTooBig) := by
    simpa using congrArg Prod.fst last
  obtain ⟨after, write, kept⟩ := stops_of_probe writes
  rw [kept] at reads
  obtain ⟨after', read, kept⟩ := stops_of_probe reads
  rw [kept] at truncates
  obtain ⟨after'', truncate, -⟩ := stops_of_probe truncates
  obtain ⟨-, acted, -⟩ := (inodeWriteNbytesLocked_spec (ready.running loaded inOp) (fun roomy => roomy.elim) (by decide) (fun bounded => bounded.elim)
    (by decide)).returned wrote
  refine ⟨fs, acted.running.usable.ready, acted.running.loaded, by rw [outstanding], size, ?_⟩
  simp only [List.mem_cons, List.not_mem_nil, or_false]
  rintro request (rfl | rfl | rfl)
  · exact ⟨show MAXFILE_SIZE + 1 < 2 ^ 63 by decide, after, write⟩
  · exact ⟨show MAXFILE_SIZE + 1 < 2 ^ 63 by decide, after', read⟩
  · exact ⟨show MAXFILE_SIZE + 1 < 2 ^ 63 by decide, after'', truncate⟩

end FS
end Myfuse
