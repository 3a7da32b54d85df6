import Myfuse.Proofs.FileBytes

/-! Writes and truncations of one file after each other, against a byte array that
is cut and extended with zeros. A truncation keeps the rest of the last block, so
the two agree while no step moves the end of the file over a byte kept there. -/

namespace Myfuse
open Library Library.Exec

inductive FileStep where
  | write (data : List Byte) (off : Nat)
  | truncate (size : Nat)

/-- A file as its size and its bytes; past the size there are zeros. -/
structure ByteArrayModel where
  size : Nat
  bytes : Nat → Byte

namespace ByteArrayModel

def empty : ByteArrayModel := ⟨0, fun _ => 0⟩

def step (model : ByteArrayModel) : FileStep → ByteArrayModel
  | .write data off => ⟨max model.size (off + data.length), overlay model.bytes off data⟩
  | .truncate size => ⟨size, fun p => if p < size then model.bytes p else 0⟩

def run (steps : List FileStep) : ByteArrayModel := steps.foldl step empty

end ByteArrayModel

/-- Writes of at least one byte and truncations, within the largest file. -/
def FileStep.Allowed : FileStep → Prop
  | .write data off => 1 ≤ data.length ∧ off + data.length ≤ MAXFILE_SIZE
  | .truncate size => size ≤ MAXFILE_SIZE

/-- Where the old bytes have to end for the step to add none between: a write starts
at its offset, a truncation adds zeros up to its size. -/
def FileStep.start : FileStep → Nat
  | .write _ off => off
  | .truncate size => size

namespace FS
variable {fs middle after : FS} {ip : Nat}

/-- `itrunc2size` in an operation of its own. -/
def itrunc2sizeUnlocked (ip size : Nat) : M Unit := do
  beginOp
  ilock ip
  let done ← itrunc2size ip size
  iunlock ip
  endOp
  pure done

def fileStep (ip : Nat) : FileStep → M Unit
  | .write data off => do
    let _ ← inodeWriteNbytesUnlocked ip data off
    pure ()
  | .truncate size => itrunc2sizeUnlocked ip size

/-- Every step of the run has returned and met `fits` in the state before it. -/
inductive FileRun (ip : Nat) (fits : FS → FileStep → Prop) (fs : FS) : List FileStep → FS → Prop
  | start : FileRun ip fits fs [] fs
  | step {steps : List FileStep} {middle after : FS} {next : FileStep} : FileRun ip fits fs steps middle → fits middle next →
      fileStep ip next middle = (.ok (), after) → FileRun ip fits fs (steps ++ [next]) after

/-- The steps after each other. -/
def fileSteps (ip : Nat) : List FileStep → M Unit
  | [] => pure ()
  | next :: rest => do
    fileStep ip next
    fileSteps ip rest

theorem FileRun.append {fits : FS → FileStep → Prop} {steps rest : List FileStep} (run : FileRun ip fits fs steps middle)
    (meets : ∀ current, ∀ next ∈ rest, fits current next) (returned : fileSteps ip rest middle = (.ok (), after)) :
    FileRun ip fits fs (steps ++ rest) after := by
  induction rest generalizing steps middle with
  | nil =>
    obtain rfl : middle = after := by simpa [fileSteps] using returned
    rwa [List.append_nil]
  | cons next rest ih =>
    obtain ⟨_, current, head, tail⟩ := bind_returns returned
    rw [List.append_cons]
    exact ih (run.step (meets middle next List.mem_cons_self) head)
      (fun current other inside => meets current other (List.mem_cons_of_mem _ inside)) tail

/-- The rest of the last block is zero where the step would show it. -/
def ShowsNothing (ip : Nat) (fs : FS) (next : FileStep) : Prop :=
  ∀ p, fs.fileSize (fs.inode ip).inum ≤ p → p < next.start → p < blocksOf (fs.fileSize (fs.inode ip).inum) * BSIZE →
    fs.content (fs.inode ip).inum p = 0

/-- The file is the byte array, and nothing is kept past its last block. -/
structure Matches (ip : Nat) (model : ByteArrayModel) (fs : FS) : Prop where
  size : fs.fileSize (fs.inode ip).inum = model.size
  small : model.size ≤ MAXFILE_SIZE
  bytes : ∀ p < model.size, fs.content (fs.inode ip).inum p = model.bytes p
  past : ∀ p, model.size ≤ p → model.bytes p = 0
  cut : ∀ p, blocksOf model.size * BSIZE ≤ p → fs.content (fs.inode ip).inum p = 0

/-- A block holds a byte below the size or none at all. -/
theorem size_le_blocks {size : Nat} (small : size ≤ MAXFILE_SIZE) : size ≤ blocksOf size * BSIZE := by
  rw [blocksOf_small small]
  generalize MAXFILE_SIZE = bound at *
  simp only [BSIZE]
  omega

/-- Up to the start of the next step, the file is the byte array with its zeros. -/
theorem Matches.upTo {model : ByteArrayModel} (same : fs.Matches ip model) {next : FileStep} (hidden : fs.ShowsNothing ip next)
    {p : Nat} (below : p < max model.size next.start) : fs.content (fs.inode ip).inum p = model.bytes p := by
  by_cases inside : p < model.size
  · exact same.bytes p inside
  have zero := same.past p (Nat.not_lt.mp inside)
  rw [zero]
  by_cases kept : p < blocksOf model.size * BSIZE
  · exact hidden p (by rw [same.size]; omega) (by omega) (by rw [same.size]; exact kept)
  · exact same.cut p (Nat.not_lt.mp kept)

/-- What a returned write leaves. -/
theorem Matches.write {model : ByteArrayModel} (same : fs.Matches ip model) {data : List Byte} {off : Nat}
    (allowed : (FileStep.write data off).Allowed) (hidden : fs.ShowsNothing ip (.write data off))
    (inum : (after.inode ip).inum = (fs.inode ip).inum)
    (size : after.fileSize (fs.inode ip).inum = max (fs.fileSize (fs.inode ip).inum) (off + data.length))
    (bytes : after.content (fs.inode ip).inum = overlay (fs.content (fs.inode ip).inum) off data) :
    after.Matches ip (model.step (.write data off)) := by
  have small : max model.size (off + data.length) ≤ MAXFILE_SIZE := by
    have limit := same.small
    have fits := allowed.2
    generalize MAXFILE_SIZE = bound at *
    omega
  refine ⟨?_, small, fun p below => ?_, fun p above => ?_, fun p above => ?_⟩
  · rw [inum, size, same.size]
    rfl
  · rw [inum, bytes]
    simp only [ByteArrayModel.step, overlay] at below ⊢
    split
    next => rfl
    next outside => exact same.upTo hidden (by simp only [FileStep.start]; omega)
  · simp only [ByteArrayModel.step, overlay] at above ⊢
    rw [if_neg (by omega)]
    exact same.past p (by omega)
  · simp only [ByteArrayModel.step] at above
    have reach := size_le_blocks small
    rw [inum, bytes, overlay, if_neg (by omega)]
    exact same.cut p (Nat.le_trans (Nat.mul_le_mul_right _ (blocksOf_mono small (Nat.le_max_left _ _))) above)

/-- What a returned truncation leaves. -/
theorem Matches.truncate {model : ByteArrayModel} (same : fs.Matches ip model) {size : Nat}
    (allowed : size ≤ MAXFILE_SIZE) (hidden : fs.ShowsNothing ip (.truncate size))
    (inum : (after.inode ip).inum = (fs.inode ip).inum) (sizeIs : after.fileSize (fs.inode ip).inum = size)
    (bytes : after.content (fs.inode ip).inum =
      resized (fs.content (fs.inode ip).inum) (fs.fileSize (fs.inode ip).inum) size) :
    after.Matches ip (model.step (.truncate size)) := by
  have kept : ∀ p, p < size → after.content (fs.inode ip).inum p = fs.content (fs.inode ip).inum p := fun p below => by
    have reach := size_le_blocks allowed
    rw [bytes, resized]
    split
    next => rfl
    split
    next whole => omega
    next =>
      have low : p / BSIZE < blocksOf size := Nat.div_lt_of_lt_mul (by rw [Nat.mul_comm]; omega)
      rw [cutBlocks, if_neg fun cut => Nat.not_le.mpr low cut.1]
  refine ⟨?_, allowed, fun p below => ?_, fun p above => ?_, fun p above => ?_⟩
  · rw [inum, sizeIs]
    rfl
  · simp only [ByteArrayModel.step] at below ⊢
    rw [inum, kept p below, if_pos below]
    exact same.upTo hidden (by simp only [FileStep.start]; omega)
  · simp only [ByteArrayModel.step] at above ⊢
    rw [if_neg (by omega)]
  · simp only [ByteArrayModel.step] at above
    rw [inum, bytes, resized, same.size]
    split
    next equal => exact same.cut p (equal ▸ above)
    split
    next => rfl
    next =>
      rw [cutBlocks]
      split
      next => rfl
      next outside =>
        have high : blocksOf size ≤ p / BSIZE := (Nat.le_div_iff_mul_le (by decide)).mpr above
        have past : blocksOf model.size ≤ p / BSIZE := Nat.not_lt.mp fun low => outside ⟨high, low⟩
        exact same.cut p ((Nat.le_div_iff_mul_le (by decide)).mp past)

/-- A truncation in its own operation. -/
theorem itrunc2sizeUnlocked_spec {origin : Origin} {size : Nat} (rest : fs.AtRest origin) (live : fs.Live ip)
    (lockable : origin.roomy → fs.Lockable ip)
    (within : origin.bounded → size ≤ MAXFILE_SIZE ∧ fs.fileSize (fs.inode ip).inum ≤ MAXFILE_SIZE) :
    Ensures (itrunc2sizeUnlocked ip size) fs
      (fun _ after => ∃ bytes, Served origin ip fs size bytes after ∧
        (size ≤ MAXFILE_SIZE → fs.fileSize (fs.inode ip).inum ≤ MAXFILE_SIZE →
          bytes = resized (fs.content (fs.inode ip).inum) (fs.fileSize (fs.inode ip).inum) size))
      (ResizeStops origin size) := by
  refine (rest.session live lockable
    (fun _ size' bytes => size' = size ∧ (size ≤ MAXFILE_SIZE → fs.fileSize (fs.inode ip).inum ≤ MAXFILE_SIZE →
      bytes = resized (fs.content (fs.inode ip).inum) (fs.fileSize (fs.inode ip).inum) size))
    (fun _ _ => .inl) fun ready running none _ inum copy content => ?_).weaken ?_
  · have same : (ready.inode ip).copy.size = fs.fileSize (fs.inode ip).inum := by rw [copy, fileSize]
    refine (itrunc2size_spec running (fun _ => by rw [none]; decide) size (by rw [same]; exact within)).weaken ?_
    rintro _ after ⟨bytes, acted, known⟩
    rw [same, inum, content] at known
    exact ⟨_, _, ⟨rfl, known⟩, acted.done⟩
  · rintro _ after ⟨size', bytes, ⟨rfl, known⟩, served⟩
    exact ⟨bytes, served, known⟩

/-- A returned step that shows nothing keeps the file and the byte array together. -/
theorem Matches.step {origin : Origin} {model : ByteArrayModel} {next : FileStep} (free : ¬ origin.bounded ∧ ¬ origin.roomy)
    (rest : fs.AtRest origin) (live : fs.Live ip) (same : fs.Matches ip model) (allowed : next.Allowed)
    (hidden : fs.ShowsNothing ip next) (returned : fileStep ip next fs = (.ok (), after)) :
    after.AtRest origin ∧ after.Live ip ∧ after.Matches ip (model.step next) := by
  have small := same.small
  have limit : MAXFILE_SIZE < 2 ^ 62 := by decide
  cases next with
  | write data off =>
    obtain ⟨some, fits⟩ := allowed
    obtain ⟨count, written, write, last⟩ := bind_returns returned
    have afterIs : written = after := by simpa using last
    subst afterIs
    obtain ⟨countIs, served⟩ := (inodeWriteNbytesUnlocked_spec rest live (fun roomy => absurd roomy free.2)
      (by generalize MAXFILE_SIZE = bound at *; omega) (fun bounded => absurd bounded free.1)
      (by generalize MAXFILE_SIZE = bound at *; omega)).returned write
    have whole : count = data.length := by
      rw [countIs]
      generalize MAXFILE_SIZE = bound at *
      omega
    rw [whole, List.take_length] at served
    exact ⟨served.rest, served.loaded.1, same.write ⟨some, fits⟩ hidden served.frame.inum served.fileSize served.own⟩
  | truncate size =>
    obtain ⟨bytes, served, known⟩ := (itrunc2sizeUnlocked_spec rest live (fun roomy => absurd roomy free.2)
      fun bounded => absurd bounded free.1).returned returned
    refine ⟨served.rest, served.loaded.1, same.truncate allowed hidden served.frame.inum served.fileSize ?_⟩
    rw [served.own]
    exact known allowed (by rw [same.size]; exact small)

/-- The step lemma along a run. -/
theorem Matches.run {origin : Origin} (free : ¬ origin.bounded ∧ ¬ origin.roomy) (rest : fs.AtRest origin) (live : fs.Live ip)
    (empty : fs.Matches ip .empty) {steps : List FileStep}
    (run : FileRun ip (fun before next => next.Allowed ∧ before.ShowsNothing ip next) fs steps after) :
    after.AtRest origin ∧ after.Live ip ∧ after.Matches ip (.run steps) := by
  induction run with
  | start => exact ⟨rest, live, empty⟩
  | step _ fits returned ih =>
    obtain ⟨rest, live, same⟩ := ih
    rw [ByteArrayModel.run, List.foldl_append]
    exact same.step free rest live fits.1 fits.2 returned

/-- The entry is for a file as `ialloc` makes it. -/
structure NewFile (fs : FS) (ip : Nat) : Prop where
  live : fs.Live ip
  size : fs.fileSize (fs.inode ip).inum = 0
  addrs : ∀ slot, (fs.current (fs.inode ip).inum).addrs slot = 0

theorem NewFile.matches (new : fs.NewFile ip) : fs.Matches ip .empty := by
  have roots : ∀ slot, fs.held (fs.inode ip).inum [slot] = 0 := fun slot => by
    rw [held_root, FS.roots, new.addrs]
    exact ite_self _
  have blank : ∀ p, fs.content (fs.inode ip).inum p = 0 := fun p => by
    refine content_of_empty ?_
    obtain ⟨slot, rest, isPath⟩ := List.exists_cons_of_ne_nil (pathOf_ne_nil (p / BSIZE))
    rw [isPath]
    cases rest with
    | nil => exact roots slot
    | cons next rest => exact held_beyond (roots slot) (by simp) _
  exact ⟨new.size, Nat.zero_le _, fun p _ => blank p, fun _ _ => rfl, fun p _ => blank p⟩

/-- A new file read after any run whose steps show nothing serves the byte array. -/
theorem reads_byte_array (wellFormed : fs.WellFormed) (new : fs.NewFile ip) {steps : List FileStep}
    (run : FileRun ip (fun before next => next.Allowed ∧ before.ShowsNothing ip next) fs steps middle)
    {off nbytes : Nat} (inside : off + nbytes ≤ (ByteArrayModel.run steps).size) {data : List Byte}
    (read : inodeReadNbytesUnlocked ip nbytes off middle = (.ok data, after)) :
    data = bytesFrom (ByteArrayModel.run steps).bytes off nbytes := by
  obtain ⟨rest, live, same⟩ := Matches.run ⟨id, id⟩ (wellFormed.atRest False False) new.live new.matches run
  obtain ⟨-, dataIs⟩ := (inodeReadNbytesUnlocked_spec rest live (fun roomy => roomy.elim) (fun bounded => bounded.elim)).returned read
  have limit : MAXFILE_SIZE < 2 ^ 62 := by decide
  have small := same.small
  rw [same.size, if_neg (by omega), served_eq (by omega) (by generalize MAXFILE_SIZE = bound at *; omega)] at dataIs
  rw [dataIs, show min nbytes ((ByteArrayModel.run steps).size - off) = nbytes by omega]
  exact List.map_congr_left fun k low => same.bytes _ (by rw [List.mem_range] at low; omega)

theorem freshFile_new : freshFile.NewFile 0 := by
  have current : freshFile.current 17 = Dinode.read (smallImage (initSuperBlock 2000) 17 ((initSuperBlock 2000).iblock 17)) (Dinode.offsetOf 17) := by
    rw [FS.current, freshFile, fresh_absent firstEntry_unread]
    rfl
  refine ⟨⟨by decide, by decide⟩, ?_, fun slot => ?_⟩
  · exact (congrArg Dinode.size current).trans (smallImage_size smallDisk_layout (by decide) (by decide))
  · refine (congrArg (fun copy : Dinode => copy.addrs slot) current).trans (smallDisk_blockless.addrs 17 (by decide) ?_ slot)
    rw [smallImage_type smallDisk_layout (by decide) (by decide)]
    decide

theorem freshFile_reads : ∃ middle after, inodeReadNbytesUnlocked 0 2 4095 middle = (.ok [7, 8], after) ∧
    [7, 8] = bytesFrom (ByteArrayModel.run [.write [7, 8, 9] 4095]).bytes 4095 2 := by
  have computed : valueOf (do fileSteps 0 [.write [7, 8, 9] 4095]; inodeReadNbytesUnlocked 0 2 4095) freshFile = some [7, 8] := by
    decide +kernel
  obtain ⟨_, middle, wrote, read⟩ := bind_returns (returns_of_valueOf computed)
  obtain ⟨_, after, write, last⟩ := bind_returns wrote
  obtain rfl : after = middle := by simpa [fileSteps] using last
  have allowed : (FileStep.write [7, 8, 9] 4095).Allowed := ⟨by decide, by decide⟩
  have hidden : freshFile.ShowsNothing 0 (.write [7, 8, 9] 4095) := fun p _ _ _ => freshFile_new.matches.cut p (by
    rw [show blocksOf ByteArrayModel.empty.size = 0 from by decide]
    omega)
  exact ⟨after, _, read, reads_byte_array freshFile_wellFormed freshFile_new
    (.step .start ⟨allowed, hidden⟩ write) (by decide) read⟩

/-- A byte cut off inside the last block is read again after the file has grown. -/
theorem cut_byte_reappears : ¬ ∀ (fs : FS) (ip : Nat) (steps : List FileStep) (middle after : FS) (off nbytes : Nat)
    (data : List Byte), fs.WellFormed → fs.NewFile ip → FileRun ip (fun _ next => next.Allowed) fs steps middle →
      off + nbytes ≤ (ByteArrayModel.run steps).size → inodeReadNbytesUnlocked ip nbytes off middle = (.ok data, after) →
      data = bytesFrom (ByteArrayModel.run steps).bytes off nbytes := by
  intro claimed
  have computed : valueOf (do fileSteps 0 [.write [1, 2] 0, .truncate 1, .truncate 2]; inodeReadNbytesUnlocked 0 1 1)
      freshFile = some [2] := by decide +kernel
  obtain ⟨_, middle, steps, read⟩ := bind_returns (returns_of_valueOf computed)
  have run := (FileRun.start : FileRun 0 (fun _ next => next.Allowed) freshFile [] freshFile).append (fun _ next inside => ?_) steps
  · have served := claimed freshFile 0 _ middle _ 1 1 [2] freshFile_wellFormed freshFile_new run (by decide) read
    revert served
    decide
  · simp only [List.mem_cons, List.not_mem_nil, or_false] at inside
    rcases inside with rfl | rfl | rfl
    · exact ⟨by decide, by decide⟩
    · exact Nat.le_of_lt (by decide : 1 < MAXFILE_SIZE)
    · exact Nat.le_of_lt (by decide : 2 < MAXFILE_SIZE)

end FS
end Myfuse
