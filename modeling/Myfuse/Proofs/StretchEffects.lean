import Myfuse.Proofs.WriteStretches

/-! What one stretch does to the file: of a write it lays down the next bytes, of a read
it takes them up. -/

namespace Myfuse
open Library Library.Exec

/-! What a stretch of a write lays down. -/

/-- The bytes `[first, last)` of the data laid over. -/
def laidOver (bytes : Nat → Byte) (off : Nat) (data : List Byte) (first last : Nat) : Nat → Byte := fun p =>
  if off + first ≤ p ∧ p < off + last then data.getD (p - off) 0 else bytes p

theorem laidOver_trans (bytes : Nat → Byte) (off : Nat) (data : List Byte) {first middle last : Nat} (before : first ≤ middle)
    (behind : middle ≤ last) : laidOver (laidOver bytes off data first middle) off data middle last = laidOver bytes off data first last := by
  funext p
  unfold laidOver
  by_cases tail : off + middle ≤ p ∧ p < off + last
  · rw [if_pos tail, if_pos (by omega)]
  · rw [if_neg tail]
    by_cases head : off + first ≤ p ∧ p < off + middle
    · rw [if_pos head, if_pos (by omega)]
    · rw [if_neg head, if_neg (by omega)]

theorem laidOver_none (bytes : Nat → Byte) (off : Nat) (data : List Byte) (first : Nat) : laidOver bytes off data first first = bytes := by
  funext p
  unfold laidOver
  rw [if_neg (by omega)]

theorem overlay_laid (bytes : Nat → Byte) (off : Nat) (data : List Byte) {first last : Nat} (ordered : first ≤ last) (fits : last ≤ data.length) :
    overlay bytes (off + first) ((data.drop first).take (last - first)) = laidOver bytes off data first last := by
  funext p
  have length : ((data.drop first).take (last - first)).length = last - first := by
    rw [List.length_take, List.length_drop]
    omega
  unfold overlay laidOver
  rw [length]
  by_cases here : off + first ≤ p ∧ p < off + last
  · rw [if_pos (by omega), if_pos here, List.getD_eq_getElem?_getD, List.getD_eq_getElem?_getD, List.getElem?_take_of_lt (by omega),
      List.getElem?_drop]
    congr 2
    omega
  · rw [if_neg (by omega), if_neg here]

namespace Stretch

/-- How many bytes of a write are laid down. -/
def laid (total : Nat) : Stretch → Nat
  | .again (.writeBlocks _ data _) | .again (.writeLast _ data _) => total - data.length
  | .again _ => 0
  | .done _ => total

/-- The size has been set. -/
def sized : Stretch → Bool
  | .again (.write _ _) => false
  | _ => true

end Stretch

/-- The places of a write. -/
inductive WriteAt (data : List Byte) (off : Nat) : Stretch → Prop where
  | start : WriteAt data off (.again (.write data off))
  | first : WriteAt data off (.again (.writeFirst data.length data off))
  | blocks (count inode_blockno : Nat) (more : count + BSIZE < data.length) (place : inode_blockno * BSIZE = off + count) :
    WriteAt data off (.again (.writeBlocks data.length (data.drop count) inode_blockno))
  | last (count inode_blockno : Nat) (fits : count ≤ data.length) (short : data.length ≤ count + BSIZE)
    (place : inode_blockno * BSIZE = off + count) :
    WriteAt data off (.again (.writeLast data.length (data.drop count) inode_blockno))
  | done : WriteAt data off (.done (.wrote data.length))

theorem laid_drop {data : List Byte} {count : Nat} (fits : count ≤ data.length) : data.length - (data.drop count).length = count := by
  rw [List.length_drop]
  omega

theorem WriteAt.laid_le {data : List Byte} {off : Nat} {stretch : Stretch} (place : WriteAt data off stretch) : stretch.laid data.length ≤ data.length := by
  cases place <;> simp only [Stretch.laid] <;> omega

theorem WriteAt.sized {data : List Byte} {off : Nat} {stretch : Stretch} (place : WriteAt data off stretch) (some : 0 < stretch.laid data.length) :
    stretch.sized = true := by
  cases place with
  | start => exact absurd some (Nat.lt_irrefl 0)
  | first => rfl
  | blocks => rfl
  | last => rfl
  | done => rfl

namespace FS
variable {origin : Origin} {fs middle after : FS} {ip size : Nat} {data : List Byte} {off : Nat} {stretch : Stretch}

/-- A stretch has laid down the bytes after the first `count`. -/
structure Advanced (origin : Origin) (ip size : Nat) (data : List Byte) (off count : Nat) (fs : FS) (stretch : Stretch) (after : FS) : Prop where
  place : WriteAt data off stretch
  sized : stretch.sized = true
  more : count ≤ stretch.laid data.length
  acted : Acted origin ip fs size (laidOver (fs.content (fs.inode ip).inum) off data count (stretch.laid data.length)) after

theorem Steady.acted (steady : Steady origin ip fs after) (agrees : after.Agrees ip) :
    Acted origin ip fs (fs.inode ip).copy.size (fs.content (fs.inode ip).inum) after :=
  ⟨steady.running, steady.keeps, steady.size, by rw [steady.content], fun _ _ => by rw [steady.content], steady.nlink, agrees⟩

theorem Advanced.after_wrote {count reached : Nat} (wrote : Wrote origin ip fs (laidOver (fs.content (fs.inode ip).inum) off data count reached) middle)
    (before : count ≤ reached) (advanced : Advanced origin ip (middle.inode ip).copy.size data off reached middle stretch after) :
    Advanced origin ip (fs.inode ip).copy.size data off count fs stretch after := by
  obtain ⟨place, sized, more, acted⟩ := advanced
  rw [wrote.keeps.inum, wrote.own, laidOver_trans _ _ _ before more, wrote.size] at acted
  refine ⟨place, sized, Nat.le_trans before more, ⟨acted.running, wrote.keeps.trans acted.keeps, acted.size, ?_, fun inum apart => ?_,
    acted.nlink.trans wrote.nlink, acted.agrees⟩⟩
  · have own := acted.own
    rw [wrote.keeps.inum] at own
    exact own
  · rw [acted.others inum (by rw [wrote.keeps.inum]; exact apart), wrote.others inum apart]

variable (lenient : ¬ origin.bounded ∧ ¬ origin.roomy)
include lenient

theorem pauseOn_spec {nwrote : Nat} {part : FilePart} {rest : M Stretch} {ok : Stretch → FS → Prop} (running : fs.Running origin ip)
    (pauses : ∀ after, Steady origin ip fs after → after.Agrees ip → ok (.again part) after) (goes : Ensures rest fs ok (Stops origin)) :
    Ensures (pauseOn ip nwrote part rest) fs ok (Stops origin) := by
  unfold pauseOn
  rw [ensures_bind, ensures_get]
  split
  next =>
    apply Ensures.bind (iupdate_roomy running fun roomy => absurd roomy lenient.2)
    intro _ after updated
    rw [ensures_pure]
    exact pauses after updated.1 updated.2.2.2
  next => exact goes

theorem finishWrite_spec {count : Nat} (running : fs.Running origin ip) (all : count = data.length) :
    Ensures (finishWrite ip data.length) fs (Advanced origin ip (fs.inode ip).copy.size data off count fs) (Stops origin) := by
  unfold finishWrite
  apply Ensures.bind (touch_spec running)
  intro _ touched both
  have steady := both.1
  apply Ensures.bind (iupdate_roomy steady.running fun roomy => absurd roomy lenient.2)
  intro _ after updated
  rw [ensures_pure]
  have acted := (steady.trans updated.1).acted updated.2.2.2
  refine ⟨.done, rfl, Nat.le_of_eq all, ?_⟩
  have none : laidOver (fs.content (fs.inode ip).inum) off data count (Stretch.laid data.length (.done (.wrote data.length))) =
      fs.content (fs.inode ip).inum := by
    rw [all]
    exact laidOver_none _ _ _ _
  rw [none]
  exact acted

/-- The next block of a write. -/
theorem writeNext_spec {count bn : Nat} (reached offset : Nat) (running : fs.Running origin ip) (place : bn * BSIZE + offset = off + count)
    (ordered : count ≤ reached) (fits : reached ≤ data.length) (small : offset + (reached - count) ≤ BSIZE) :
    Ensures (writeBlock ip bn offset ((data.drop count).take (reached - count))) fs
      (fun _ after => Wrote origin ip fs (laidOver (fs.content (fs.inode ip).inum) off data count reached) after) (Stops origin) := by
  have length : ((data.drop count).take (reached - count)).length ≤ reached - count := List.length_take_le _ _
  apply (writeBlock_spec running (fun roomy => absurd roomy lenient.2) (fun bounded => absurd bounded lenient.1) (by omega)).weaken
  intro _ after both
  have wrote := both.1
  rw [place, overlay_laid _ _ _ ordered fits] at wrote
  exact wrote

theorem writeLastPart_spec {count bn : Nat} (running : fs.Running origin ip) (fits : count ≤ data.length) (place : bn * BSIZE = off + count)
    (short : (data.drop count).length ≤ BSIZE) :
    Ensures (writeLastPart ip data.length (data.drop count) bn) fs (Advanced origin ip (fs.inode ip).copy.size data off count fs) (Stops origin) := by
  have length : (data.drop count).length = data.length - count := List.length_drop
  unfold writeLastPart
  by_cases some : (data.drop count).length ≠ 0
  · dsimp only
    rw [if_pos some]
    have writes := writeNext_spec lenient data.length 0 running (by rw [place, Nat.add_zero]) fits (Nat.le_refl _) (by omega)
    rw [List.take_of_length_le (by omega)] at writes
    apply Ensures.bind writes
    intro _ written wrote
    apply (finishWrite_spec lenient wrote.running rfl).weaken
    intro stretch after advanced
    exact Advanced.after_wrote wrote fits advanced
  · dsimp only
    rw [if_neg some]
    exact finishWrite_spec lenient running (by omega)

/-- One block, and the loop from the next one on. -/
theorem writeThrough_spec {count bn : Nat} (running : fs.Running origin ip) (more : count + BSIZE < data.length) (place : bn * BSIZE = off + count)
    (rest : ∀ written, written.Running origin ip → Ensures (writeBlocksPart ip data.length (data.drop (count + BSIZE)) (bn + 1)) written
      (Advanced origin ip (written.inode ip).copy.size data off (count + BSIZE) written) (Stops origin)) :
    Ensures (do
        writeBlock ip bn 0 ((data.drop count).take BSIZE)
        writeBlocksPart ip data.length ((data.drop count).drop BSIZE) (bn + 1)) fs
      (Advanced origin ip (fs.inode ip).copy.size data off count fs) (Stops origin) := by
  have writes := writeNext_spec lenient (count + BSIZE) 0 running (by rw [place, Nat.add_zero]) (Nat.le_add_right _ _) (Nat.le_of_lt more) (by omega)
  rw [Nat.add_sub_cancel_left] at writes
  apply Ensures.bind writes
  intro _ written wrote
  rw [List.drop_drop]
  apply (rest written wrote.running).weaken
  intro stretch after advanced
  exact Advanced.after_wrote wrote (Nat.le_add_right _ _) advanced

/-- The loop over whole blocks. -/
theorem writeBlocksPart_spec (data : List Byte) (off count bn : Nat) (fs : FS) (running : fs.Running origin ip) (fits : count ≤ data.length)
    (place : bn * BSIZE = off + count) :
    Ensures (writeBlocksPart ip data.length (data.drop count) bn) fs (Advanced origin ip (fs.inode ip).copy.size data off count fs) (Stops origin) := by
  have length : (data.drop count).length = data.length - count := List.length_drop
  have stays : ∀ after, Steady origin ip fs after → after.Agrees ip → ∀ stretch, WriteAt data off stretch → stretch.sized = true →
      stretch.laid data.length = count → Advanced origin ip (fs.inode ip).copy.size data off count fs stretch after := by
    intro after steady agrees stretch place sized laid
    refine ⟨place, sized, Nat.le_of_eq laid.symm, ?_⟩
    rw [laid, laidOver_none]
    exact steady.acted agrees
  unfold writeBlocksPart
  split
  next longer =>
    have more : count + BSIZE < data.length := by omega
    apply pauseOn_spec lenient running
    · intro after steady agrees
      exact stays after steady agrees _ (.blocks count bn more place) rfl (laid_drop fits)
    · apply writeThrough_spec lenient running more place
      intro written running
      exact writeBlocksPart_spec data off (count + BSIZE) (bn + 1) written running (Nat.le_of_lt more)
        (by rw [Nat.add_mul, Nat.one_mul, place, Nat.add_assoc])
  next short =>
    apply pauseOn_spec lenient running
    · intro after steady agrees
      exact stays after steady agrees _ (.last count bn fits (by omega) place) rfl (laid_drop fits)
    · exact writeLastPart_spec lenient running fits place (Nat.not_lt.mp short)
  termination_by data.length - count
  decreasing_by
    simp only [BSIZE] at more ⊢
    omega

theorem writeFirstPart_spec (data : List Byte) (off : Nat) (running : fs.Running origin ip) :
    Ensures (writeFirstPart ip data.length data off) fs (Advanced origin ip (fs.inode ip).copy.size data off 0 fs) (Stops origin) := by
  have start : off / BSIZE * BSIZE + off % BSIZE = off := by rw [Nat.mul_comm]; exact Nat.div_add_mod off BSIZE
  have low : off % BSIZE < BSIZE := Nat.mod_lt _ (by decide)
  have head : data.take (BSIZE - off % BSIZE) = (data.drop 0).take (min data.length (BSIZE - off % BSIZE) - 0) := by
    rw [List.drop_zero, Nat.sub_zero]
    apply List.take_eq_take_iff.mpr
    omega
  unfold writeFirstPart
  dsimp only
  rw [head]
  apply Ensures.bind (writeNext_spec lenient _ _ running start (Nat.zero_le _) (Nat.min_le_left _ _) (by omega))
  intro _ written wrote
  split
  next short =>
    rw [Nat.min_eq_left short] at wrote
    apply (finishWrite_spec lenient wrote.running rfl).weaken
    intro stretch after advanced
    exact Advanced.after_wrote wrote (Nat.zero_le _) advanced
  next long =>
    have reaches : BSIZE - off % BSIZE ≤ data.length := by omega
    rw [Nat.min_eq_right reaches] at wrote
    apply (writeBlocksPart_spec lenient data off (BSIZE - off % BSIZE) (off / BSIZE + 1) written wrote.running reaches (by
      rw [Nat.add_mul, Nat.one_mul]
      omega)).weaken
    intro stretch after advanced
    exact Advanced.after_wrote wrote (Nat.zero_le _) advanced

/-- The call up to its first restart sets the size. -/
theorem writePart_spec (data : List Byte) (off : Nat) (running : fs.Running origin ip) (fits : off + data.length ≤ MAXFILE_SIZE) :
    Ensures (writePart ip data off) fs
      (Advanced origin ip (max (fs.inode ip).copy.size (off + data.length)) data off 0 fs) (Stops origin) := by
  have limit : MAXFILE_SIZE < 2 ^ 62 := by decide
  have whole : sizeT (off + data.length) = off + data.length := sizeT_of_lt (by omega)
  have inside : ¬ off > MAXFILE_SIZE := by omega
  have uncut : ¬ sizeT (off + data.length) > MAXFILE_SIZE := by omega
  unfold writePart
  rw [if_neg inside]
  dsimp only
  rw [if_neg uncut, whole, List.take_of_length_le (Nat.le_refl _)]
  apply Ensures.bind (running.setCopy (fun copy => { copy with size := if copy.size < off + data.length then off + data.length else copy.size })
    (fun _ => rfl) fun _ => rfl)
  intro _ sized set
  obtain ⟨running₁, keeps₁, content₁, -, -, copy₁⟩ := set
  have size₁ : (sized.inode ip).copy.size = max (fs.inode ip).copy.size (off + data.length) := by
    rw [copy₁]
    dsimp only
    split <;> omega
  have before : ∀ {stretch after}, Advanced origin ip (sized.inode ip).copy.size data off 0 sized stretch after →
      Advanced origin ip (max (fs.inode ip).copy.size (off + data.length)) data off 0 fs stretch after := by
    intro stretch after advanced
    obtain ⟨place, isSized, more, acted⟩ := advanced
    rw [keeps₁.inum, content₁, size₁] at acted
    refine ⟨place, isSized, more, ⟨acted.running, keeps₁.trans acted.keeps, acted.size, ?_, fun inum apart => ?_, ?_, acted.agrees⟩⟩
    · have own := acted.own
      rw [keeps₁.inum] at own
      exact own
    · rw [acted.others inum (by rw [keeps₁.inum]; exact apart), content₁]
    · rw [acted.nlink, copy₁]
  apply Ensures.bind (iupdate_roomy running₁ fun roomy => absurd roomy lenient.2)
  intro _ updated both
  have steady := both.1
  have onward : ∀ {stretch after}, Advanced origin ip (updated.inode ip).copy.size data off 0 updated stretch after →
      Advanced origin ip (max (fs.inode ip).copy.size (off + data.length)) data off 0 fs stretch after := by
    intro stretch after advanced
    apply before
    have wrote := steady.wrote
    rw [← laidOver_none (sized.content (sized.inode ip).inum) off data 0] at wrote
    exact Advanced.after_wrote wrote (Nat.le_refl _) advanced
  apply pauseOn_spec lenient steady.running
  · intro after steady' agrees
    apply onward
    refine ⟨.first, rfl, Nat.le_refl _, ?_⟩
    rw [show Stretch.laid data.length (.again (.writeFirst data.length data off)) = 0 from rfl, laidOver_none]
    exact steady'.acted agrees
  · apply (writeFirstPart_spec lenient data off steady.running).weaken
    intro stretch after advanced
    exact onward advanced

/-- One stretch of a write. -/
theorem stretch_write {part : FilePart} (running : fs.Running origin ip) (place : WriteAt data off (.again part))
    (fits : off + data.length ≤ MAXFILE_SIZE) :
    Ensures (FS.stretch ip part) fs
      (Advanced origin ip (if (Stretch.again part).sized then (fs.inode ip).copy.size else max (fs.inode ip).copy.size (off + data.length))
        data off ((Stretch.again part).laid data.length) fs) (Stops origin) := by
  cases place with
  | start => exact writePart_spec lenient data off running fits
  | first => exact writeFirstPart_spec lenient data off running
  | blocks count bn more place =>
    change Ensures _ fs (Advanced origin ip (fs.inode ip).copy.size data off (data.length - (data.drop count).length) fs) _
    rw [laid_drop (by omega)]
    apply writeThrough_spec lenient running more place
    intro written running
    exact writeBlocksPart_spec lenient data off (count + BSIZE) (bn + 1) written running (Nat.le_of_lt more)
      (by rw [Nat.add_mul, Nat.one_mul, place, Nat.add_assoc])
  | last count bn inside short place =>
    change Ensures _ fs (Advanced origin ip (fs.inode ip).copy.size data off (data.length - (data.drop count).length) fs) _
    rw [laid_drop inside]
    apply writeLastPart_spec lenient running inside place
    rw [List.length_drop]
    omega

end FS

/-! What a stretch of a read takes up. -/

namespace FS

/-- The stretch has taken up bytes from `start` on after those in `got`. -/
inductive ReadOn (bytes : Nat → Byte) (got : List Byte) (start nbytes : Nat) : Stretch → Prop where
  | blocks (count inode_blockno : Nat) (more : count + BSIZE < nbytes) (place : inode_blockno * BSIZE = start + count) :
    ReadOn bytes got start nbytes (.again (.readBlocks (got ++ bytesFrom bytes start count) (nbytes - count) inode_blockno))
  | last (count inode_blockno : Nat) (fits : count ≤ nbytes) (short : nbytes ≤ count + BSIZE)
    (place : inode_blockno * BSIZE = start + count) :
    ReadOn bytes got start nbytes (.again (.readLast (got ++ bytesFrom bytes start count) (nbytes - count) inode_blockno))
  | done : ReadOn bytes got start nbytes (.done (.served (got ++ bytesFrom bytes start nbytes)))

theorem bytesFrom_none (bytes : Nat → Byte) (off : Nat) : bytesFrom bytes off 0 = [] := rfl

theorem bytesFrom_length (bytes : Nat → Byte) (off count : Nat) : (bytesFrom bytes off count).length = count := by
  unfold bytesFrom
  rw [List.length_map, List.length_range]

/-- The first bytes, and then the others. -/
theorem ReadOn.after {bytes : Nat → Byte} {got : List Byte} {start nbytes head : Nat} {stretch : Stretch} (fits : head ≤ nbytes)
    (rest : ReadOn bytes (got ++ bytesFrom bytes start head) (start + head) (nbytes - head) stretch) : ReadOn bytes got start nbytes stretch := by
  cases rest with
  | blocks count bn more place =>
    rw [List.append_assoc, bytesFrom_append, Nat.sub_sub]
    exact .blocks (head + count) bn (by omega) (by omega)
  | last count bn inside short place =>
    rw [List.append_assoc, bytesFrom_append, Nat.sub_sub]
    exact .last (head + count) bn (by omega) (by omega) (by omega)
  | done =>
    rw [List.append_assoc, bytesFrom_append, Nat.add_sub_cancel' fits]
    exact .done

variable {origin : Origin} {fs middle after : FS} {ip : Nat} {off : Nat}

/-- A stretch has read on, and the inode has been written back. -/
structure Looked (origin : Origin) (ip : Nat) (got : List Byte) (start nbytes : Nat) (fs : FS) (stretch : Stretch) (after : FS) : Prop where
  steady : Steady origin ip fs after
  agrees : after.Agrees ip
  reads : ReadOn (fs.content (fs.inode ip).inum) got start nbytes stretch

/-- A later time of access leaves the inode as its dinode has it, up to the times. -/
theorem stamp_spec (running : fs.Running origin ip) (agrees : fs.Agrees ip) {answer : FileAnswer} :
    Ensures (do
        let now ← getCurrentTimespec
        modifyCopy ip fun copy => { copy with st_atimespec := now }
        pure (Stretch.done answer)) fs
      (fun stretch after => Steady origin ip fs after ∧ after.Agrees ip ∧ stretch = .done answer) (Stops origin) := by
  apply Ensures.bind (getCurrentTimespec_spec running)
  intro now ticked read
  obtain ⟨steady₁, -, inode₁, store₁⟩ := read
  apply Ensures.bind (steady₁.running.setCopy (fun copy => { copy with st_atimespec := now }) (fun _ => rfl) fun _ => rfl)
  intro _ after set
  obtain ⟨running₂, keeps₂, content₂, -, store₂, copy₂⟩ := set
  rw [ensures_pure]
  have steady₂ : Steady origin ip ticked after := ⟨running₂, keeps₂, content₂, by rw [copy₂], by rw [copy₂]⟩
  have agrees₁ := agrees.congr steady₁.keeps.sb store₁ steady₁.keeps.inum (by rw [inode₁]) (by rw [inode₁]) (by rw [inode₁]) (by rw [inode₁])
  have agrees₂ := agrees₁.congr keeps₂.sb store₂ keeps₂.inum (by rw [copy₂]) (by rw [copy₂]) (by rw [copy₂]) (by rw [copy₂])
  exact ⟨steady₁.trans steady₂, agrees₂, rfl⟩

variable (lenient : ¬ origin.bounded ∧ ¬ origin.roomy)
include lenient

theorem finishRead_spec (running : fs.Running origin ip) (got : List Byte) (start : Nat) :
    Ensures (finishRead ip got) fs (Looked origin ip got start 0 fs) (Stops origin) := by
  unfold finishRead
  apply Ensures.bind (iupdate_roomy running fun roomy => absurd roomy lenient.2)
  intro _ updated both
  have steady := both.1
  apply (stamp_spec steady.running both.2.2.2).weaken
  intro stretch after stamped
  obtain ⟨steady', agrees, rfl⟩ := stamped
  have ends : ReadOn (fs.content (fs.inode ip).inum) got start 0 (.done (.served (got ++ bytesFrom (fs.content (fs.inode ip).inum) start 0))) := .done
  rw [bytesFrom_none, List.append_nil] at ends
  exact ⟨steady.trans steady', agrees, ends⟩

/-- The end of a read of one block: the time is written back. -/
theorem finishShort_spec (running : fs.Running origin ip) (got : List Byte) (start : Nat) :
    Ensures (do
        let now ← getCurrentTimespec
        modifyCopy ip fun copy => { copy with st_atimespec := now }
        iupdate ip
        pure (Stretch.done (.served got))) fs (Looked origin ip got start 0 fs) (Stops origin) := by
  apply Ensures.bind (getCurrentTimespec_spec running)
  intro now ticked read
  obtain ⟨steady₁, -, -, -⟩ := read
  apply Ensures.bind (steady₁.running.setCopy (fun copy => { copy with st_atimespec := now }) (fun _ => rfl) fun _ => rfl)
  intro _ stamped set
  obtain ⟨running₂, keeps₂, content₂, -, -, copy₂⟩ := set
  have steady₂ : Steady origin ip ticked stamped := ⟨running₂, keeps₂, content₂, by rw [copy₂], by rw [copy₂]⟩
  apply Ensures.bind (iupdate_roomy running₂ fun roomy => absurd roomy lenient.2)
  intro _ after updated
  rw [ensures_pure]
  have ends : ReadOn (fs.content (fs.inode ip).inum) got start 0 (.done (.served (got ++ bytesFrom (fs.content (fs.inode ip).inum) start 0))) := .done
  rw [bytesFrom_none, List.append_nil] at ends
  exact ⟨(steady₁.trans steady₂).trans updated.1, updated.2.2.2, ends⟩

/-- A block is read before the rest. -/
theorem readThrough_spec {got : List Byte} {bn offset start nbytes head : Nat} {rest : List Byte → M Stretch} (running : fs.Running origin ip)
    (place : bn * BSIZE + offset = start) (small : offset + head ≤ BSIZE) (fits : head ≤ nbytes)
    (goes : ∀ read, read.Running origin ip → ∀ data,
      Ensures (rest data) read (Looked origin ip (got ++ data) (start + head) (nbytes - head) read) (Stops origin)) :
    Ensures (do
        let data ← readBlock ip bn offset head
        rest data) fs (Looked origin ip got start nbytes fs) (Stops origin) := by
  apply Ensures.bind (readBlock_spec running (fun roomy => absurd roomy lenient.2) (fun bounded => absurd bounded lenient.1) small)
  intro data read both
  obtain ⟨steady, -, dataIs⟩ := both
  rw [place] at dataIs
  apply (goes read steady.running data).weaken
  intro stretch after looked
  obtain ⟨steady', agrees, reads⟩ := looked
  rw [steady.content, steady.keeps.inum, dataIs] at reads
  exact ⟨steady.trans steady', agrees, reads.after fits⟩

theorem readBlocksPart_spec (got : List Byte) (nbytes bn : Nat) (fs : FS) (running : fs.Running origin ip) :
    Ensures (readBlocksPart ip got nbytes bn) fs (Looked origin ip got (bn * BSIZE) nbytes fs) (Stops origin) := by
  have here : got = got ++ bytesFrom (fs.content (fs.inode ip).inum) (bn * BSIZE) 0 := by rw [bytesFrom_none, List.append_nil]
  unfold readBlocksPart
  split
  next more =>
    have fewer : nbytes - BSIZE < nbytes := by
      simp only [BSIZE] at more ⊢
      omega
    apply pauseOn_spec lenient running
    · intro after steady agrees
      refine ⟨steady, agrees, ?_⟩
      have reads : ReadOn (fs.content (fs.inode ip).inum) got (bn * BSIZE) nbytes _ := .blocks 0 bn (by omega) (Nat.add_zero _).symm
      rw [← here] at reads
      exact reads
    · apply readThrough_spec lenient running (Nat.add_zero _) (Nat.le_of_eq (Nat.zero_add _)) (Nat.le_of_lt more)
      intro read running data
      have rest := readBlocksPart_spec (got ++ data) (nbytes - BSIZE) (bn + 1) read running
      rw [Nat.add_mul, Nat.one_mul] at rest
      exact rest
  next short =>
    split
    next some =>
      apply pauseOn_spec lenient running
      · intro after steady agrees
        refine ⟨steady, agrees, ?_⟩
        have reads : ReadOn (fs.content (fs.inode ip).inum) got (bn * BSIZE) nbytes _ := .last 0 bn (Nat.zero_le _) (by omega) (Nat.add_zero _).symm
        rw [← here] at reads
        exact reads
      · apply readThrough_spec lenient running (Nat.add_zero _) (by omega) (Nat.le_refl _)
        intro read running data
        rw [Nat.sub_self]
        exact finishRead_spec lenient running (got ++ data) _
    next none =>
      rw [not_not] at none
      rw [none]
      exact finishRead_spec lenient running got _
  termination_by nbytes
  decreasing_by exact fewer

/-- The call up to its first restart cuts the range to the size. -/
theorem readPart_spec {nbytes : Nat} (running : fs.Running origin ip) :
    Ensures (readPart ip nbytes off) fs
      (fun stretch after => ((fs.inode ip).copy.size < off ∧ stretch = .done (.served []) ∧ after = fs) ∨
        (off ≤ (fs.inode ip).copy.size ∧ Looked origin ip [] off (served (fs.inode ip).copy.size nbytes off) fs stretch after)) (Stops origin) := by
  have start : off / BSIZE * BSIZE + off % BSIZE = off := by rw [Nat.mul_comm]; exact Nat.div_add_mod off BSIZE
  have low : off % BSIZE < BSIZE := Nat.mod_lt _ (by decide)
  unfold readPart
  rw [ensures_bind, ensures_get]
  dsimp only
  split
  next past =>
    rw [ensures_pure]
    exact .inl ⟨past, rfl, rfl⟩
  next inside =>
    rw [show (if sizeT (off + nbytes) > (fs.inode ip).copy.size then
      sizeT (nbytes + 2 ^ 64 - (sizeT (off + nbytes) - (fs.inode ip).copy.size)) else nbytes) =
        served (fs.inode ip).copy.size nbytes off from rfl]
    generalize served (fs.inode ip).copy.size nbytes off = count
    apply Ensures.mono _ (fun _ _ looked => .inr ⟨Nat.not_lt.mp inside, looked⟩) fun _ _ stops => stops
    by_cases short : count ≤ BSIZE - off % BSIZE
    · rw [Nat.min_eq_right short]
      simp only [if_pos short]
      apply readThrough_spec lenient running start (by omega) (Nat.le_refl _)
      intro read running data
      rw [Nat.sub_self]
      exact finishShort_spec lenient running data _
    · rw [Nat.min_eq_left (by omega)]
      simp only [if_neg short]
      apply readThrough_spec lenient running start (by omega) (by omega)
      intro read running data
      have rest := readBlocksPart_spec lenient data (count - (BSIZE - off % BSIZE)) (off / BSIZE + 1) read running
      rw [show (off / BSIZE + 1) * BSIZE = off + (BSIZE - off % BSIZE) by simp only [BSIZE]; omega] at rest
      exact rest

end FS

/-- The places of a read; a byte taken up is one that was `seen` at its place. -/
inductive ReadAt (seen : Nat → Byte → Prop) (limit nbytes off : Nat) : Stretch → Prop where
  | start : ReadAt seen limit nbytes off (.again (.read nbytes off))
  | blocks (got : List Byte) (left inode_blockno : Nat) (more : BSIZE < left) (place : inode_blockno * BSIZE = off + got.length)
    (fits : got.length + left ≤ nbytes) (whole : off + nbytes ≤ limit → got.length + left = nbytes)
    (right : ∀ k value, got[k]? = some value → seen (off + k) value) :
    ReadAt seen limit nbytes off (.again (.readBlocks got left inode_blockno))
  | last (got : List Byte) (left inode_blockno : Nat) (short : left ≤ BSIZE) (place : inode_blockno * BSIZE = off + got.length)
    (fits : got.length + left ≤ nbytes) (whole : off + nbytes ≤ limit → got.length + left = nbytes)
    (right : ∀ k value, got[k]? = some value → seen (off + k) value) :
    ReadAt seen limit nbytes off (.again (.readLast got left inode_blockno))
  | done (data : List Byte) (fits : data.length ≤ nbytes) (whole : off + nbytes ≤ limit → data.length = nbytes)
    (right : ∀ k value, data[k]? = some value → seen (off + k) value) :
    ReadAt seen limit nbytes off (.done (.served data))

namespace FS

theorem bytesFrom_get {bytes : Nat → Byte} {off count k : Nat} {value : Byte} (found : (bytesFrom bytes off count)[k]? = some value) :
    k < count ∧ value = bytes (off + k) := by
  unfold bytesFrom at found
  rw [List.getElem?_map] at found
  obtain ⟨place, listed, rfl⟩ := Option.map_eq_some_iff.mp found
  obtain ⟨inside, rfl⟩ := List.getElem?_eq_some_iff.mp listed
  rw [List.length_range] at inside
  rw [List.getElem_range]
  exact ⟨inside, rfl⟩

/-- What was seen so far and what is read now. -/
theorem seen_append {seen : Nat → Byte → Prop} {bytes : Nat → Byte} {got : List Byte} {off count : Nat}
    (right : ∀ k value, got[k]? = some value → seen (off + k) value) (now : ∀ p, seen p (bytes p)) (k : Nat) (value : Byte)
    (found : (got ++ bytesFrom bytes (off + got.length) count)[k]? = some value) : seen (off + k) value := by
  by_cases before : k < got.length
  · rw [List.getElem?_append_left before] at found
    exact right k value found
  · rw [List.getElem?_append_right (Nat.not_lt.mp before)] at found
    obtain ⟨-, rfl⟩ := bytesFrom_get found
    have place := now (off + k)
    rwa [show off + got.length + (k - got.length) = off + k by omega]

theorem ReadOn.placed {seen : Nat → Byte → Prop} {bytes : Nat → Byte} {got : List Byte} {limit nbytes off left : Nat} {stretch : Stretch}
    (reads : ReadOn bytes got (off + got.length) left stretch) (now : ∀ p, seen p (bytes p)) (fits : got.length + left ≤ nbytes)
    (whole : off + nbytes ≤ limit → got.length + left = nbytes) (right : ∀ k value, got[k]? = some value → seen (off + k) value) :
    ReadAt seen limit nbytes off stretch := by
  have length : ∀ count, (got ++ bytesFrom bytes (off + got.length) count).length = got.length + count := by
    intro count
    rw [List.length_append, bytesFrom_length]
  have sees : ∀ count k value, (got ++ bytesFrom bytes (off + got.length) count)[k]? = some value → seen (off + k) value :=
    fun count => seen_append right now
  cases reads with
  | blocks count bn more place =>
    apply ReadAt.blocks
    · omega
    · rw [length]
      omega
    · rw [length]
      omega
    · intro inside
      rw [length]
      have := whole inside
      omega
    · exact sees count
  | last count bn inside short place =>
    apply ReadAt.last
    · omega
    · rw [length]
      omega
    · rw [length]
      omega
    · intro inside
      rw [length]
      have := whole inside
      omega
    · exact sees count
  | done =>
    apply ReadAt.done
    · rw [length]
      exact fits
    · rw [length]
      exact whole
    · exact sees left

variable {origin : Origin} {fs : FS} {ip off : Nat}

/-- One stretch of a read: nothing is seen to change. -/
theorem stretch_read {seen : Nat → Byte → Prop} {limit nbytes : Nat} {part : FilePart} (lenient : ¬ origin.bounded ∧ ¬ origin.roomy)
    (running : fs.Running origin ip) (place : ReadAt seen limit nbytes off (.again part))
    (now : ∀ p, seen p (fs.content (fs.inode ip).inum p)) (grown : limit ≤ (fs.inode ip).copy.size) (space : limit < 2 ^ 64) :
    Ensures (stretch ip part) fs
      (fun stretch after => Steady origin ip fs after ∧ (after.Agrees ip ∨ after = fs) ∧ ReadAt seen limit nbytes off stretch) (Stops origin) := by
  -- A resumed read goes on after the bytes it has.
  have resumes : ∀ {got : List Byte} {left : Nat} {program : M Stretch}, got.length + left ≤ nbytes →
      (off + nbytes ≤ limit → got.length + left = nbytes) → (∀ k value, got[k]? = some value → seen (off + k) value) →
      Ensures program fs (Looked origin ip got (off + got.length) left fs) (Stops origin) →
      Ensures program fs (fun stretch after => Steady origin ip fs after ∧ (after.Agrees ip ∨ after = fs) ∧
        ReadAt seen limit nbytes off stretch) (Stops origin) := by
    intro got left program fits whole right reads
    apply reads.weaken
    intro stretch after looked
    exact ⟨looked.steady, .inl looked.agrees, looked.reads.placed now fits whole right⟩
  cases place with
  | start =>
    apply (readPart_spec lenient running).weaken
    intro stretch after either
    cases either with
    | inl past =>
      obtain ⟨past, rfl, rfl⟩ := past
      refine ⟨.refl running, .inr rfl, .done [] (Nat.zero_le _) ?_ ?_⟩
      · intro inside
        omega
      · intro k value found
        cases found
    | inr looked =>
      obtain ⟨start, steady, agrees, reads⟩ := looked
      refine ⟨steady, .inl agrees, ?_⟩
      have reads : ReadOn (fs.content (fs.inode ip).inum) [] (off + ([] : List Byte).length) _ stretch := reads
      apply reads.placed now
      · rw [List.length_nil, Nat.zero_add]
        exact served_le start
      · intro inside
        rw [List.length_nil, Nat.zero_add, served_eq start (by omega)]
        omega
      · intro k value found
        cases found
  | blocks got left bn more place fits whole right =>
    apply resumes fits whole right
    apply readThrough_spec lenient running (by rw [← place, Nat.add_zero]) (Nat.le_of_eq (Nat.zero_add BSIZE)) (Nat.le_of_lt more)
    intro read running data
    have rest := readBlocksPart_spec lenient (got ++ data) (left - BSIZE) (bn + 1) read running
    rw [Nat.add_mul, Nat.one_mul, place] at rest
    exact rest
  | last got left bn short place fits whole right =>
    apply resumes fits whole right
    apply readThrough_spec lenient running (by rw [← place, Nat.add_zero]) (by omega) (Nat.le_refl _)
    intro read running data
    rw [Nat.sub_self]
    exact finishRead_spec lenient running (got ++ data) _

/-! A stretch logs, and commits nothing. -/

theorem pauseOn_uses {ip nwrote count : Nat} {part : FilePart} {rest : M Stretch} (uses : UsesLog count rest) :
    UsesLog (count + 1) (pauseOn ip nwrote part rest) := by
  apply UsesLog.andThen .get
  intro _
  apply UsesLog.ite
  · exact ((iupdate_uses ip).ending fun _ => .pure _).mono (Nat.le_add_left 1 count)
  · exact uses.mono (Nat.le_add_right count 1)

theorem finishWrite_uses (ip nbytes : Nat) : UsesLog 1 (finishWrite ip nbytes) :=
  .andThen (touch_uses ip) fun _ => .ending (iupdate_uses ip) fun _ => .pure _

theorem writeLastPart_uses (ip nbytes : Nat) (data : List Byte) (bn : Nat) : UsesLog 13 (writeLastPart ip nbytes data bn) := by
  unfold writeLastPart
  dsimp only
  apply UsesLog.ite
  · exact (writeBlock_uses ip bn 0 data).bind fun _ => finishWrite_uses ip nbytes
  · exact (finishWrite_uses ip nbytes).mono (by decide)

theorem writeBlocksPart_uses (ip nbytes : Nat) (data : List Byte) (bn : Nat) :
    UsesLog (13 * data.length + 14) (writeBlocksPart ip nbytes data bn) := by
  unfold writeBlocksPart
  split
  next more =>
    have shorter : (data.drop BSIZE).length < data.length := by
      rw [List.length_drop]
      simp only [BSIZE] at more ⊢
      omega
    exact (pauseOn_uses ((writeBlock_uses ip bn 0 _).bind fun _ => writeBlocksPart_uses ip nbytes (data.drop BSIZE) (bn + 1))).mono (by omega)
  next => exact (pauseOn_uses (writeLastPart_uses ip nbytes data bn)).mono (by omega)
  termination_by data.length
  decreasing_by exact shorter

theorem writeFirstPart_uses (ip nbytes : Nat) (data : List Byte) (off : Nat) : UsesLog (13 * data.length + 26) (writeFirstPart ip nbytes data off) := by
  unfold writeFirstPart
  dsimp only
  apply UsesLog.seq 12 (13 * data.length + 14) (by omega) (writeBlock_uses ip _ _ _)
  intro _
  apply UsesLog.ite
  · exact (finishWrite_uses ip nbytes).mono (by omega)
  · have shorter : (data.drop (BSIZE - off % BSIZE)).length ≤ data.length := by
      rw [List.length_drop]
      omega
    exact (writeBlocksPart_uses ip nbytes _ _).mono (by omega)

theorem writePart_uses (ip : Nat) (data : List Byte) (off : Nat) : UsesLog (13 * data.length + 28) (writePart ip data off) := by
  unfold writePart
  apply UsesLog.ite
  · exact .pure _
  · dsimp only
    generalize (if sizeT (off + data.length) > MAXFILE_SIZE then _ else data.length) = nbytes
    have shorter : (data.take nbytes).length ≤ data.length := List.length_take_le' _ _
    apply UsesLog.andThen (modifyCopy_uses ip _)
    intro _
    apply UsesLog.seq 1 (13 * data.length + 27) (by omega) (iupdate_uses ip)
    intro _
    exact (pauseOn_uses (writeFirstPart_uses ip nbytes _ off)).mono (by omega)

theorem finishRead_uses (ip : Nat) (got : List Byte) : UsesLog 1 (finishRead ip got) :=
  .ending (iupdate_uses ip) fun _ => .andThen getCurrentTimespec_uses fun _ => .andThen (modifyCopy_uses ip _) fun _ => .pure _

theorem readBlocksPart_uses (ip : Nat) (got : List Byte) (nbytes bn : Nat) : UsesLog (12 * nbytes + 14) (readBlocksPart ip got nbytes bn) := by
  unfold readBlocksPart
  split
  next more =>
    have fewer : nbytes - BSIZE < nbytes := by
      simp only [BSIZE] at more ⊢
      omega
    exact (pauseOn_uses ((readBlock_uses ip bn 0 BSIZE).bind fun data =>
      readBlocksPart_uses ip (got ++ data) (nbytes - BSIZE) (bn + 1))).mono (by omega)
  next =>
    apply UsesLog.ite
    · exact (pauseOn_uses ((readBlock_uses ip bn 0 nbytes).bind fun data => finishRead_uses ip (got ++ data))).mono (by omega)
    · exact (finishRead_uses ip got).mono (by omega)
  termination_by nbytes
  decreasing_by exact fewer

/-- A range that wraps is cut below `2 ^ 64`. -/
theorem readPart_uses (ip nbytes off : Nat) : UsesLog (12 * (nbytes + 2 ^ 64) + 26) (readPart ip nbytes off) := by
  unfold readPart
  apply UsesLog.andThen .get
  intro fs
  dsimp only
  apply UsesLog.ite
  · exact .pure _
  · have bounded : (if sizeT (off + nbytes) > (fs.inode ip).copy.size then
        sizeT (nbytes + 2 ^ 64 - (sizeT (off + nbytes) - (fs.inode ip).copy.size)) else nbytes) ≤ nbytes + 2 ^ 64 := by
      split
      next =>
        have := Nat.mod_lt (nbytes + 2 ^ 64 - (sizeT (off + nbytes) - (fs.inode ip).copy.size)) (show 0 < 2 ^ 64 by decide)
        unfold sizeT at this ⊢
        omega
      next => omega
    generalize (if sizeT (off + nbytes) > (fs.inode ip).copy.size then _ else nbytes) = count at bounded
    apply UsesLog.seq 11 (12 * (nbytes + 2 ^ 64) + 15) (by omega) (readBlock_uses ip _ _ _)
    intro head
    apply UsesLog.ite
    · exact (UsesLog.andThen getCurrentTimespec_uses fun _ => .andThen (modifyCopy_uses ip _) fun _ =>
        .ending (iupdate_uses ip) fun _ => .pure _).mono (by omega)
    · exact (readBlocksPart_uses ip head _ _).mono (by omega)

/-- The number of blocks is bounded for each stretch. -/
theorem stretch_uses (ip : Nat) (part : FilePart) : ∃ count, UsesLog count (stretch ip part) := by
  cases part with
  | write data off => exact ⟨_, writePart_uses ip data off⟩
  | writeFirst nbytes data off => exact ⟨_, writeFirstPart_uses ip nbytes data off⟩
  | writeBlocks nbytes data bn => exact ⟨_, (writeBlock_uses ip bn 0 _).bind fun _ => writeBlocksPart_uses ip nbytes _ _⟩
  | writeLast nbytes data bn => exact ⟨_, writeLastPart_uses ip nbytes data bn⟩
  | read nbytes off => exact ⟨_, readPart_uses ip nbytes off⟩
  | readBlocks got nbytes bn => exact ⟨_, (readBlock_uses ip bn 0 _).bind fun _ => readBlocksPart_uses ip _ _ _⟩
  | readLast got nbytes bn => exact ⟨_, (readBlock_uses ip bn 0 _).bind fun _ => finishRead_uses ip _⟩

end FS
end Myfuse
