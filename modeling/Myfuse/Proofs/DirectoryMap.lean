import Myfuse.File
import Myfuse.Proofs.BlockMap
import Myfuse.Proofs.DirectoryFormat
import Myfuse.Proofs.EntryTable
import Myfuse.Proofs.FileBytes
import Myfuse.Proofs.FileLimit

/-! A directory as a finite map: what `dirlookup`, `dirlink` and clearing an entry
do to its slots, and what any sequence of them makes of an empty directory. -/

namespace Myfuse
open Library Library.Exec

namespace FS
variable {origin : Origin} {start fs middle after : FS} {dp : Nat} {slots : Dirents}

/-- A write that starts inside the bytes or at their end. -/
theorem bytesFrom_overlay_whole (bytes : Nat → Byte) {off size : Nat} (data : List Byte) (inside : off ≤ size) :
    bytesFrom (overlay bytes off data) 0 (max size (off + data.length)) =
      (bytesFrom bytes 0 size).take off ++ data ++ (bytesFrom bytes 0 size).drop (off + data.length) := by
  have lengths : ∀ bytes off count, (bytesFrom bytes off count).length = count := fun _ _ _ => by simp [bytesFrom]
  have values : ∀ bytes off count p (inside : p < (bytesFrom bytes off count).length), (bytesFrom bytes off count)[p] = bytes (off + p) :=
    fun _ _ _ _ _ => by simp [bytesFrom]
  have taken : ((bytesFrom bytes 0 size).take off).length = off := by rw [List.length_take, lengths, Nat.min_eq_left inside]
  refine List.ext_getElem ?_ fun p low high => ?_
  · rw [List.length_append, List.length_append, taken, List.length_drop, lengths, lengths]
    omega
  · rw [values, Nat.zero_add, overlay]
    by_cases first : p < off
    · rw [if_neg (by omega), List.getElem_append_left (by rw [List.length_append, taken]; omega),
        List.getElem_append_left (by rw [taken]; exact first), List.getElem_take, values, Nat.zero_add]
    · by_cases second : p < off + data.length
      · rw [if_pos ⟨by omega, second⟩, List.getElem_append_left (by rw [List.length_append, taken]; exact second),
          List.getElem_append_right (by rw [taken]; omega)]
        simp only [taken]
        exact (List.getElem_eq_getD _).symm
      · rw [if_neg (by omega), List.getElem_append_right (by rw [List.length_append, taken]; omega), List.getElem_drop, values]
        congr 1
        rw [List.length_append, taken]
        omega

/-- The bytes of the file `dp` are these slots, no more than the loops over them reach. -/
structure Directory (fs : FS) (dp : Nat) (slots : Dirents) : Prop where
  size : (fs.inode dp).copy.size = direntSize * slots.length
  bytes : bytesFrom (fs.content (fs.inode dp).inum) 0 (direntSize * slots.length) = direntsBytes slots
  few : slots.length ≤ MAXDIRENTS

theorem Directory.steady (directory : fs.Directory dp slots) (steady : Steady origin dp fs after) : after.Directory dp slots where
  size := steady.size.trans directory.size
  bytes := by rw [steady.content, steady.keeps.inum, directory.bytes]
  few := directory.few

theorem Directory.same (directory : fs.Directory dp slots) (table : fs.TableOk) (live : fs.Live dp) (same : SameInUse fs after) :
    after.Directory dp slots where
  size := by rw [same.inode dp live, directory.size]
  bytes := by rw [same.inode dp live, (same.sameLoaded table).content table, directory.bytes]
  few := directory.few

theorem Directory.relock (directory : fs.Directory dp slots) (table : fs.TableOk) (locked : Bool) : (fs.setLocked dp locked).Directory dp slots where
  size := by rw [setLocked_self, directory.size]
  bytes := by rw [setLocked_self, (setLocked_same table dp locked).content table, directory.bytes]
  few := directory.few

theorem maxDirents_small : direntSize * MAXDIRENTS = 2 ^ 31 := by decide

theorem Directory.small (directory : fs.Directory dp slots) : (fs.inode dp).copy.size ≤ 2 ^ 31 := by
  rw [directory.size, ← maxDirents_small]
  exact Nat.mul_le_mul_left _ directory.few

/-- The whole directory is read, unless the read ends the process; the dinode is written back. -/
theorem readDirectory_agrees (plain : origin.Plain) (running : fs.Running origin dp) (directory : fs.Directory dp slots) :
    Ensures (inodeReadNbytesLocked dp (fs.inode dp).copy.size 0) fs
      (fun data after => Steady origin dp fs after ∧ (after.Agrees dp ∨ after = fs) ∧ data = direntsBytes slots)
      fun reason after => inodeReadNbytesLocked dp (fs.inode dp).copy.size 0 fs = (.error reason, after) := by
  have small := directory.small
  refine ensures_of_forall (fun data after found => ?_) fun _ _ found => found
  obtain ⟨steady, agrees, dataIs⟩ := (inodeReadNbytesLocked_spec running (fun roomy => absurd roomy plain.roomy)
    fun bounded => absurd bounded plain.bounded).returned found
  rw [if_neg (Nat.not_lt_zero _), served_eq (Nat.zero_le _) (by omega), Nat.sub_zero, Nat.min_self, directory.size, directory.bytes] at dataIs
  exact ⟨steady, agrees, dataIs⟩

theorem readDirectory_spec (plain : origin.Plain) (running : fs.Running origin dp) (directory : fs.Directory dp slots) :
    Ensures (inodeReadNbytesLocked dp (fs.inode dp).copy.size 0) fs
      (fun data after => Steady origin dp fs after ∧ data = direntsBytes slots)
      fun reason after => inodeReadNbytesLocked dp (fs.inode dp).copy.size 0 fs = (.error reason, after) :=
  (readDirectory_agrees plain running directory).weaken fun _ _ read => ⟨read.1, read.2.2⟩

theorem findDirent_directory (directory : fs.Directory dp slots) (name : Name) :
    findDirent (direntsBytes slots) name (direntCount (fs.inode dp).copy.size) 0 =
      some ((slots.lookup (.of name) 0).map fun found => (found.1.1, direntSize * found.2)) := by
  have found := findDirent_slots [] name slots 0 rfl
  rw [directory.size, direntCount_slots directory.few]
  exact found

/-- What `dirlookup` answers: the inode is got from the state after the read. -/
def Answers (origin : Origin) (dp : Nat) (fs : FS) (found : Option (Inum × Nat)) (answer : Option (Nat × Nat)) (after : FS) : Prop :=
  ∃ middle, Steady origin dp fs middle ∧ match found with
    | none => answer = none ∧ after = middle
    | some (inum, place) => ∃ ip, answer = some (ip, direntSize * place) ∧ Got inum.1 middle ip after

/-- Only the read of the directory stops it, which writes the dinode back. -/
theorem dirlookup_agrees (plain : origin.Plain) (running : fs.Running origin dp) (directory : fs.Directory dp slots) (name : Name) :
    Ensures (dirlookup dp name) fs
      (fun answer after => ∃ middle, Steady origin dp fs middle ∧ (middle.Agrees dp ∨ middle = fs) ∧
        ((slots.toMap (.of name) = none ∧ answer = none ∧ after = middle) ∨
          ∃ inum place ip, slots.lookup (.of name) 0 = some (inum, place) ∧ answer = some (ip, direntSize * place) ∧ Got inum.1 middle ip after))
      fun reason after => inodeReadNbytesLocked dp (fs.inode dp).copy.size 0 fs = (.error reason, after) := by
  unfold dirlookup
  rw [ensures_bind, ensures_get]
  dsimp only
  refine Ensures.bind (readDirectory_agrees plain running directory) ?_
  rintro data middle ⟨steady, agrees, rfl⟩
  rw [if_neg (by rw [length_direntsBytes, directory.size]; exact not_not.mpr rfl), findDirent_directory directory]
  cases found : slots.lookup (.of name) 0 with
  | none => exact (ensures_pure _).mpr ⟨middle, steady, agrees, .inl ⟨by rw [Slots.toMap, found]; rfl, rfl, rfl⟩⟩
  | some entry =>
    refine Ensures.bind ((iget_spec (Nat.zero_lt_of_lt steady.running.loaded.1.1) entry.1.1).mono (fun _ _ got => got) fun _ _ => False.elim) ?_
    intro ip after got
    exact (ensures_pure _).mpr ⟨middle, steady, agrees, .inr ⟨entry.1, entry.2, ip, rfl, rfl, got⟩⟩

theorem dirlookup_spec (plain : origin.Plain) (running : fs.Running origin dp) (directory : fs.Directory dp slots) (name : Name) :
    Ensures (dirlookup dp name) fs (Answers origin dp fs (slots.lookup (.of name) 0))
      fun reason after => inodeReadNbytesLocked dp (fs.inode dp).copy.size 0 fs = (.error reason, after) := by
  apply (dirlookup_agrees plain running directory name).weaken
  intro answer after looked
  obtain ⟨middle, steady, -, ⟨missing, rfl, rfl⟩ | ⟨inum, place, ip, found, rfl, got⟩⟩ := looked
  · refine ⟨_, steady, ?_⟩
    rw [(Slots.lookup_eq_none 0).mpr (Slots.toMap_eq_none.mp missing)]
    exact ⟨rfl, rfl⟩
  · refine ⟨middle, steady, ?_⟩
    rw [found]
    exact ⟨ip, rfl, got⟩

/-- The first free slot, or the place after the last; past the largest directory no offset is left. -/
theorem dirlinkOffset_spec (plain : origin.Plain) (running : fs.Running origin dp) (directory : fs.Directory dp slots) :
    Ensures (dirlinkOffset dp) fs
      (fun off after => Steady origin dp fs after ∧ off = if slots.firstFree < MAXDIRENTS then direntSize * slots.firstFree else 2 ^ 64 - 2 ^ 31)
      fun reason after => inodeReadNbytesLocked dp (fs.inode dp).copy.size 0 fs = (.error reason, after) := by
  unfold dirlinkOffset
  rw [ensures_bind, ensures_get]
  dsimp only
  split
  next some =>
    refine Ensures.bind (readDirectory_spec plain running directory) ?_
    rintro data middle ⟨steady, rfl⟩
    have nonempty : slots ≠ [] := by
      rintro rfl
      exact some directory.size
    obtain ⟨last, found, inside⟩ := emptyDirent_slots [] slots 0 0 rfl fun empty => absurd empty nonempty
    rw [List.nil_append, length_direntsBytes] at inside
    rw [if_neg (by rw [length_direntsBytes, directory.size]; exact not_not.mpr rfl)]
    have count : direntCount (fs.inode dp).copy.size = slots.length := by rw [directory.size, direntCount_slots directory.few]
    have found : emptyDirent (direntsBytes slots) (direntCount (fs.inode dp).copy.size) 0 0 = Option.some (direntSize * slots.firstFree, last) := by
      rw [count]
      rw [Nat.zero_add] at found
      exact found
    rw [found]
    dsimp only
    rw [if_neg (by rw [directory.size]; exact Nat.not_lt.mpr inside), ensures_pure]
    refine ⟨steady, ?_⟩
    have below : direntSize * slots.firstFree < 2 ^ 31 ↔ slots.firstFree < MAXDIRENTS := by
      rw [← maxDirents_small]
      exact Nat.mul_lt_mul_left (by decide)
    simp only [below]
  next none =>
    have empty : slots = [] := by
      rw [not_not, directory.size] at none
      exact List.eq_nil_of_length_eq_zero ((Nat.mul_eq_zero.mp none).resolve_left (by decide))
    rw [ensures_pure, empty]
    exact ⟨.refl running, rfl⟩

/-- The directory goes on with these slots. -/
structure DirectoryTo (origin : Origin) (dp : Nat) (fs : FS) (slots : Dirents) (after : FS) : Prop where
  running : after.Running origin dp
  inum : (after.inode dp).inum = (fs.inode dp).inum
  outstanding : after.log.outstanding = fs.log.outstanding
  directory : after.Directory dp slots

theorem Steady.directoryTo (steady : Steady origin dp fs after) (directory : fs.Directory dp slots) : DirectoryTo origin dp fs slots after :=
  ⟨steady.running, steady.keeps.inum, steady.keeps.outstanding, directory.steady steady⟩

namespace DirectoryTo

theorem trans {slots' : Dirents} (first : DirectoryTo origin dp fs slots' middle) (second : DirectoryTo origin dp middle slots after) :
    DirectoryTo origin dp fs slots after :=
  ⟨second.running, second.inum.trans first.inum, second.outstanding.trans first.outstanding, second.directory⟩

/-- Entries that are not in use may change. -/
theorem same (plain : origin.Plain) (before : DirectoryTo origin dp fs slots middle) (same : SameInUse middle after) :
    DirectoryTo origin dp fs slots after where
  running := ((same.sameLoaded before.running.volume.table).usable before.running.usable).running plain ((same.loaded dp).mpr before.running.loaded)
    (by rw [same.rest]; exact before.running.op.inOp)
  inum := by rw [same.inode dp before.running.loaded.1, before.inum]
  outstanding := by rw [same.rest, before.outstanding]
  directory := before.directory.same before.running.volume.table before.running.loaded.1 same

end DirectoryTo

/-- One slot is written. -/
theorem writeSlot_acts {place : Nat} (plain : origin.Plain) (running : fs.Running origin dp) (directory : fs.Directory dp slots)
    (inside : place ≤ slots.length) (small : place < MAXDIRENTS) (slot : Option (DirName × Inum)) :
    Ensures (inodeWriteNbytesLocked dp (slotBytes slot) (direntSize * place)) fs
      (fun count after => count = direntSize ∧ (∃ size bytes, Acted origin dp fs size bytes after) ∧
        DirectoryTo origin dp fs (slots.take place ++ slot :: slots.drop (place + 1)) after)
      fun reason _ => reason.isUpper = false := by
  have limit : direntSize * place + direntSize ≤ MAXFILE_SIZE := by
    have := Nat.mul_le_mul_left direntSize (Nat.succ_le_of_lt small)
    rw [maxDirents_small, Nat.mul_succ] at this
    exact Nat.le_trans this (by decide)
  have length := length_slotBytes slot
  have below : StaysBelow dp (inodeWriteNbytesLocked dp (slotBytes slot) (direntSize * place)) := by
    refine inodeWriteNbytesLocked_below ?_ ?_
    · rw [length]
      exact Nat.lt_of_le_of_lt limit (by decide)
    · refine Nat.ne_of_lt (Nat.lt_of_lt_of_le ?_ limit)
      exact Nat.lt_add_of_pos_right (by decide)
  have limited : OnEntry dp Limited fs := ⟨running.loaded.2, Nat.le_trans directory.small (by decide)⟩
  refine ((inodeWriteNbytesLocked_spec running (fun roomy => absurd roomy plain.roomy) (Nat.le_trans (Nat.le_add_right _ _) limit)
    (fun bounded => absurd bounded plain.bounded) (by rw [length]; decide)).and (below fs limited)).mono ?_ fun _ _ both => both.2.2.2
  rintro count after ⟨⟨countIs, acted, -⟩, -⟩
  have all : count = direntSize := by
    rw [countIs, length]
    omega
  rw [all, List.take_of_length_le (Nat.le_of_eq length)] at acted
  have order := Nat.mul_le_mul_left direntSize inside
  have size : max (fs.inode dp).copy.size (direntSize * place + direntSize) =
      direntSize * (slots.take place ++ slot :: slots.drop (place + 1)).length := by
    rw [directory.size, List.length_append, List.length_cons, List.length_take, List.length_drop, Nat.min_eq_left inside, ← Nat.mul_succ,
      Nat.mul_max_mul_left]
    congr 1
    omega
  refine ⟨all, ⟨_, _, acted⟩, acted.running, acted.keeps.inum, acted.keeps.outstanding, acted.size.trans size, ?_, ?_⟩
  · have whole := bytesFrom_overlay_whole (fs.content (fs.inode dp).inum) (slotBytes slot) order
    rw [length, directory.bytes, ← directory.size, size] at whole
    rw [acted.keeps.inum, acted.own, whole, direntsBytes_split slots place slot inside, Nat.mul_succ]
  · have few := directory.few
    simp only [List.length_append, List.length_cons, List.length_take, List.length_drop]
    omega

theorem writeSlot_spec {place : Nat} (plain : origin.Plain) (running : fs.Running origin dp) (directory : fs.Directory dp slots)
    (inside : place ≤ slots.length) (small : place < MAXDIRENTS) (slot : Option (DirName × Inum)) :
    Ensures (inodeWriteNbytesLocked dp (slotBytes slot) (direntSize * place)) fs
      (fun count after => count = direntSize ∧ Keeps dp fs after ∧
        DirectoryTo origin dp fs (slots.take place ++ slot :: slots.drop (place + 1)) after)
      fun reason _ => reason.isUpper = false := by
  apply (writeSlot_acts plain running directory inside small slot).weaken
  intro _ _ wrote
  obtain ⟨all, ⟨_, _, acted⟩, wrote⟩ := wrote
  exact ⟨all, acted.keeps, wrote⟩

/-- A read of the directory stops for no reason of the layers above. -/
theorem readDirectory_stops (running : fs.Running origin dp) (directory : fs.Directory dp slots) {reason : Exit}
    (stopped : inodeReadNbytesLocked dp (fs.inode dp).copy.size 0 fs = (.error reason, after)) : reason.isUpper = false := by
  have small := directory.small
  have limited : OnEntry dp Limited fs := ⟨running.loaded.2, Nat.le_trans small (by decide)⟩
  have within : 0 ≠ MAXFILE_SIZE ∨ (fs.inode dp).copy.size ≠ MAXFILE_SIZE := .inl (by decide)
  exact ((inodeReadNbytesLocked_below (by omega) limited within).stopped stopped).2.2

/-- A present name is left alone; another one takes the first free slot or a new one, if the loops still reach it. -/
theorem dirlink_spec (plain : origin.Plain) (running : fs.Running origin dp) (directory : fs.Directory dp slots) (name : Name) (inum : Inum) :
    Ensures (dirlink dp name inum.1) fs
      (fun result after => if DirName.of name ∈ slots.keys then result = -1 ∧ DirectoryTo origin dp fs slots after
        else result = 0 ∧ DirectoryTo origin dp fs (slots.put (.of name, inum)) after)
      fun reason _ => reason.isUpper = true →
        DirName.of name ∉ slots.keys ∧ reason = .errExit .dirlinkWrite ∧ slots.length = MAXDIRENTS ∧ none ∉ slots := by
  have lower : ∀ {reason : Exit} {goal : Prop}, reason.isUpper = false → reason.isUpper = true → goal := fun low high => by
    rw [low] at high
    cases high
  unfold dirlink
  refine Ensures.bind ((dirlookup_spec plain running directory name).mono (fun _ _ answers => answers)
    fun reason after stopped => lower (readDirectory_stops running directory stopped)) ?_
  rintro answer looked ⟨middle, steady, answers⟩
  have kept := steady.directoryTo directory
  cases found : slots.lookup (.of name) 0 with
  | some entry =>
    rw [found] at answers
    obtain ⟨ip, rfl, got⟩ := answers
    have present : DirName.of name ∈ slots.keys := by
      by_contra absent
      rw [(Slots.lookup_eq_none 0).mpr absent] at found
      cases found
    refine Ensures.bind (got.puts.mono (fun _ _ same => same) fun _ _ => False.elim) fun _ after same => ?_
    rw [ensures_pure, if_pos present]
    exact ⟨rfl, kept.same plain same⟩
  | none =>
    rw [found] at answers
    obtain ⟨rfl, rfl⟩ := answers
    have absent := (Slots.lookup_eq_none 0).mp found
    simp only [if_neg absent]
    refine Ensures.bind ((dirlinkOffset_spec plain kept.running kept.directory).mono (fun _ _ same => same)
      fun reason after stopped => lower (readDirectory_stops kept.running kept.directory stopped)) ?_
    rintro off current ⟨steady', rfl⟩
    have kept := kept.trans (steady'.directoryTo kept.directory)
    by_cases room : slots.firstFree < MAXDIRENTS
    · rw [if_pos room, direntBytes_of]
      refine Ensures.bind ((writeSlot_spec plain kept.running kept.directory slots.firstFree_le room (some (.of name, inum))).mono
        (fun _ _ wrote => wrote) fun _ _ => lower) ?_
      rintro count after ⟨rfl, -, wrote⟩
      rw [if_neg (not_not.mpr rfl), ensures_pure, Slots.put_eq]
      exact ⟨rfl, kept.trans wrote⟩
    · have few := directory.few
      have first := slots.firstFree_le
      have past : 2 ^ 64 - 2 ^ 31 > MAXFILE_SIZE := by decide
      unfold inodeWriteNbytesLocked
      rw [if_neg room, if_pos past, ensures_bind, ensures_pure, if_pos (by decide), ensures_stop]
      refine fun _ => ⟨absent, rfl, by omega, fun free => ?_⟩
      have inside := slots.firstFree_lt_iff.mpr free
      omega

/-- What `myfuse_unlink` does to an entry: it is looked up and overwritten, and the reference is given back. -/
def unlinkDirent (dp : Nat) (name : Name) : M Unit := do
  match ← clearDirent dp name with
  | none => pure ()
  | some found_ip => iput found_ip

/-- The slot found is overwritten, whether the reference is given back before or after. -/
theorem clearSlot_spec {place ip : Nat} {name : DirName} {inum : Inum} (plain : origin.Plain) (running : fs.Running origin dp)
    (directory : fs.Directory dp slots) (found : slots.lookup name 0 = some (inum, place)) (got : Got inum.1 fs ip middle) :
    Ensures (do
      iput ip
      let _ ← inodeWriteNbytesLocked dp zeroDirent (direntSize * place)
      pure ()) middle (fun _ => DirectoryTo origin dp fs (slots.clear name)) (fun reason _ => reason.isUpper = false) ∧
    Ensures (do
      let _ ← inodeWriteNbytesLocked dp zeroDirent (direntSize * place)
      iput ip) middle (fun _ => DirectoryTo origin dp fs (slots.clear name)) fun reason _ => reason.isUpper = false := by
  obtain ⟨-, here⟩ := Slots.lookup_found found
  obtain ⟨inside, -⟩ := List.getElem?_eq_some_iff.mp here
  rw [Nat.sub_zero] at inside
  obtain ⟨back, same, rfl, unread⟩ := got.back
  have before := (DirectoryTo.mk running rfl rfl directory).same plain same
  have wrote := writeSlot_spec plain before.running before.directory (Nat.le_of_lt inside) (Nat.lt_of_lt_of_le inside directory.few) none
  have cleared := Slots.clear_eq found
  rw [Nat.sub_zero] at cleared
  rw [← cleared] at wrote
  constructor
  · refine ensures_bind.mpr ((ensures_of_ok (iput_refer unread)).mpr ?_)
    exact Ensures.bind wrote fun _ after wrote => (ensures_pure _).mpr (before.trans wrote.2.2)
  · have referred : Referred ip dp back (back.refer ip) :=
      ⟨rfl, before.running.op.committing, before.running.loaded.1.2, before.running.loaded.2⟩
    have alike := (referred_outside ip dp).inodeWriteNbytesLocked zeroDirent (direntSize * place) _ _ referred
    refine Ensures.bind ((alike.ensures wrote).mono (fun _ _ wrote => wrote) fun reason _ stopped => stopped.elim fun _ both => both.1) ?_
    rintro _ _ ⟨after, ⟨-, keeps, wrote⟩, ⟨rfl, -, -, -⟩⟩
    have entry : (after.inode ip).ref = (back.inode ip).ref ∧ (after.inode ip).valid = (back.inode ip).valid := by
      by_cases own : ip = dp
      · rw [own]
        exact ⟨keeps.ref, keeps.valid⟩
      · rw [keeps.others ip own]
        exact ⟨rfl, rfl⟩
    exact (ensures_of_ok (iput_refer fun none => entry.2.trans (unread (entry.1 ▸ none)))).mpr (before.trans wrote)

/-- A name that is missing leaves the slots; the reference is given back last. -/
theorem unlinkDirent_spec (plain : origin.Plain) (running : fs.Running origin dp) (directory : fs.Directory dp slots) (name : Name) :
    Ensures (unlinkDirent dp name) fs (fun _ => DirectoryTo origin dp fs (slots.clear (.of name))) fun reason _ => reason.isUpper = false := by
  unfold unlinkDirent clearDirent
  rw [ensures_bind]
  refine Ensures.bind ((dirlookup_spec plain running directory name).mono (fun _ _ answers => answers)
    fun reason after stopped => readDirectory_stops running directory stopped) ?_
  rintro answer looked ⟨middle, steady, answers⟩
  have kept := steady.directoryTo directory
  cases found : slots.lookup (.of name) 0 with
  | none =>
    rw [found] at answers
    obtain ⟨rfl, rfl⟩ := answers
    rw [Slots.clear_absent ((Slots.lookup_eq_none 0).mp found)]
    exact (ensures_pure _).mpr ((ensures_pure _).mpr kept)
  | some entry =>
    rw [found] at answers
    obtain ⟨ip, rfl, got⟩ := answers
    have cleared := (clearSlot_spec plain kept.running kept.directory found got).2
    rw [ensures_bind] at cleared ⊢
    exact cleared.weaken fun _ _ puts => (ensures_pure _).mpr (puts.weaken fun _ _ wrote => kept.trans wrote)

/-- The reference is given back first; there is none for a missing name. -/
theorem dropDirent_spec (plain : origin.Plain) (running : fs.Running origin dp) (directory : fs.Directory dp slots) (name : Name) :
    Ensures (dropDirent dp name) fs (fun _ => DirectoryTo origin dp fs (slots.clear (.of name))) fun reason _ => reason.isUpper = false := by
  unfold dropDirent
  refine Ensures.bind ((dirlookup_spec plain running directory name).mono (fun _ _ answers => answers)
    fun reason after stopped => readDirectory_stops running directory stopped) ?_
  rintro answer looked ⟨middle, steady, answers⟩
  have kept := steady.directoryTo directory
  cases found : slots.lookup (.of name) 0 with
  | none =>
    rw [found] at answers
    obtain ⟨rfl, rfl⟩ := answers
    exact ensures_bind.mpr ((ensures_stop _).mpr rfl)
  | some entry =>
    rw [found] at answers
    obtain ⟨ip, rfl, got⟩ := answers
    exact (clearSlot_spec plain kept.running kept.directory found got).1.weaken fun _ _ wrote => kept.trans wrote

end FS

/-! Sequences of calls. -/

/-- The calls on a locked directory: a lookup whose reference is given back, `dirlink`, and the two ways
of clearing an entry that is looked up. -/
inductive DirCall where
  | find (name : Name)
  | link (name : Name) (inum : Inum)
  | unlink (name : Name)
  | drop (name : Name)

namespace DirCall

def run (dp : Nat) : DirCall → M Unit
  | find name => do
    let found ← FS.dirlookup dp name
    FS.iputSome (found.map Prod.fst)
  | link name inum => do
    let _ ← FS.dirlink dp name inum.1
    pure ()
  | unlink name => FS.unlinkDirent dp name
  | drop name => FS.dropDirent dp name

/-- What a call is for: a present name is not linked again. -/
def onMap (map : PartialMap DirName Inum) : DirCall → PartialMap DirName Inum
  | find _ => map
  | link name inum => if map (.of name) = none then map.insert (.of name) inum else map
  | unlink name | drop name => map.erase (.of name)

def onSlots (slots : Dirents) : DirCall → Dirents
  | find _ => slots
  | link name inum => if DirName.of name ∈ slots.keys then slots else slots.put (.of name, inum)
  | unlink name | drop name => slots.clear (.of name)

variable {slots : Dirents}

theorem onSlots_distinct (distinct : slots.Distinct) (call : DirCall) : (call.onSlots slots).Distinct := by
  cases call with
  | find => exact distinct
  | link name inum =>
    rw [onSlots]
    split
    next => exact distinct
    next absent => exact distinct.put absent
  | unlink name => exact distinct.clear _
  | drop name => exact distinct.clear _

theorem toMap_onSlots (distinct : slots.Distinct) (call : DirCall) : (call.onSlots slots).toMap = call.onMap slots.toMap := by
  cases call with
  | find => rfl
  | link name inum =>
    rw [onSlots, onMap]
    by_cases present : DirName.of name ∈ slots.keys
    · rw [if_pos present, if_neg fun none => Slots.toMap_eq_none.mp none present]
    · rw [if_neg present, if_pos (Slots.toMap_eq_none.mpr present), Slots.toMap_put present]
  | unlink name => exact Slots.toMap_clear distinct _
  | drop name => exact Slots.toMap_clear distinct _

/-- The map that a sequence of calls makes of an empty directory; the last call comes first. -/
def mapOf : List DirCall → PartialMap DirName Inum
  | [] => PartialMap.empty
  | call :: earlier => call.onMap (mapOf earlier)

/-- What the map has was linked. -/
theorem linked_of_mapOf {calls : List DirCall} {name : DirName} {inum : Inum} (found : mapOf calls name = some inum) : ∃ linked, link linked inum ∈ calls := by
  induction calls with
  | nil => cases found
  | cons call earlier ih =>
    have later : mapOf earlier name = some inum → ∃ linked, link linked inum ∈ call :: earlier := fun before =>
      (ih before).imp fun _ inside => List.mem_cons_of_mem _ inside
    have erased : ∀ other, (mapOf earlier).erase other name = some inum → ∃ linked, link linked inum ∈ call :: earlier := fun other found => by
      by_cases here : name = other
      · rw [here, PartialMap.erase_self] at found
        cases found
      · exact later (by rwa [PartialMap.erase_of_ne _ here] at found)
    cases call with
    | find other => exact later found
    | link other number =>
      rw [mapOf, onMap] at found
      split at found
      · by_cases here : name = .of other
        · rw [here, PartialMap.insert_self] at found
          obtain rfl := Option.some.inj found
          exact ⟨other, List.mem_cons_self⟩
        · exact later (by rwa [PartialMap.insert_of_ne _ _ here] at found)
      · exact later found
    | unlink other => exact erased _ found
    | drop other => exact erased _ found

end DirCall

namespace FS
variable {origin : Origin} {start fs after : FS} {dp : Nat} {slots : Dirents} {calls : List DirCall}

theorem dirCall_spec (plain : origin.Plain) (running : fs.Running origin dp) (directory : fs.Directory dp slots) (call : DirCall) :
    Ensures (call.run dp) fs (fun _ => DirectoryTo origin dp fs (call.onSlots slots)) fun _ _ => True := by
  cases call with
  | find name =>
    refine Ensures.bind ((dirlookup_spec plain running directory name).mono (fun _ _ answers => answers) fun _ _ _ => trivial) ?_
    rintro answer looked ⟨middle, steady, answers⟩
    have kept := steady.directoryTo directory
    cases found : slots.lookup (.of name) 0 with
    | none =>
      rw [found] at answers
      obtain ⟨rfl, rfl⟩ := answers
      exact (ensures_pure _).mpr kept
    | some entry =>
      rw [found] at answers
      obtain ⟨ip, rfl, got⟩ := answers
      exact got.puts.mono (fun _ _ same => kept.same plain same) fun _ _ => False.elim
  | link name inum =>
    refine Ensures.bind ((dirlink_spec plain running directory name inum).mono (fun _ _ linked => linked) fun _ _ _ => trivial) fun result after linked => ?_
    rw [ensures_pure, DirCall.onSlots]
    split at linked
    next present =>
      rw [if_pos present]
      exact linked.2
    next absent =>
      rw [if_neg absent]
      exact linked.2
  | unlink name => exact (unlinkDirent_spec plain running directory name).mono (fun _ _ cleared => cleared) fun _ _ _ => trivial
  | drop name => exact (dropDirent_spec plain running directory name).mono (fun _ _ cleared => cleared) fun _ _ _ => trivial

/-- Any sequence of returned calls on a directory, in any operations and under any locking of it. -/
inductive DirRun (dp : Nat) (start : FS) : List DirCall → FS → Prop where
  | start : DirRun dp start [] start
  | begins {calls : List DirCall} {fs after : FS} (run : DirRun dp start calls fs) (began : beginOp fs = (.ok (), after)) : DirRun dp start calls after
  | ends {calls : List DirCall} {fs after : FS} (run : DirRun dp start calls fs) (ended : endOp fs = (.ok (), after)) : DirRun dp start calls after
  | locks {calls : List DirCall} {fs after : FS} (run : DirRun dp start calls fs) (locked : ilock dp fs = (.ok (), after)) : DirRun dp start calls after
  | unlocks {calls : List DirCall} {fs after : FS} (run : DirRun dp start calls fs) (unlocked : iunlock dp fs = (.ok (), after)) : DirRun dp start calls after
  | call {calls : List DirCall} {fs after : FS} (run : DirRun dp start calls fs) (call : DirCall) (inOp : 1 ≤ fs.log.outstanding)
      (called : call.run dp fs = (.ok (), after)) : DirRun dp start (call :: calls) after

theorem Unmoved.directory (unmoved : Unmoved fs after) (directory : fs.Directory dp slots) : after.Directory dp slots where
  size := by rw [unmoved.inode, directory.size]
  bytes := by rw [unmoved.inode, unmoved.content, directory.bytes]
  few := directory.few

/-- After any calls the directory is a list of slots without two equal names, which holds the map of the calls. -/
theorem DirRun.keeps (plain : origin.Plain) (usable : start.Usable origin) (loaded : start.Loaded dp) (empty : (start.inode dp).copy.size = 0)
    (run : DirRun dp start calls fs) :
    fs.Usable origin ∧ fs.Loaded dp ∧ ∃ slots, fs.Directory dp slots ∧ slots.Distinct ∧ slots.toMap = DirCall.mapOf calls := by
  induction run with
  | start => exact ⟨usable, loaded, [], ⟨empty, rfl, Nat.zero_le _⟩, List.nodup_nil, rfl⟩
  | begins _ began ih =>
    obtain ⟨usable, loaded, slots, directory, holds⟩ := ih
    obtain ⟨usable', unmoved, -⟩ := usable.begins.returned began
    exact ⟨usable', (unmoved.loaded dp).mpr loaded, slots, unmoved.directory directory, holds⟩
  | ends _ ended ih =>
    obtain ⟨usable, loaded, slots, directory, holds⟩ := ih
    obtain ⟨usable', unmoved, -⟩ := usable.ends.returned ended
    exact ⟨usable', (unmoved.loaded dp).mpr loaded, slots, unmoved.directory directory, holds⟩
  | locks _ locked ih =>
    obtain ⟨usable, loaded, slots, directory, holds⟩ := ih
    obtain rfl := (ilock_loaded loaded).returned locked
    have table := usable.volume.table
    have same := setLocked_same table dp true
    exact ⟨same.usable usable, (same.loaded dp).mpr loaded, slots, directory.relock table true, holds⟩
  | unlocks _ unlocked ih =>
    obtain ⟨usable, loaded, slots, directory, holds⟩ := ih
    obtain rfl := (Prod.mk.inj unlocked).2
    have table := usable.volume.table
    have same := setLocked_same table dp false
    exact ⟨same.usable usable, (same.loaded dp).mpr loaded, slots, directory.relock table false, holds⟩
  | call _ call inOp called ih =>
    obtain ⟨usable, loaded, slots, directory, distinct, map⟩ := ih
    have done := (dirCall_spec plain (usable.running plain loaded inOp) directory call).returned called
    refine ⟨done.running.usable, done.running.loaded, call.onSlots slots, done.directory, call.onSlots_distinct distinct, ?_⟩
    rw [call.toMap_onSlots distinct, map]
    rfl

/-- What the calls do to a directory with these slots. -/
structure DirectoryCalls (fs : FS) (dp : Nat) (slots : Dirents) : Prop where
  lookup : ∀ name, Ensures (dirlookup dp name) fs
    (fun answer after => match slots.toMap (.of name) with
      | none => answer = none
      | some inum => ∃ ip place, answer = some (ip, direntSize * place) ∧ after.Live ip ∧ (after.inode ip).inum = inum.1 ∧
          slots[place]? = some (some (.of name, inum)))
    fun reason _ => reason.isUpper = false
  present : ∀ name (inum : Inum), slots.toMap (.of name) ≠ none →
    Ensures (dirlink dp name inum.1) fs (fun result after => result = -1 ∧ after.Directory dp slots) fun reason _ => reason.isUpper = false
  absent : ∀ name (inum : Inum), slots.toMap (.of name) = none → Ensures (dirlink dp name inum.1) fs
    (fun result after => result = 0 ∧ after.Directory dp (slots.put (.of name, inum)) ∧
      ((fs.inode dp).copy.size < (after.inode dp).copy.size → none ∉ slots))
    fun reason _ => reason.isUpper = true → reason = .errExit .dirlinkWrite ∧ slots.length = MAXDIRENTS ∧ none ∉ slots
  clear : ∀ name, ∀ clearing ∈ [unlinkDirent dp name, dropDirent dp name],
    Ensures clearing fs (fun _ after => after.Directory dp (slots.clear (.of name))) fun reason _ => reason.isUpper = false

/-- A slot is added only when none is free. -/
theorem Directory.grows {entry : DirName × Inum} (directory : fs.Directory dp slots) (linked : after.Directory dp (slots.put entry))
    (grown : (fs.inode dp).copy.size < (after.inode dp).copy.size) : none ∉ slots := fun free => by
  have inside := slots.firstFree_lt_iff.mpr free
  rw [directory.size, linked.size, Slots.length_put, Nat.max_eq_left inside] at grown
  exact Nat.lt_irrefl _ grown

theorem Directory.acts (plain : origin.Plain) (running : fs.Running origin dp) (directory : fs.Directory dp slots) : DirectoryCalls fs dp slots := by
  constructor
  case lookup =>
    intro name
    refine (dirlookup_spec plain running directory name).mono (fun answer after answers => ?_)
      fun reason after stopped => readDirectory_stops running directory stopped
    obtain ⟨middle, steady, answers⟩ := answers
    have value := Slots.lookup_value (.of name) slots 0
    cases found : slots.lookup (.of name) 0 with
    | none =>
      rw [found] at answers value
      rw [← value]
      exact answers.1
    | some entry =>
      rw [found] at answers value
      rw [← value]
      obtain ⟨ip, answer, got⟩ := answers
      exact ⟨ip, entry.2, answer, got.live, got.names, (Slots.lookup_found found).2⟩
  case present =>
    intro name inum there
    have inside : DirName.of name ∈ slots.keys := not_not.mp fun absent => there (Slots.toMap_eq_none.mpr absent)
    refine (dirlink_spec plain running directory name inum).mono (fun result after linked => ?_) fun reason _ stops => ?_
    · rw [if_pos inside] at linked
      exact ⟨linked.1, linked.2.directory⟩
    · exact Bool.eq_false_iff.mpr fun upper => (stops upper).1 inside
  case absent =>
    intro name inum missing
    refine (dirlink_spec plain running directory name inum).mono (fun result after linked => ?_) fun _ _ stops upper => (stops upper).2
    rw [if_neg (Slots.toMap_eq_none.mp missing)] at linked
    exact ⟨linked.1, linked.2.directory, directory.grows linked.2.directory⟩
  case clear =>
    intro name clearing
    simp only [List.mem_cons, List.not_mem_nil, or_false]
    rintro (rfl | rfl)
    · exact (unlinkDirent_spec plain running directory name).weaken fun _ _ cleared => cleared.directory
    · exact (dropDirent_spec plain running directory name).weaken fun _ _ cleared => cleared.directory

/-- A directory that was created empty is, after any calls, the finite map of these calls: it has no two
entries with one name, and the next call looks up, inserts or erases in it. -/
theorem directory_is_map (ready : start.Ready) (loaded : start.Loaded dp) (empty : (start.inode dp).copy.size = 0) (run : DirRun dp start calls fs) :
    ∃ slots : Dirents, fs.Directory dp slots ∧ slots.Distinct ∧ slots.toMap = DirCall.mapOf calls ∧
      (1 ≤ fs.log.outstanding → DirectoryCalls fs dp slots) := by
  obtain ⟨usable, isLoaded, slots, directory, distinct, map⟩ := run.keeps start.here_plain ready loaded empty
  exact ⟨slots, directory, distinct, map, fun inOp => directory.acts start.here_plain (usable.running start.here_plain isLoaded inOp)⟩

/-- One name is linked in an empty directory. -/
theorem directory_is_map_one : ∃ start fs calls slots, calls = [DirCall.link [97] ⟨5, by decide⟩] ∧ DirRun 0 start calls fs ∧ fs.Directory 0 slots ∧
    slots.toMap = DirCall.mapOf calls ∧ DirectoryCalls fs 0 slots := by
  have computed : valueOf (do
      beginOp
      ilock 0
      let before : FS ← get
      (DirCall.link [97] ⟨5, by decide⟩).run 0
      let fs : FS ← get
      pure ((before.inode 0).copy.size, fs.log.outstanding)) freshFile = some (0, 1) := by decide +kernel
  obtain ⟨start, ready, loaded, inOp, -, rest⟩ := freshFile_wellFormed.opens ⟨by decide, by decide⟩ (returns_of_valueOf computed)
  rw [bind_ok get_apply] at rest
  obtain ⟨_, fs, linked, rest⟩ := bind_returns rest
  rw [bind_ok get_apply] at rest
  obtain ⟨empty, open'⟩ : (start.inode 0).copy.size = 0 ∧ fs.log.outstanding = 1 := by simpa using congrArg Prod.fst rest
  have run : DirRun 0 start [.link [97] ⟨5, by decide⟩] fs := .call .start _ inOp linked
  obtain ⟨slots, directory, -, map, calls⟩ := directory_is_map ready loaded empty run
  exact ⟨start, fs, _, slots, rfl, run, directory, map, calls (by rw [open'])⟩

end FS
end Myfuse
