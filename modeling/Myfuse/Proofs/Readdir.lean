import Myfuse.Proofs.DirectoryMap
import Myfuse.Proofs.References

/-! `myfuse_readdir`: which directories it lists with the names that were linked. A name
is copied with `strcpy`, so a full field makes it read the next entry. -/

namespace Myfuse
open Library Library.Exec

/-- Every `strcpy` of a name in use reads no further than its field, with the NUL. -/
def CopiesInside (slots : Dirents) : Prop :=
  ∀ place entry, slots[place]? = some (some entry) →
    (((direntsBytes slots).drop (direntSize * place + 4)).takeWhile (· ≠ 0)).length + 1 ≤ DIRSIZE

/-- No name in use fills its field. -/
def Short (slots : Dirents) : Prop := ∀ name ∈ slots.keys, name.1.length < DIRSIZE

theorem chars_slot (before : List Byte) (entry : DirName × Inum) (rest : List Byte) :
    (before ++ (slotBytes (some entry) ++ rest)).drop (before.length + 4) = entry.1.1 ++ (List.replicate (DIRSIZE - entry.1.1.length) 0 ++ rest) := by
  rw [drop_name, List.drop_append_of_le_length (by rw [length_slotBytes]; decide), ← List.append_assoc]
  exact congrArg (· ++ rest) (drop_direntBytes entry.2.1 entry.1)

theorem takeWhile_slot (name : DirName) (rest : List Byte) :
    (name.1 ++ (List.replicate (DIRSIZE - name.1.length) 0 ++ rest)).takeWhile (· ≠ 0) =
      name.1 ++ if name.1.length < DIRSIZE then [] else rest.takeWhile (· ≠ 0) := by
  rw [List.takeWhile_append_of_pos fun byte inside => by simpa using fun same : byte = 0 => name.2.2 (same ▸ inside)]
  congr 1
  split
  next short =>
    obtain ⟨more, next⟩ := Nat.exists_eq_succ_of_ne_zero (Nat.sub_ne_zero_of_lt short)
    rw [next]
    rfl
  next full => rw [Nat.sub_eq_zero_of_le (Nat.not_lt.mp full), List.replicate_zero, List.nil_append]

/-- Of a short name `strcpy` takes just the name. -/
theorem dirnamecpy_slot (name : DirName) (short : name.1.length < DIRSIZE) (rest : List Byte) :
    FS.dirnamecpy (name.1 ++ (List.replicate (DIRSIZE - name.1.length) 0 ++ rest)) = some name.1 := by
  unfold FS.dirnamecpy
  dsimp only
  rw [takeWhile_slot, if_pos short, List.append_nil, if_neg]
  rw [List.length_append, List.length_append, List.length_replicate]
  omega

theorem copiesInside_iff (slots : Dirents) : CopiesInside slots ↔ Short slots := by
  have field : ∀ place entry, slots[place]? = some (some entry) → ∃ rest,
      (direntsBytes slots).drop (direntSize * place + 4) = entry.1.1 ++ (List.replicate (DIRSIZE - entry.1.1.length) 0 ++ rest) := by
    intro place entry found
    obtain ⟨inside, here⟩ := List.getElem?_eq_some_iff.mp found
    have split := direntsBytes_append (slots.take place) (slots.drop place)
    rw [List.take_append_drop, List.drop_eq_getElem_cons inside, here, direntsBytes_cons] at split
    have length : (direntsBytes (slots.take place)).length = direntSize * place := by
      rw [length_direntsBytes, List.length_take, Nat.min_eq_left (Nat.le_of_lt inside)]
    exact ⟨_, by rw [split, ← length, chars_slot]⟩
  constructor
  · intro copies name inside
    obtain ⟨slot, member, found⟩ := List.mem_filterMap.mp inside
    obtain ⟨entry, rfl, rfl⟩ := Option.map_eq_some_iff.mp found
    obtain ⟨place, here⟩ := List.mem_iff_getElem?.mp member
    obtain ⟨rest, bytes⟩ := field place entry here
    have copied := copies place entry here
    rw [bytes, takeWhile_slot, List.length_append] at copied
    omega
  · intro short place entry found
    obtain ⟨rest, bytes⟩ := field place entry found
    have small := short entry.1 (List.mem_filterMap.mpr ⟨_, List.mem_of_getElem? found, rfl⟩)
    rw [bytes, takeWhile_slot, if_pos small, List.append_nil]
    exact small

namespace FS
variable {origin : Origin} {start fs now after : FS} {dp : Nat} {slots : Dirents} {calls : List DirCall} {gone : Nat → Prop}

/-- Every inode listed can be reported: it is a file or a directory, and it is not freed by an earlier
look at it. -/
structure Reportable (fs : FS) (gone : Nat → Prop) (inums : List Inum) : Prop where
  known : ∀ inum ∈ inums, Statable (fs.current inum.1) ∧ ¬ gone inum.1
  once : inums.Pairwise fun first second => first = second → ¬ fs.Orphan first.1

theorem reportable_cons (fs : FS) (gone : Nat → Prop) (inum : Inum) (inums : List Inum) : fs.Reportable gone (inum :: inums) ↔
    (Statable (fs.current inum.1) ∧ ¬ gone inum.1) ∧ fs.Reportable (fun other => gone other ∨ other = inum.1 ∧ fs.Orphan inum.1) inums := by
  constructor
  · intro reportable
    obtain ⟨apart, once⟩ := List.pairwise_cons.mp reportable.once
    refine ⟨reportable.known inum List.mem_cons_self, fun other inside => ?_, once⟩
    obtain ⟨known, kept⟩ := reportable.known other (List.mem_cons_of_mem _ inside)
    refine ⟨known, fun lost => lost.elim kept fun both => ?_⟩
    exact apart other inside (Subtype.ext both.1.symm) both.2
  · rintro ⟨first, rest⟩
    refine ⟨fun other inside => ?_, List.pairwise_cons.mpr ⟨fun other inside same isOrphan => ?_, rest.once⟩⟩
    · rcases List.mem_cons.mp inside with rfl | later
      · exact first
      · obtain ⟨known, kept⟩ := rest.known other later
        exact ⟨known, fun lost => kept (.inl lost)⟩
    · exact (rest.known other inside).2 (.inr ⟨by rw [same], isOrphan⟩)

/-- Between two rounds of the loop: the inodes freed so far are gone. -/
structure Listing (origin : Origin) (fs : FS) (dp : Nat) (gone : Nat → Prop) (now : FS) : Prop where
  usable : now.Usable origin
  inOp : 1 ≤ now.log.outstanding
  live : now.Live dp
  inum : (now.inode dp).inum = (fs.inode dp).inum
  copy : SameAttrs (fs.current (fs.inode dp).inum) (now.inode dp).copy
  files : SameFiles gone fs now
  inTable : ∀ inum, now.InTable inum ↔ fs.InTable inum
  freed : ∀ inum, gone inum → inum < fs.sb.ninodes ∧ (now.current inum).type = T_UNUSE_INODE_MYFUSE ∧ ¬ fs.InTable inum

theorem statable_congr {copy copy' : Dinode} (same : SameAttrs copy copy') : Statable copy' ↔ Statable copy := by
  rw [Statable, Statable, same.type]

theorem Listing.orphan (listing : Listing origin fs dp gone now) {inum : Nat} (inside : inum < fs.sb.ninodes) (kept : ¬ gone inum) :
    now.Orphan inum ↔ fs.Orphan inum := by
  rw [Orphan, Orphan, listing.inTable, (listing.files.attrs inum inside kept).nlink]

/-- What is listed of some slots. -/
structure Listed (origin : Origin) (fs : FS) (dp : Nat) (gone : Nat → Prop) (slots : Dirents) (filled : List (Name × Stat)) (result : List (Name × Stat))
    (after : FS) : Prop where
  listing : ∃ gone', Listing origin fs dp gone' after
  names : ∃ listed, result.map Prod.fst = filled.map Prod.fst ++ listed ∧ listed.length ≤ slots.keys.length ∧
    (listed = slots.keys.map Subtype.val ↔ fs.Reportable gone slots.values)

theorem Listing.kept (listing : Listing origin fs dp gone now) : ¬ gone (fs.inode dp).inum := fun lost =>
  (listing.freed _ lost).2.2 ((listing.inTable _).mp ⟨dp, listing.live, listing.inum⟩)

/-- An inode that is gone is not known any more. -/
theorem Listing.statable (listing : Listing origin fs dp gone now) {inum : Nat} (inside : inum < fs.sb.ninodes) :
    Statable (now.current inum) ↔ Statable (fs.current inum) ∧ ¬ gone inum := by
  by_cases lost : gone inum
  · refine iff_of_false ?_ fun both => both.2 lost
    rw [Statable, (listing.freed inum lost).2.1]
    decide
  · rw [statable_congr (listing.files.attrs inum inside lost)]
    exact ⟨fun known => ⟨known, lost⟩, And.left⟩

theorem Listing.statted {inum : Nat} (listing : Listing origin fs dp gone now) (inside : inum < fs.sb.ninodes) (other : inum ≠ (fs.inode dp).inum)
    (statted : Statted origin inum now after) : Listing origin fs dp (fun other => gone other ∨ other = inum ∧ fs.Orphan inum) after := by
  have entry : after.inode dp = now.inode dp := statted.entries dp listing.live (by rw [listing.inum]; exact Ne.symm other)
  have isOrphan : ¬ gone inum → (now.Orphan inum ↔ fs.Orphan inum) := listing.orphan inside
  refine ⟨statted.usable, by rw [statted.files.outstanding]; exact listing.inOp, (statted.live dp).mpr listing.live, by rw [entry, listing.inum],
    by rw [entry]; exact listing.copy, (listing.files.trans statted.files).mono ?_, fun inum => (statted.inTable inum).trans (listing.inTable inum), ?_⟩
  · rintro lost (before | ⟨rfl, lone⟩)
    · exact .inl before
    · by_cases before : gone lost
      · exact .inl before
      · exact .inr ⟨rfl, (isOrphan before).mp lone⟩
  · intro lost isGone
    by_cases before : gone lost
    · obtain ⟨inRange, type, absent⟩ := listing.freed lost before
      refine ⟨inRange, ?_, absent⟩
      by_cases now' : lost = inum ∧ now.Orphan inum
      · rw [now'.1]
        exact statted.freed now'.2
      · rw [(statted.files.attrs lost (listing.files.sb ▸ inRange) now').type, type]
    · obtain ⟨rfl, lone⟩ := isGone.resolve_left before
      exact ⟨inside, statted.freed ((isOrphan before).mpr lone), lone.2⟩

theorem readdirFrom_spec (plain : origin.Plain) : ∀ (slots : Dirents) (before : List Byte) (filled : List (Name × Stat)) (gone : Nat → Prop) (now : FS),
    Listing origin fs dp gone now → Short slots → (∀ inum ∈ slots.values, inum.1 < fs.sb.ninodes) →
    Ensures (readdirFrom dp (before ++ direntsBytes slots) (fun _ _ => false) slots.length before.length filled) now
      (Listed origin fs dp gone slots filled) fun reason _ => reason.isUpper = true → ¬ fs.Reportable gone slots.values
  | [], before, filled, gone, now, listing, _, _ => by
    rw [List.length_nil, readdirFrom, ensures_pure]
    exact ⟨⟨gone, listing⟩, [], (List.append_nil _).symm, Nat.le_refl _, iff_of_true rfl ⟨nofun, .nil⟩⟩
  | none :: rest, before, filled, gone, now, listing, short, inside => by
    obtain ⟨fits, next⟩ := slot_inside before none (direntsBytes rest)
    have further := readdirFrom_spec plain rest (before ++ slotBytes none) filled gone now listing short inside
    rw [List.append_assoc] at further
    rw [List.length_cons, readdirFrom, direntsBytes_cons, if_neg fits, leNat_slot, next]
    exact further.mono (fun _ _ listed => ⟨listed.listing, listed.names⟩) fun _ _ refused => refused
  | some entry :: rest, before, filled, gone, now, listing, short, inside => by
    obtain ⟨fits, next⟩ := slot_inside before (some entry) (direntsBytes rest)
    have shortRest : Short rest := fun name later => short name (List.mem_cons_of_mem _ later)
    have insideRest : ∀ inum ∈ Slots.values rest, inum.1 < fs.sb.ninodes := fun inum later => inside inum (List.mem_cons_of_mem _ later)
    have inRange := inside entry.2 List.mem_cons_self
    have known := reportable_cons fs gone entry.2 (Slots.values rest)
    -- What the loop does with the result of a look at the inode.
    have goesOn : ∀ (st : Int × Stat) current, Listing origin fs dp (fun other => gone other ∨ other = entry.2.1 ∧ fs.Orphan entry.2.1) current →
        (st.1 = 0 ↔ Statable (fs.current entry.2.1) ∧ ¬ gone entry.2.1) →
        Ensures (if st.1 = 0 then
            if false = true then pure (filled ++ [(entry.1.1, st.2)])
            else readdirFrom dp (before ++ (slotBytes (some entry) ++ direntsBytes rest)) (fun _ _ => false) rest.length (before.length + direntSize)
              (filled ++ [(entry.1.1, st.2)])
          else readdirFrom dp (before ++ (slotBytes (some entry) ++ direntsBytes rest)) (fun _ _ => false) rest.length (before.length + direntSize) filled)
          current (Listed origin fs dp gone (some entry :: rest) filled)
          fun reason _ => reason.isUpper = true → ¬ fs.Reportable gone (Slots.values (some entry :: rest)) := by
      intro st current listing' accepted
      have further := fun filled => readdirFrom_spec plain rest (before ++ slotBytes (some entry)) filled _ current listing' shortRest insideRest
      simp only [List.append_assoc, ← next] at further
      split
      next taken =>
        refine (further _).mono (fun result final listed => ?_) fun _ _ refused upper reportable => refused upper (known.mp reportable).2
        obtain ⟨last, listed, names, fewer, whole⟩ := listed
        refine ⟨last, entry.1.1 :: listed, ?_, Nat.succ_le_succ fewer, ?_⟩
        · rw [names, List.map_append, List.append_assoc]
          rfl
        · rw [show Slots.values (some entry :: rest) = entry.2 :: Slots.values rest from rfl, known, ← whole, and_iff_right (accepted.mp taken)]
          exact List.cons_inj_right _
      next refused =>
        have rejects : ¬ fs.Reportable gone (Slots.values (some entry :: rest)) := fun reportable => refused (accepted.mpr (known.mp reportable).1)
        refine (further _).mono (fun result final listed => ?_) fun _ _ _ _ => rejects
        obtain ⟨last, listed, names, fewer, -⟩ := listed
        refine ⟨last, listed, names, Nat.le_succ_of_le fewer, iff_of_false (fun whole => ?_) rejects⟩
        have long := congrArg List.length whole
        rw [List.length_map] at long
        have more : (Slots.keys (some entry :: rest)).length = (Slots.keys rest).length + 1 := rfl
        omega
    have taken := (leNat_slot before (some entry) (direntsBytes rest))
    rw [List.length_cons, readdirFrom, direntsBytes_cons, if_neg fits, taken]
    dsimp only [Option.map_some, Option.getD_some]
    rw [if_neg (Nat.ne_of_gt entry.2.2.1), chars_slot, dirnamecpy_slot entry.1 (short entry.1 List.mem_cons_self)]
    dsimp only
    rw [ensures_bind, ensures_get, listing.inum]
    by_cases own : entry.2.1 = (fs.inode dp).inum
    · have held : ¬ fs.Orphan entry.2.1 := fun lone => lone.2 (by
        rw [own]
        exact (listing.inTable _).mp ⟨dp, listing.live, listing.inum⟩)
      have same : (fun other => gone other ∨ other = entry.2.1 ∧ fs.Orphan entry.2.1) = gone := by
        funext other
        simp [held]
      rw [if_neg (not_not.mpr own)]
      refine goesOn (statInode (now.inode dp)) now (by rw [same]; exact listing) ?_
      rw [statInode_zero, statable_congr listing.copy, own]
      exact (and_iff_left listing.kept).symm
    · rw [if_pos own]
      have inRange' : entry.2.1 < now.sb.ninodes := by
        rw [listing.files.sb]
        exact inRange
      have stat := statInum_spec plain listing.usable listing.inOp (Nat.zero_lt_of_lt listing.live.1) inRange'
      refine Ensures.bind (stat.mono (fun _ _ statted => statted) fun reason _ refused upper reportable => ?_) fun st current statted => ?_
      · exact refused upper ((listing.statable inRange).mpr (known.mp reportable).1)
      · exact goesOn st current (listing.statted inRange own statted.1) (statted.2.trans (listing.statable inRange))

/-! The whole call. -/

theorem beginOp_sameFiles (fs : FS) : Ensures beginOp fs (fun _ after => after.files = fs.files) fun reason _ => reason = .blocked := by
  unfold beginOp note
  rw [ensures_bind, ensures_get, ensures_ite]
  refine ⟨fun _ => ?_, fun _ => (ensures_stop _).mpr rfl⟩
  rw [ensures_bind, ensures_modify, ensures_modify]

theorem reportable_congr {inums : List Inum} (current : after.current = fs.current) (inTable : ∀ inum, after.InTable inum ↔ fs.InTable inum) :
    after.Reportable gone inums ↔ fs.Reportable gone inums := by
  have isOrphan : ∀ inum, after.Orphan inum ↔ fs.Orphan inum := fun inum => by rw [Orphan, Orphan, current, inTable]
  constructor
  · intro reportable
    exact ⟨by simpa only [current] using reportable.known, by simpa only [isOrphan] using reportable.once⟩
  · intro reportable
    exact ⟨by simpa only [current] using reportable.known, by simpa only [isOrphan] using reportable.once⟩

/-- The directory when it is read: locked, in an operation. -/
theorem Listing.opens (running : now.Running origin dp) (loaded : fs.Loaded dp) (usable : fs.Usable origin) (afterIs : now = fs.setLocked dp true)
    (steady : Steady origin dp now after) : Listing origin fs dp (fun _ => False) after := by
  have table := usable.volume.table
  have locked := setLocked_same table dp true
  have entry := setLocked_self fs dp true
  have nowTable := running.volume.table
  have keeps := steady.keeps
  rw [afterIs] at steady running nowTable keeps
  refine ⟨steady.running.usable, steady.running.op.inOp, steady.running.loaded.1, by rw [keeps.inum, entry], ?_, ?_, fun inum => ?_, nofun⟩
  · rw [current_loaded table loaded]
    have copy : ((fs.setLocked dp true).inode dp).copy = (fs.inode dp).copy := by rw [entry]
    exact ⟨by rw [keeps.type, copy], by rw [steady.nlink, copy], by rw [steady.size, copy]⟩
  · exact ((locked.files table).trans (steady.files nowTable running.loaded)).mono fun _ none => none.elim id id
  · refine exists_congr fun ip => ?_
    rw [keeps.live, setLocked_live, (keeps.identity ip).1]
    refine and_congr_right fun _ => ?_
    by_cases here : ip = dp
    · rw [here, entry]
    · rw [setLocked_of_ne here]

/-- A directory of short names is listed with them if and only if every inode can be reported; the run is
not refused at an inode then. -/
theorem myfuseReaddir_spec {f : Nat} (flags : Nat) (plain : origin.Plain) (usable : fs.Usable origin) (loaded : fs.Loaded dp) (directory : fs.Directory dp slots)
    (handle : (fs.files f).ip = some dp) (short : Short slots) (inside : ∀ inum ∈ slots.values, inum.1 < fs.sb.ninodes)
    (depth : 0 ≤ fs.log.outstanding) :
    Ensures (myfuseReaddir (fun _ _ => false) (some ⟨flags, some f⟩)) fs
      (fun value _ => value.1 = 0 ∧ (value.2.map Prod.fst = slots.keys.map Subtype.val ↔ fs.Reportable (fun _ => False) slots.values))
      fun reason _ => reason.isUpper = true → ¬ fs.Reportable (fun _ => False) slots.values := by
  have lower : ∀ {reason : Exit} {goal : Prop}, reason.isUpper = false → reason.isUpper = true → goal := fun low high => by
    rw [low] at high
    cases high
  unfold myfuseReaddir
  dsimp only
  refine Ensures.bind ((usable.begins.and (beginOp_sameFiles fs)).mono (fun _ _ both => both) fun reason _ both => lower (by rw [both.2]; rfl)) ?_
  rintro _ began ⟨⟨usable', unmoved, -, outstanding⟩, files⟩
  have loaded' := (unmoved.loaded dp).mpr loaded
  have table := usable'.volume.table
  have reportable : began.Reportable (fun _ => False) slots.values ↔ fs.Reportable (fun _ => False) slots.values := by
    refine reportable_congr (funext unmoved.current) fun inum => ?_
    rw [InTable, InTable]
    simp only [Live, unmoved.inode, unmoved.ninode]
  rw [ensures_bind, ensures_get, files, handle]
  dsimp only
  refine Ensures.bind ((ilock_loaded loaded').mono (fun _ _ locked => locked) fun reason _ blocked => lower (by rw [blocked]; rfl)) ?_
  rintro _ locked rfl
  have same := setLocked_same table dp true
  have running := (same.usable usable').running plain ((same.loaded dp).mpr loaded') (by rw [same.log, outstanding]; omega)
  have directory' := (unmoved.directory directory).relock table true
  rw [ensures_bind, ensures_get]
  refine Ensures.bind ((readDirectory_spec plain running directory').mono (fun _ _ same => same)
    fun reason after stopped => lower (readDirectory_stops running directory' stopped)) ?_
  rintro data middle ⟨steady, rfl⟩
  rw [if_neg (by rw [length_direntsBytes, directory'.size]; exact not_not.mpr rfl), directory'.size, direntCount_slots directory'.few]
  have listing := Listing.opens running loaded' usable' rfl steady
  have listed := readdirFrom_spec plain slots [] [] (fun _ => False) middle listing short (by rw [unmoved.sb]; exact inside)
  rw [List.nil_append, List.length_nil] at listed
  refine Ensures.bind (listed.mono (fun _ _ listed => listed) fun _ _ refused upper => (refused upper) ∘ reportable.mpr) ?_
  rintro filled final ⟨⟨gone, last⟩, names, listedNames, -, whole⟩
  rw [ensures_bind, ensures_of_ok (iunlock_eq dp final)]
  have unlocked := setLocked_same last.usable.volume.table dp false
  refine Ensures.bind ((unlocked.usable last.usable).ends.mono (fun _ _ _ => trivial) fun _ _ => False.elim) fun _ after _ => ?_
  rw [ensures_pure, listedNames, List.map_nil, List.nil_append]
  exact ⟨rfl, whole.trans reportable⟩

/-- What the call is to do: every name in use is passed on, in the order of the slots, and each is copied
from its own field. -/
def Reports (slots : Dirents) : Except Exit (Int × List (Name × Stat)) → Prop
  | .ok (res, filled) => res = 0 ∧ filled.map Prod.fst = slots.keys.map Subtype.val ∧ CopiesInside slots
  | .error _ => False

/-- No name fills its field, and every inode can be reported. -/
def Listable (fs : FS) (slots : Dirents) : Prop := Short slots ∧ fs.Reportable (fun _ => False) slots.values

/-- After any calls on a directory that was created empty, `myfuse_readdir` does what it is to do only if
the directory is listable, and if it is, unless a layer below ends the run. -/
theorem readdir_reports_iff {flags f : Nat} {result : Except Exit (Int × List (Name × Stat))} (ready : start.Ready) (loaded : start.Loaded dp)
    (empty : (start.inode dp).copy.size = 0) (run : DirRun dp start calls fs) (numbers : ∀ name inum, DirCall.link name inum ∈ calls → inum.1 < fs.sb.ninodes)
    (depth : 0 ≤ fs.log.outstanding) (handle : (fs.files f).ip = some dp)
    (ran : myfuseReaddir (fun _ _ => false) (some ⟨flags, some f⟩) fs = (result, after)) :
    ∃ slots : Dirents, fs.Directory dp slots ∧ slots.Distinct ∧ slots.toMap = DirCall.mapOf calls ∧ (Reports slots result → Listable fs slots) ∧
      ((∀ reason, result = .error reason → reason.isUpper = true) → (Reports slots result ↔ Listable fs slots)) := by
  obtain ⟨usable, isLoaded, slots, directory, distinct, map⟩ := run.keeps start.here_plain ready loaded empty
  have inside : ∀ inum ∈ slots.values, inum.1 < fs.sb.ninodes := fun inum inside => by
    obtain ⟨name, member⟩ := Slots.mem_values.mp inside
    have found := Slots.toMap_of_mem distinct member
    rw [map] at found
    obtain ⟨linked, member⟩ := DirCall.linked_of_mapOf found
    exact numbers linked inum member
  have spec : Short slots → _ := fun short =>
    myfuseReaddir_spec flags start.here_plain usable isLoaded directory handle short inside depth
  have only : Reports slots result → Listable fs slots := fun reports => by
    cases result with
    | error reason => exact reports.elim
    | ok value =>
      obtain ⟨-, names, copies⟩ := reports
      have short := (copiesInside_iff slots).mp copies
      exact ⟨short, ((spec short).returned ran).2.mp names⟩
  refine ⟨slots, directory, distinct, map, only, fun upper => ⟨only, fun listable => ?_⟩⟩
  obtain ⟨short, reportable⟩ := listable
  cases result with
  | error reason => exact absurd reportable ((spec short).stopped ran (upper reason rfl))
  | ok value =>
    obtain ⟨res, names⟩ := (spec short).returned ran
    exact ⟨res, names.mpr reportable, (copiesInside_iff slots).mpr short⟩

/-- A new file as a directory that is created, with a handle. -/
theorem freshFile_handle {α : Type} {program : M α} {value : α}
    (returned : (do
      beginOp
      ilock 0
      modifyFile 0 fun file => { file with ip := some 0 }
      program) freshFile = (.ok value, after)) : ∃ start, start.Ready ∧ start.Loaded 0 ∧ 1 ≤ start.log.outstanding ∧ program start = (.ok value, after) := by
  obtain ⟨fs, ready, loaded, inOp, -, rest⟩ := freshFile_wellFormed.opens ⟨by decide, by decide⟩ returned
  obtain ⟨_, start, opened, runs⟩ := bind_returns rest
  obtain rfl := (Prod.mk.inj opened).2
  have volume := ready.volume
  have usable : Usable (fs.here False False False) { fs with files := assign fs.files 0 { fs.files 0 with ip := some 0 } } :=
    ⟨⟨⟨volume.layout, volume.reserved, volume.summaries, volume.free, volume.tracked⟩, ⟨volume.table.inside, volume.table.unique⟩, volume.owned⟩,
      ready.committing, ready.size⟩
  exact ⟨_, usable.ready, loaded, inOp, runs⟩

/-- One name of one byte is listed. -/
theorem readdir_reports_iff_one : ∃ fs slots after, Listable fs slots ∧
    myfuseReaddir (fun _ _ => false) (some ⟨0, some 0⟩) fs = (.ok after, (myfuseReaddir (fun _ _ => false) (some ⟨0, some 0⟩) fs).2) ∧
    Reports slots (.ok after) := by
  have computed : valueOf (do
      beginOp
      ilock 0
      modifyFile 0 fun file => { file with ip := some 0 }
      let before : FS ← get
      (DirCall.link [97] ⟨17, by decide⟩).run 0
      iunlock 0
      endOp
      let fs : FS ← get
      let out : Int × List (Name × Stat) ← myfuseReaddir (fun _ _ => false) (some ⟨0, some 0⟩)
      pure (((before.inode 0).copy.size, fs.sb.ninodes, fs.log.outstanding, (fs.files 0).ip), out.1, out.2.map Prod.fst)) freshFile =
        some ((0, 656, 0, some 0), 0, [[97]]) := by decide +kernel
  obtain ⟨start, ready, loaded, inOp, rest⟩ := freshFile_handle (returns_of_valueOf computed)
  rw [bind_ok get_apply] at rest
  obtain ⟨_, linked, links, rest⟩ := bind_returns rest
  obtain ⟨_, unlocked, unlocks, rest⟩ := bind_returns rest
  obtain ⟨_, fs, ends, rest⟩ := bind_returns rest
  rw [bind_ok get_apply] at rest
  obtain ⟨⟨res, filled⟩, after, reads, last⟩ := bind_returns rest
  obtain ⟨⟨empty, ninodes, depth, handle⟩, rfl, names⟩ : ((start.inode 0).copy.size = 0 ∧ fs.sb.ninodes = 656 ∧ fs.log.outstanding = 0 ∧
      (fs.files 0).ip = some 0) ∧ res = 0 ∧ filled.map Prod.fst = [[97]] := by simpa using congrArg Prod.fst last
  have run : DirRun 0 start [.link [97] ⟨17, by decide⟩] fs := .ends (.unlocks (.call .start _ inOp links) unlocks) ends
  have numbers : ∀ name inum, DirCall.link name inum ∈ [DirCall.link [97] ⟨17, by decide⟩] → inum.1 < fs.sb.ninodes := fun name inum inside => by
    obtain ⟨rfl, rfl⟩ := DirCall.link.inj (List.mem_singleton.mp inside)
    rw [ninodes]
    decide
  obtain ⟨slots, -, distinct, map, -, reports⟩ := readdir_reports_iff ready loaded empty run numbers (by rw [depth]) handle reads
  have keys : slots.keys = [DirName.of [97]] := by
    refine List.perm_singleton.mp ((List.perm_ext_iff_of_nodup distinct (List.nodup_singleton _)).mpr fun name => ?_)
    rw [← not_iff_not, ← Slots.toMap_eq_none, map, List.mem_singleton]
    by_cases here : name = DirName.of [97]
    · exact iff_of_false (by rw [here]; exact nofun) (not_not.mpr here)
    · exact iff_of_true (PartialMap.insert_of_ne _ _ here) here
  have short : Short slots := fun name inside => by
    rw [keys, List.mem_singleton] at inside
    rw [inside]
    decide
  have reported : Reports slots (.ok (0, filled)) := ⟨rfl, by rw [names, keys]; rfl, (copiesInside_iff slots).mpr short⟩
  exact ⟨fs, slots, (0, filled), (reports nofun).mp reported, by rw [reads], reported⟩

/-- A name that fills its field and is followed by another entry: the copy runs over the end of `file_name`. -/
theorem readdir_overruns : ∃ start fs calls after, start.Ready ∧ start.Loaded 0 ∧ (start.inode 0).copy.size = 0 ∧ DirRun 0 start calls fs ∧
    (∀ name inum, DirCall.link name inum ∈ calls → 1 ≤ name.length ∧ name.length ≤ DIRSIZE ∧ inum.1 < fs.sb.ninodes) ∧
    0 ≤ fs.log.outstanding ∧ (fs.files 0).ip = some 0 ∧ myfuseReaddir (fun _ _ => false) (some ⟨0, some 0⟩) fs = (.error .undefined, after) := by
  have computed : valueOf (do
      beginOp
      ilock 0
      modifyFile 0 fun file => { file with ip := some 0 }
      let before : FS ← get
      (DirCall.link (List.replicate DIRSIZE 97) ⟨17, by decide⟩).run 0
      let between : FS ← get
      (DirCall.link [98] ⟨17, by decide⟩).run 0
      iunlock 0
      endOp
      let fs : FS ← get
      let why ← probe (myfuseReaddir (fun _ _ => false) (some ⟨0, some 0⟩))
      pure (((before.inode 0).copy.size, between.log.outstanding), (fs.sb.ninodes, fs.log.outstanding),
        decide ((fs.files 0).ip = some 0 ∧ why = some .undefined))) freshFile = some ((0, 1), (656, 0), true) := by decide +kernel
  obtain ⟨start, ready, loaded, inOp, rest⟩ := freshFile_handle (returns_of_valueOf computed)
  rw [bind_ok get_apply] at rest
  obtain ⟨_, first, linksFirst, rest⟩ := bind_returns rest
  rw [bind_ok get_apply] at rest
  obtain ⟨_, second, linksSecond, rest⟩ := bind_returns rest
  obtain ⟨_, unlocked, unlocks, rest⟩ := bind_returns rest
  obtain ⟨_, fs, ends, rest⟩ := bind_returns rest
  rw [bind_ok get_apply] at rest
  obtain ⟨why, after, reads, last⟩ := bind_returns rest
  obtain ⟨⟨empty, between⟩, ⟨ninodes, depth⟩, handle, rfl⟩ : ((start.inode 0).copy.size = 0 ∧ first.log.outstanding = 1) ∧
      (fs.sb.ninodes = 656 ∧ fs.log.outstanding = 0) ∧ (fs.files 0).ip = some 0 ∧ why = some .undefined := by simpa using congrArg Prod.fst last
  obtain ⟨stuck, stopped, -⟩ := stops_of_probe reads
  have inOp' : 1 ≤ first.log.outstanding := by rw [between]
  refine ⟨start, fs, _, stuck, ready, loaded, empty, .ends (.unlocks (.call (.call .start _ inOp linksFirst) _ inOp' linksSecond) unlocks) ends,
    fun name inum inside => ?_, by rw [depth], handle, stopped⟩
  rw [ninodes]
  rcases List.mem_cons.mp inside with same | inside
  · obtain ⟨rfl, rfl⟩ := DirCall.link.inj same
    decide
  · obtain ⟨rfl, rfl⟩ := DirCall.link.inj (List.mem_singleton.mp inside)
    decide

end FS
end Myfuse
