import Myfuse.Proofs.PathWalk

/-! Work inside a call on paths: which references it holds, what it leaves of the files,
and which entries it may drop without losing an update. -/

namespace Myfuse
open Library Library.Exec

namespace FS
variable {α : Type} {origin : Origin} {base floor refs : Nat → Int} {gone : Nat → Prop} {fs middle after : FS} {ip dp inum : Nat} {slots : Dirents}

/-- One reference more. -/
def plus (refs : Nat → Int) (ip : Nat) : Nat → Int := fun other => refs other + if other = ip then 1 else 0

theorem le_plus (refs : Nat → Int) (ip other : Nat) : refs other ≤ plus refs ip other := by
  unfold plus
  split <;> omega

@[simp] theorem plus_self (refs : Nat → Int) (ip : Nat) : plus refs ip ip = refs ip + 1 := by simp [plus]

theorem plus_of_ne {other : Nat} (apart : other ≠ ip) : plus refs ip other = refs other := by simp [plus, apart]

/-- In an operation with these references. What no one held when the call began agrees with its dinode. -/
structure Tended (origin : Origin) (base refs : Nat → Int) (fs : FS) : Prop where
  usable : fs.Usable origin
  inOp : 1 ≤ fs.log.outstanding
  books : ∃ account, Books account fs ∧ account.refs = refs
  unsigned : ∀ ip, 0 ≤ base ip
  more : ∀ ip, base ip ≤ refs ip
  saved : ∀ ip, fs.Loaded ip → 0 < base ip ∨ fs.Saved ip

/-- The entries with a reference stay with their inodes, and are not read again. -/
structure Stays (floor : Nat → Int) (fs after : FS) : Prop where
  inum : ∀ ip, 0 < floor ip → (after.inode ip).inum = (fs.inode ip).inum
  valid : ∀ ip, 0 < floor ip → (fs.inode ip).valid = true → (after.inode ip).valid = true

theorem Stays.refl (floor : Nat → Int) (fs : FS) : Stays floor fs fs := ⟨fun _ _ => rfl, fun _ _ => id⟩

theorem Stays.trans (first : Stays floor fs middle) (second : Stays floor middle after) : Stays floor fs after :=
  ⟨fun ip held => (second.inum ip held).trans (first.inum ip held), fun ip held valid => second.valid ip held (first.valid ip held valid)⟩

/-- What a step of the call leaves. -/
structure Goes (origin : Origin) (base floor refs : Nat → Int) (gone : Nat → Prop) (fs after : FS) : Prop where
  tended : Tended origin base refs after
  stays : Stays floor fs after
  files : SameFiles gone fs after

theorem SameFiles.joins (first : SameFiles gone fs middle) (second : SameFiles gone middle after) : SameFiles gone fs after :=
  (first.trans second).mono fun _ => (Or.elim · id id)

namespace Goes

theorem refl (tended : Tended origin base refs fs) : Goes origin base floor refs gone fs fs := ⟨tended, .refl floor fs, .refl gone fs⟩

theorem trans {refs' : Nat → Int} (first : Goes origin base floor refs gone fs middle) (second : Goes origin base floor refs' gone middle after) :
    Goes origin base floor refs' gone fs after := ⟨second.tended, first.stays.trans second.stays, first.files.joins second.files⟩

/-- Fewer entries are asked about, and more may be gone. -/
theorem mono {floor' : Nat → Int} {gone' : Nat → Prop} (goes : Goes origin base floor refs gone fs after) (fewer : ∀ ip, floor' ip ≤ floor ip)
    (more : ∀ inum, gone inum → gone' inum) : Goes origin base floor' refs gone' fs after := by
  refine ⟨goes.tended, ⟨fun ip held => goes.stays.inum ip ?_, fun ip held => goes.stays.valid ip ?_⟩, goes.files.mono more⟩
  · exact Int.lt_of_lt_of_le held (fewer ip)
  · exact Int.lt_of_lt_of_le held (fewer ip)

end Goes

namespace Tended
variable (tended : Tended origin base refs fs)
include tended

theorem table : fs.TableOk := tended.usable.volume.table

theorem live_iff : fs.Live ip ↔ 0 < refs ip := by
  obtain ⟨account, books, rfl⟩ := tended.books
  rw [Live, books.ref]
  refine ⟨fun both => by omega, fun held => ⟨books.inside (.inl (by omega)), by omega⟩⟩

theorem initialized : 0 < fs.ninode := by
  obtain ⟨account, books, -⟩ := tended.books
  exact books.initialized

end Tended

/-- What was read stays so while it is held. -/
theorem Goes.loaded (goes : Goes origin base floor refs gone fs after) (held : 0 < floor ip) (low : floor ip ≤ refs ip) (loaded : fs.Loaded ip) :
    after.Loaded ip := ⟨goes.tended.live_iff.mpr (Int.lt_of_lt_of_le held low), goes.stays.valid ip held loaded.2⟩

/-- A reference is taken. -/
theorem iget_goes (tended : Tended origin base refs fs) (low : ∀ ip, floor ip ≤ refs ip) (inside : inum < fs.sb.ninodes) :
    Ensures (iget inum) fs (fun ip after => Goes origin base floor (plus refs ip) gone fs after ∧ (after.inode ip).inum = inum) fun _ _ => False := by
  obtain ⟨account, books, rfl⟩ := tended.books
  apply ((iget_spec books.initialized inum).and (iget_leaves books inum)).mono
  · intro ip after both
    obtain ⟨got, taken⟩ := both
    have same := got.sameLoaded tended.table inside
    have entries : ∀ ip', fs.Live ip' → (after.inode ip').inum = (fs.inode ip').inum ∧ (after.inode ip').valid = (fs.inode ip').valid ∧
        (after.inode ip').copy = (fs.inode ip').copy := by
      intro ip' live
      by_cases here : ip' = ip
      · subst here
        cases got.entry with
        | inl known =>
          rw [known.2]
          exact ⟨rfl, rfl, rfl⟩
        | inr fresh => exact absurd live fresh.1
      · rw [got.others ip' here live]
        exact ⟨rfl, rfl, rfl⟩
    refine ⟨⟨⟨same.usable tended.usable, ?_, ⟨_, taken, rfl⟩, tended.unsigned, fun other => ?_, fun ip' loaded => ?_⟩, ⟨fun ip' held => ?_, fun ip' held valid => ?_⟩,
      same.files tended.table⟩, got.names⟩
    · rw [same.log]
      exact tended.inOp
    · exact Int.le_trans (tended.more other) (le_plus _ ip other)
    · by_cases live : fs.Live ip'
      · obtain ⟨inumIs, validIs, copyIs⟩ := entries ip' live
        exact (tended.saved ip' ⟨live, validIs ▸ loaded.2⟩).imp_right fun saved => saved.same same.sb same.store inumIs copyIs
      · by_cases here : ip' = ip
        · subst here
          cases got.entry with
          | inl known => exact absurd known.1 live
          | inr fresh =>
            have valid := loaded.2
            rw [fresh.2.2.2] at valid
            cases valid
        · exact absurd ((got.otherLive ip' here).mp loaded.1) live
    · exact (entries ip' (tended.live_iff.mpr (Int.lt_of_lt_of_le held (low ip')))).1
    · rw [(entries ip' (tended.live_iff.mpr (Int.lt_of_lt_of_le held (low ip')))).2.1]
      exact valid
  · exact fun _ _ both => both.1

/-- Work on another entry. -/
theorem Saved.frame {ip' : Nat} (saved : fs.Saved ip') (frame : Frame ip fs after) (apart : ip' ≠ ip) (inside : (fs.inode ip').inum < fs.sb.ninodes)
    (other : (fs.inode ip').inum ≠ (fs.inode ip).inum) : after.Saved ip' := by
  have entry := frame.others ip' apart
  have dinode := frame.dinodes _ inside other
  have agrees : after.Agrees ip' := by
    constructor
    · rw [entry, dinode, saved.type]
    · rw [entry, dinode, saved.nlink]
    · rw [entry, dinode, saved.size]
    · rw [entry, dinode]
      exact saved.addrs
  exact saved.congr agrees (by rw [entry]) (by rw [entry]) (.inr (by rw [entry]))

/-- Work on an entry that is held: it is saved at the end if it was. -/
theorem Tended.frame (tended : Tended origin base refs fs) (held : 0 < refs ip) (usable : after.Usable origin)
    (outstanding : after.log.outstanding = fs.log.outstanding) (books : ∃ account, Books account after ∧ account.refs = refs) (frame : Frame ip fs after)
    (own : after.Loaded ip → 0 < base ip ∨ after.Saved ip) : Tended origin base refs after := by
  refine ⟨usable, by rw [outstanding]; exact tended.inOp, books, tended.unsigned, tended.more, fun ip' loaded => ?_⟩
  by_cases here : ip' = ip
  · rw [here] at loaded ⊢
    exact own loaded
  · have before : fs.Loaded ip' := by
      rw [Loaded, Live, frame.ninode, frame.others ip' here] at loaded
      exact loaded
    have table := tended.table
    have other : (fs.inode ip').inum ≠ (fs.inode ip).inum := fun same => here (table.unique _ _ before.1 (tended.live_iff.mpr held) same)
    exact (tended.saved ip' before).imp_right fun saved => saved.frame frame here (table.inside ip' before.1) other

/-- Its entry is the only one that may be read. -/
theorem Frame.stays (frame : Frame ip fs after) (valid : (fs.inode ip).valid = true → (after.inode ip).valid = true) : Stays floor fs after := by
  constructor
  · intro ip' _
    by_cases here : ip' = ip
    · rw [here, frame.inum]
    · rw [frame.others ip' here]
  · intro ip' _ read
    by_cases here : ip' = ip
    · rw [here] at read ⊢
      exact valid read
    · rw [frame.others ip' here]
      exact read

theorem ilock_goes (tended : Tended origin base refs fs) (held : 0 < refs ip) :
    Ensures (ilock ip) fs (fun _ after => Goes origin base floor refs gone fs after ∧ after.Loaded ip) fun _ _ => True := by
  obtain ⟨account, books, rfl⟩ := tended.books
  have live := tended.live_iff.mpr held
  apply ((ilock_fetches tended.table live).and (ilock_leaves books ip)).mono
  · intro _ after both
    obtain ⟨fetched, locked, -⟩ := both
    have frame := fetched.frame
    have loaded := fetched.loaded live
    have own : 0 < base ip ∨ after.Saved ip := by
      by_cases kept : 0 < base ip
      · exact .inl kept
      · have own : fs.Own ip (fs.inode ip).ref :=
          ⟨live, Int.le_refl _, fun valid => .inr ((tended.saved ip ⟨live, valid⟩).resolve_left kept)⟩
        have owned := (fetched.own tended.table own).saved loaded.2
        rw [fetched.ref] at owned
        exact .inr (owned.resolve_left (Int.lt_irrefl _))
    refine ⟨⟨tended.frame held (fetched.usable tended.usable live) (by rw [fetched.log]) ⟨_, locked, rfl⟩ frame fun _ => own,
      frame.stays fun _ => fetched.valid, fetched.files tended.table live⟩, loaded⟩
  · exact fun _ _ _ => trivial

theorem iunlock_goes (tended : Tended origin base refs fs) : Goes origin base floor refs gone fs (fs.setLocked ip false) := by
  obtain ⟨account, books, rfl⟩ := tended.books
  have table := tended.table
  have same := setLocked_same table ip false
  have entries : ∀ ip', ((fs.setLocked ip false).inode ip').inum = (fs.inode ip').inum ∧ ((fs.setLocked ip false).inode ip').valid = (fs.inode ip').valid ∧
      ((fs.setLocked ip false).inode ip').copy = (fs.inode ip').copy := by
    intro ip'
    by_cases here : ip' = ip
    · rw [here, setLocked_self]
      exact ⟨rfl, rfl, rfl⟩
    · rw [setLocked_of_ne here]
      exact ⟨rfl, rfl, rfl⟩
  refine ⟨⟨same.usable tended.usable, tended.inOp, ⟨_, (iunlock_leaves books ip).returned (iunlock_eq ip fs), rfl⟩, tended.unsigned, tended.more,
    fun ip' loaded => ?_⟩, ⟨fun ip' _ => (entries ip').1, fun ip' _ valid => (entries ip').2.1.trans valid⟩, same.files table⟩
  obtain ⟨inumIs, validIs, copyIs⟩ := entries ip'
  have before : fs.Loaded ip' := (same.loaded ip').mp loaded
  exact (tended.saved ip' before).imp_right fun saved => saved.same rfl rfl inumIs copyIs

/-- An entry that exists is known. -/
theorem Books.knows {account : Account} (books : Books account fs) (inside : ip < fs.ninode) : Books { account with known := insert ip account.known } fs := by
  refine ⟨books.ops, books.ref, books.locked, books.files, books.initialized, books.past, fun other known => ?_, books.pointers⟩
  cases known with
  | inl here => exact here ▸ inside
  | inr known => exact books.known other known

/-- A reference is given back that is not the last one to an inode without links. -/
theorem iput_only (tended : Tended origin base (plus refs ip) fs) (more : ∀ ip, base ip ≤ refs ip)
    (kept : ¬ ((fs.inode ip).ref = 1 ∧ (fs.inode ip).valid = true ∧ (fs.inode ip).copy.nlink = 0)) :
    Ensures (iput ip) fs (fun _ after => Goes origin base floor refs gone fs after) fun _ _ => False := by
  obtain ⟨account, books, known⟩ := tended.books
  have some : 0 ≤ refs ip := Int.le_trans (tended.unsigned ip) (more ip)
  have live : fs.Live ip := tended.live_iff.mpr (by rw [plus_self]; omega)
  have ref : (fs.inode ip).ref = refs ip + 1 := by rw [books.ref, known, plus_self]
  have own : fs.Own ip 1 := by
    refine ⟨live, by omega, fun valid => ?_⟩
    cases tended.saved ip ⟨live, valid⟩ with
    | inl kept =>
      have := more ip
      exact .inl (by omega)
    | inr saved => exact .inr saved
  have dropped : ∀ other, plus refs ip other - (if other = ip then 1 else 0) = refs other := fun other => Int.add_sub_cancel _ _
  apply ((iput_keeps tended.usable own kept).and (iput_leaves (books.knows live.1) (Set.mem_insert ip _))).mono
  · intro _ after both
    obtain ⟨⟨put, sb, store, entry⟩, books⟩ := both
    have entries : ∀ ip', (after.inode ip').inum = (fs.inode ip').inum ∧ (after.inode ip').valid = (fs.inode ip').valid ∧
        (after.inode ip').copy = (fs.inode ip').copy := by
      intro ip'
      by_cases here : ip' = ip
      · rw [here, entry]
        exact ⟨rfl, rfl, rfl⟩
      · rw [put.others ip' here]
        exact ⟨rfl, rfl, rfl⟩
    refine ⟨⟨put.usable, ?_, ⟨_, books, ?_⟩, tended.unsigned, more, fun ip' loaded => ?_⟩, ⟨fun ip' _ => (entries ip').1, fun ip' _ valid => (entries ip').2.1.trans valid⟩,
      put.files.mono fun _ => False.elim⟩
    · rw [put.files.outstanding]
      exact tended.inOp
    · funext other
      rw [Account.drop_refs]
      show account.refs other - _ = _
      rw [known, dropped]
    · obtain ⟨inumIs, validIs, copyIs⟩ := entries ip'
      have before : fs.Loaded ip' := by
        refine ⟨?_, validIs ▸ loaded.2⟩
        by_cases here : ip' = ip
        · rw [here]
          exact live
        · have isLive := loaded.1
          rw [Live, put.ninode, put.others ip' here] at isLive
          exact isLive
      exact (tended.saved ip' before).imp_right fun saved => saved.same sb store inumIs copyIs
  · exact fun _ _ both => both.1

/-- A reference to a linked inode is given back. -/
theorem iput_goes (tended : Tended origin base (plus refs ip) fs) (more : ∀ ip, base ip ≤ refs ip)
    (linked : (fs.current (fs.inode ip).inum).nlink ≠ 0) : Ensures (iput ip) fs (fun _ after => Goes origin base floor refs gone fs after) fun _ _ => False := by
  have some : 0 ≤ refs ip := Int.le_trans (tended.unsigned ip) (more ip)
  have live : fs.Live ip := tended.live_iff.mpr (by rw [plus_self]; omega)
  apply iput_only tended more
  intro last
  rw [current_loaded tended.table ⟨live, last.2.1⟩] at linked
  exact linked last.2.2

theorem Loose.counted {program : M α} (loose : Loose ip program) (books : ∃ account, Books account fs ∧ account.refs = refs) :
    Ensures program fs (fun _ after => ∃ account, Books account after ∧ account.refs = refs) fun _ _ => True := by
  obtain ⟨account, books, rfl⟩ := books
  apply (loose account fs books).weaken
  intro _ after either
  cases either with
  | inl same => exact ⟨_, same, rfl⟩
  | inr locked => exact ⟨_, locked, rfl⟩

/-- An inode that is held and read: a read changes no file, and writes the dinode back. -/
theorem Tended.reads (tended : Tended origin base refs fs) (plain : origin.Plain) (held : 0 < refs ip) (loaded : fs.Loaded ip)
    (used : (fs.inode ip).copy.type ≠ T_UNUSE_INODE_MYFUSE) (nbytes off : Nat) :
    Ensures (inodeReadNbytesLocked ip nbytes off) fs (fun _ after => Goes origin base floor refs (fun _ => False) fs after) fun _ _ => True := by
  have running := tended.usable.running plain loaded tended.inOp
  apply ((inodeReadNbytesLocked_spec running (fun roomy => absurd roomy plain.roomy) fun bounded => absurd bounded plain.bounded).and
    ((inodeReadNbytesLocked_loose _ _).counted tended.books)).mono
  · intro _ after both
    obtain ⟨⟨steady, agrees, -⟩, books⟩ := both
    have keeps := steady.keeps
    have own : 0 < base ip ∨ after.Saved ip := by
      by_cases kept : 0 < base ip
      · exact .inl kept
      · have saved := (tended.saved ip loaded).resolve_left kept
        cases agrees with
        | inl agrees =>
          refine .inr ⟨agrees, by rw [steady.size]; exact saved.whole, .inl ?_⟩
          rw [keeps.type]
          exact used
        | inr same => exact .inr (same ▸ saved)
    exact ⟨tended.frame held steady.running.usable keeps.outstanding books keeps.frame fun _ => own,
      keeps.frame.stays fun valid => keeps.valid.trans valid, steady.files tended.table loaded⟩
  · exact fun _ _ _ => trivial

/-- A write changes that inode only, and not its type or its links. -/
theorem Tended.writes (tended : Tended origin base refs fs) (plain : origin.Plain) (held : 0 < refs ip) (loaded : fs.Loaded ip)
    (used : (fs.inode ip).copy.type ≠ T_UNUSE_INODE_MYFUSE) {data : List Byte} (memory : data.length < 2 ^ 63) (off : Nat) :
    Ensures (inodeWriteNbytesLocked ip data off) fs
      (fun _ after => Goes origin base floor refs (· = (fs.inode ip).inum) fs after ∧ (after.inode ip).copy.type = (fs.inode ip).copy.type ∧
        (after.inode ip).copy.nlink = (fs.inode ip).copy.nlink)
      fun _ _ => True := by
  by_cases past : off > MAXFILE_SIZE
  · unfold inodeWriteNbytesLocked
    rw [if_pos past, ensures_pure]
    exact ⟨.refl tended, rfl, rfl⟩
  have inside : off ≤ MAXFILE_SIZE := Nat.not_lt.mp past
  have running := tended.usable.running plain loaded tended.inOp
  apply ((inodeWriteNbytesLocked_spec running (fun roomy => absurd roomy plain.roomy) inside (fun bounded => absurd bounded plain.bounded) memory).and
    ((inodeWriteNbytesLocked_loose _ _).counted tended.books)).mono
  · intro count after both
    obtain ⟨⟨countIs, acted, -⟩, books⟩ := both
    have keeps := acted.keeps
    have own : 0 < base ip ∨ after.Saved ip := by
      by_cases kept : 0 < base ip
      · exact .inl kept
      · have saved := (tended.saved ip loaded).resolve_left kept
        refine .inr ⟨acted.agrees, ?_, .inl ?_⟩
        · have whole := saved.whole
          have limit : MAXFILE_SIZE < 2 ^ 64 := by decide
          rw [acted.size]
          omega
        · rw [keeps.type]
          exact used
    exact ⟨⟨tended.frame held acted.running.usable keeps.outstanding books keeps.frame fun _ => own,
      keeps.frame.stays fun valid => keeps.valid.trans valid, keeps.frame.files keeps.outstanding acted.others⟩, keeps.type, acted.nlink⟩
  · exact fun _ _ _ => trivial

/-- Only entries that are not in use have changed. -/
theorem SameInUse.goes (same : SameInUse fs after) (tended : Tended origin base refs fs) (low : ∀ ip, floor ip ≤ refs ip)
    (books : ∃ account, Books account after ∧ account.refs = refs) : Goes origin base floor refs gone fs after := by
  have loaded := same.sameLoaded tended.table
  have entries : ∀ ip, 0 < floor ip → after.inode ip = fs.inode ip := fun ip held => same.inode ip (tended.live_iff.mpr (Int.lt_of_lt_of_le held (low ip)))
  refine ⟨⟨loaded.usable tended.usable, ?_, books, tended.unsigned, tended.more, fun ip isLoaded => ?_⟩, ⟨fun ip held => ?_, fun ip held valid => ?_⟩,
    loaded.files tended.table⟩
  · rw [loaded.log]
    exact tended.inOp
  · have before := (same.loaded ip).mp isLoaded
    have entry := same.inode ip before.1
    exact (tended.saved ip before).imp_right fun saved => saved.same loaded.sb loaded.store (by rw [entry]) (by rw [entry])
  · rw [entries ip held]
  · rw [entries ip held]
    exact valid

/-! Directories that are held and read. -/

/-- A directory in hand: its entry is held and read, and its bytes are these slots. -/
structure InHand (refs : Nat → Int) (fs : FS) (dp : Nat) (slots : Dirents) : Prop where
  held : 0 < refs dp
  loaded : fs.Loaded dp
  isDir : (fs.inode dp).copy.type = T_DIR_INODE_MYFUSE
  directory : fs.Directory dp slots

/-- The entries name linked inodes of the disk. -/
structure Named (fs : FS) (slots : Dirents) : Prop where
  inside : ∀ inum ∈ slots.values, inum.1 < fs.sb.ninodes
  linked : ∀ inum ∈ slots.values, (fs.current inum.1).nlink ≠ 0

/-- An inode found in the directory is linked still. -/
theorem Named.found {name : DirName} {other : Inum} {place : Nat} (named : fs.Named slots) (goes : Goes origin base floor refs (fun _ => False) fs after)
    (found : slots.lookup name 0 = some (other, place)) (names : (after.inode ip).inum = other.1) : (after.current (after.inode ip).inum).nlink ≠ 0 := by
  have inside : other ∈ slots.values := Slots.mem_values.mpr ⟨_, List.mem_of_getElem? (Slots.lookup_found found).2⟩
  rw [names, (goes.files.attrs _ (named.inside other inside) id).nlink]
  exact named.linked other inside

/-- The directory in hand has these slots now, and nothing else changed. -/
structure Rewrote (origin : Origin) (base floor refs : Nat → Int) (dp : Nat) (slots : Dirents) (fs after : FS) : Prop where
  goes : Goes origin base floor refs (· = (fs.inode dp).inum) fs after
  hand : InHand refs after dp slots
  inum : (after.inode dp).inum = (fs.inode dp).inum
  nlink : (after.inode dp).copy.nlink = (fs.inode dp).copy.nlink

namespace InHand
variable (hand : InHand refs fs dp slots)
include hand

/-- Steps that leave the file keep it in hand. -/
theorem goes {refs' : Nat → Int} (table : fs.TableOk) (goes : Goes origin base floor refs' gone fs after) (held : 0 < floor dp) (low : floor dp ≤ refs' dp)
    (kept : ¬ gone (fs.inode dp).inum) : InHand refs' after dp slots := by
  have loaded := goes.loaded held low hand.loaded
  have table' := goes.tended.table
  have names := goes.stays.inum dp held
  have attrs := goes.files.attrs _ (table.inside dp hand.loaded.1) kept
  have copy := current_loaded table' loaded
  rw [names] at copy
  rw [current_loaded table hand.loaded, copy] at attrs
  refine ⟨Int.lt_of_lt_of_le held low, loaded, attrs.type.trans hand.isDir, attrs.size.trans hand.directory.size, ?_, hand.directory.few⟩
  rw [names, goes.files.content _ kept, hand.directory.bytes]

theorem running (plain : origin.Plain) (tended : Tended origin base refs fs) : fs.Running origin dp :=
  tended.usable.running plain hand.loaded tended.inOp

/-- The read of a directory changes no file. -/
theorem reads (plain : origin.Plain) (tended : Tended origin base refs fs) : Ensures (inodeReadNbytesLocked dp (fs.inode dp).copy.size 0) fs
    (fun data after => Goes origin base floor refs (fun _ => False) fs after ∧ data = direntsBytes slots) fun _ _ => True := by
  have used : (fs.inode dp).copy.type ≠ T_UNUSE_INODE_MYFUSE := by
    rw [hand.isDir]
    decide
  apply ((tended.reads plain hand.held hand.loaded used _ 0).and (readDirectory_spec plain (hand.running plain tended) hand.directory)).mono
  · exact fun _ _ both => ⟨both.1, both.2.2⟩
  · exact fun _ _ _ => trivial

/-- A name is looked up. The inode found is held. -/
theorem looksUp (plain : origin.Plain) (tended : Tended origin base refs fs) (low : ∀ ip, floor ip ≤ refs ip) (inside : ∀ inum ∈ slots.values, inum.1 < fs.sb.ninodes)
    (name : Name) : Ensures (dirlookup dp name) fs
      (fun answer after => (slots.lookup (.of name) 0 = none ∧ answer = none ∧ Goes origin base floor refs (fun _ => False) fs after) ∨
        ∃ inum place ip, slots.lookup (.of name) 0 = some (inum, place) ∧ answer = some (ip, direntSize * place) ∧
          Goes origin base floor (plus refs ip) (fun _ => False) fs after ∧ (after.inode ip).inum = inum.1)
      fun _ _ => True := by
  unfold dirlookup
  rw [ensures_bind, ensures_get]
  dsimp only
  apply Ensures.bind (hand.reads plain tended)
  intro data middle read
  obtain ⟨goes, rfl⟩ := read
  rw [if_neg (by rw [length_direntsBytes, hand.directory.size]; exact not_not.mpr rfl), findDirent_directory hand.directory]
  cases found : slots.lookup (.of name) 0 with
  | none => exact (ensures_pure _).mpr (.inl ⟨rfl, rfl, goes⟩)
  | some entry =>
    obtain ⟨inum, place⟩ := entry
    have there : inum.1 < middle.sb.ninodes := by
      rw [goes.files.sb]
      apply inside
      rw [Slots.mem_values]
      exact ⟨_, List.mem_of_getElem? (Slots.lookup_found found).2⟩
    apply Ensures.bind ((iget_goes goes.tended low there).mono (fun _ _ got => got) fun _ _ => False.elim)
    intro ip after got
    obtain ⟨next, names⟩ := got
    exact (ensures_pure _).mpr (.inr ⟨inum, place, ip, rfl, rfl, goes.trans next, names⟩)

/-- Where `dirlink` writes. -/
theorem placed (plain : origin.Plain) (tended : Tended origin base refs fs) : Ensures (dirlinkOffset dp) fs
    (fun off after => Goes origin base floor refs (fun _ => False) fs after ∧
      off = if slots.firstFree < MAXDIRENTS then direntSize * slots.firstFree else 2 ^ 64 - 2 ^ 31)
    fun _ _ => True := by
  have goes : Ensures (dirlinkOffset dp) fs (fun _ after => Goes origin base floor refs (fun _ => False) fs after) fun _ _ => True := by
    unfold dirlinkOffset
    rw [ensures_bind, ensures_get]
    dsimp only
    split
    next =>
      apply Ensures.bind (hand.reads plain tended)
      intro data middle read
      split
      next => exact (ensures_stop _).mpr trivial
      next =>
        split
        next => exact (ensures_stop _).mpr trivial
        next =>
          split
          next => exact (ensures_stop _).mpr trivial
          next => exact (ensures_pure _).mpr read.1
    next => exact (ensures_pure _).mpr (.refl tended)
  apply (goes.and (dirlinkOffset_spec plain (hand.running plain tended) hand.directory)).mono
  · exact fun _ _ both => ⟨both.1, both.2.2⟩
  · exact fun _ _ _ => trivial

/-- One slot is written; no other inode changes. -/
theorem writes {place : Nat} (plain : origin.Plain) (tended : Tended origin base refs fs) (inside : place ≤ slots.length) (small : place < MAXDIRENTS)
    (slot : Option (DirName × Inum)) : Ensures (inodeWriteNbytesLocked dp (slotBytes slot) (direntSize * place)) fs
      (fun count after => count = direntSize ∧ Rewrote origin base floor refs dp (slots.take place ++ slot :: slots.drop (place + 1)) fs after)
      fun _ _ => True := by
  apply ((writeSlot_acts plain (hand.running plain tended) hand.directory inside small slot).and
    ((inodeWriteNbytesLocked_loose _ _).counted tended.books)).mono
  · intro count after both
    obtain ⟨⟨all, ⟨size, bytes, acted⟩, wrote⟩, books⟩ := both
    have keeps := acted.keeps
    have isDir : (after.inode dp).copy.type = T_DIR_INODE_MYFUSE := keeps.type.trans hand.isDir
    have saved : after.Saved dp := by
      refine ⟨acted.agrees, Nat.lt_of_le_of_lt wrote.directory.small (by decide), .inl ?_⟩
      rw [isDir]
      decide
    have goes : Goes origin base floor refs (· = (fs.inode dp).inum) fs after :=
      ⟨tended.frame hand.held wrote.running.usable keeps.outstanding books keeps.frame fun _ => .inr saved,
        keeps.frame.stays fun valid => keeps.valid.trans valid, keeps.frame.files keeps.outstanding acted.others⟩
    exact ⟨all, goes, ⟨hand.held, wrote.running.loaded, isDir, wrote.directory⟩, keeps.inum, acted.nlink⟩
  · exact fun _ _ _ => trivial

/-- Steps that change nothing come first. -/
theorem rewrote {slots' : Dirents} (table : fs.TableOk) (goes : Goes origin base refs refs (fun _ => False) fs middle)
    (wrote : Rewrote origin base refs refs dp slots' middle after) : Rewrote origin base refs refs dp slots' fs after := by
  have names := goes.stays.inum dp hand.held
  have attrs := goes.files.attrs _ (table.inside dp hand.loaded.1) id
  have copy := current_loaded goes.tended.table (hand.goes table goes hand.held (Int.le_refl _) id).loaded
  rw [names] at copy
  rw [current_loaded table hand.loaded, copy] at attrs
  have second := wrote.goes
  rw [names] at second
  exact ⟨(goes.mono (fun _ => Int.le_refl _) fun _ => False.elim).trans second, wrote.hand, wrote.inum.trans names, wrote.nlink.trans attrs.nlink⟩

/-- A missing name takes a slot; a present one is left alone. -/
theorem links (plain : origin.Plain) (tended : Tended origin base refs fs) (named : fs.Named slots) (name : Name) (inum : Inum) :
    Ensures (dirlink dp name inum.1) fs
      (fun result after => (DirName.of name ∈ slots.keys ∧ result = -1 ∧ Goes origin base refs refs (fun _ => False) fs after) ∨
        (DirName.of name ∉ slots.keys ∧ result = 0 ∧ Rewrote origin base refs refs dp (slots.put (.of name, inum)) fs after))
      fun _ _ => True := by
  unfold dirlink
  apply Ensures.bind (hand.looksUp plain tended (fun _ => Int.le_refl _) named.inside name)
  intro answer looked either
  obtain ⟨missing, rfl, goes⟩ | ⟨other, place, ip, found, rfl, goes, names⟩ := either
  · have absent := (Slots.lookup_eq_none 0).mp missing
    have hand' := hand.goes tended.table goes hand.held (Int.le_refl _) id
    apply Ensures.bind (hand'.placed plain goes.tended)
    intro off current placed
    obtain ⟨goes', where'⟩ := placed
    have hand'' := hand'.goes goes.tended.table goes' hand.held (Int.le_refl _) id
    split at where'
    next room =>
      rw [where', direntBytes_of]
      apply Ensures.bind (hand''.writes plain goes'.tended slots.firstFree_le room (some (.of name, inum)))
      intro count after wrote
      obtain ⟨rfl, wrote⟩ := wrote
      rw [if_neg (not_not.mpr rfl), ensures_pure]
      rw [← Slots.put_eq] at wrote
      exact .inr ⟨absent, rfl, hand.rewrote tended.table (goes.trans goes') wrote⟩
    next =>
      have past : 2 ^ 64 - 2 ^ 31 > MAXFILE_SIZE := by decide
      unfold inodeWriteNbytesLocked
      rw [where', if_pos past, ensures_bind, ensures_pure, if_pos (by decide), ensures_stop]
      trivial
  · have present : DirName.of name ∈ slots.keys := by
      by_contra absent
      rw [(Slots.lookup_eq_none 0).mpr absent] at found
      cases found
    apply Ensures.bind ((iput_goes goes.tended tended.more (named.found goes found names)).mono (fun _ _ put => put) fun _ _ => False.elim)
    exact fun _ after put => (ensures_pure _).mpr (.inl ⟨present, rfl, goes.trans put⟩)

/-- The entry of a name is cleared, after the reference to its inode is given back. -/
theorem drops (plain : origin.Plain) (tended : Tended origin base refs fs) (named : fs.Named slots) (name : Name) :
    Ensures (dropDirent dp name) fs
      (fun _ after => DirName.of name ∈ slots.keys ∧ Rewrote origin base refs refs dp (slots.clear (.of name)) fs after)
      fun _ _ => True := by
  unfold dropDirent
  apply Ensures.bind (hand.looksUp plain tended (fun _ => Int.le_refl _) named.inside name)
  intro answer looked either
  obtain ⟨missing, rfl, goes⟩ | ⟨other, place, ip, found, rfl, goes, names⟩ := either
  · exact ensures_bind.mpr ((ensures_stop _).mpr trivial)
  · obtain ⟨-, here⟩ := Slots.lookup_found found
    rw [Nat.sub_zero] at here
    obtain ⟨inside, -⟩ := List.getElem?_eq_some_iff.mp here
    have present : DirName.of name ∈ slots.keys := by
      by_contra absent
      rw [(Slots.lookup_eq_none 0).mpr absent] at found
      cases found
    have cleared := Slots.clear_eq found
    rw [Nat.sub_zero] at cleared
    apply Ensures.bind ((iput_goes goes.tended tended.more (named.found goes found names)).mono (fun _ _ put => put) fun _ _ => False.elim)
    intro _ given put
    have goes := goes.trans put
    have hand' := hand.goes tended.table goes hand.held (Int.le_refl _) id
    apply Ensures.bind (hand'.writes plain goes.tended (Nat.le_of_lt inside) (Nat.lt_of_lt_of_le inside hand.directory.few) none)
    intro _ after wrote
    rw [← cleared] at wrote
    exact (ensures_pure _).mpr ⟨present, hand.rewrote tended.table goes wrote.2⟩

end InHand

end FS
end Myfuse
