import Myfuse.Proofs.LinkedTree

/-! Steps of a call on paths that make, edit and let go of inodes. All entries are saved, but for one
that is edited. -/

namespace Myfuse
open Library Library.Exec

namespace Dinode

/-- The block of a dinode that `ialloc` has taken. -/
def claimed (data : Block) (offset : Nat) (type : BitVec 16) : Block :=
  (data.splice offset (List.replicate dinodeSize 0)).setField offset 2 type.toNat

variable {data : Block} {offset : Nat} {type : BitVec 16}

/-- All fields are cleared but the type. -/
theorem field_claimed {low width : Nat} (above : offset + 2 ≤ low) (below : low + width ≤ offset + dinodeSize)
    (inside : offset + dinodeSize ≤ BSIZE) : (claimed data offset type).field low width = 0 := by
  unfold claimed
  have zero : (Bytes.zero : Block).field low width = 0 := Bytes.field_zero low width
  rw [Bytes.field_setField_other _ (.inr above), ← zero]
  apply Bytes.field_congr
  intro index first last
  rw [Bytes.byte_splice _ _ _ (by omega), Bytes.byte_zero, List.length_replicate, if_pos (by omega), List.getD_eq_getElem?_getD, List.getElem?_replicate]
  split
  · rfl
  · rfl

theorem type_claimed (inside : offset + dinodeSize ≤ BSIZE) : (read (claimed data offset type) offset).type = type := by
  simp only [dinodeSize] at inside
  simp only [read, claimed]
  rw [Bytes.field_setField _ _ _ _ (by omega), show 256 ^ 2 = 2 ^ 16 from rfl, Nat.mod_eq_of_lt type.isLt]
  simp

theorem nlink_claimed (inside : offset + dinodeSize ≤ BSIZE) : (read (claimed data offset type) offset).nlink = 0 := by
  simp only [read]
  rw [field_claimed (by omega) (by simp only [dinodeSize]; omega) inside]
  rfl

theorem size_claimed (inside : offset + dinodeSize ≤ BSIZE) : (read (claimed data offset type) offset).size = 0 :=
  field_claimed (by omega) (by simp only [dinodeSize]; omega) inside

theorem addrs_claimed (inside : offset + dinodeSize ≤ BSIZE) (slot : Nat) : (read (claimed data offset type) offset).addrs slot = 0 := by
  simp only [read]
  split
  next small =>
    simp only [NBLOCKADDR, NDIRECT, NSUBDIRECT] at small
    exact field_claimed (by omega) (by simp only [dinodeSize]; omega) inside
  next => rfl

/-- The other dinodes of the block stay. -/
theorem read_claimed_other {inum other : Nat} (block : other / IPB = inum / IPB) (apart : other ≠ inum) :
    read (claimed data (offsetOf inum) type) (offsetOf other) = read data (offsetOf other) := by
  apply read_congr
  intro index low high
  unfold claimed
  simp only [offsetOf, IPB, dinodeSize, BSIZE] at *
  rw [byte_setField_outside _ (by omega)]
  by_cases inside : index < BSIZE
  · simp only [BSIZE] at inside
    rw [Bytes.byte_splice _ _ _ inside, List.length_replicate, if_neg (by omega)]
  · rw [Bytes.byte_outside _ (Nat.not_lt.mp inside), Bytes.byte_outside _ (Nat.not_lt.mp inside)]

end Dinode

namespace FS
variable {α : Type} {origin : Origin} {base floor refs : Nat → Int} {gone : Nat → Prop} {fs middle after : FS} {ip dp inum : Nat} {slots : Dirents}

/-! A new inode. -/

/-- The dinode of a number that was free is taken. -/
structure Claimed (origin : Origin) (inum : Nat) (type : BitVec 16) (fs after : FS) : Prop where
  usable : after.Usable origin
  sb : after.sb = fs.sb
  inode : after.inode = fs.inode
  ninode : after.ninode = fs.ninode
  outstanding : after.log.outstanding = fs.log.outstanding
  content : after.content = fs.content
  others : ∀ other, other ≠ inum → after.dinode other = fs.dinode other
  type : (after.dinode inum).type = type
  nlink : (after.dinode inum).nlink = 0
  size : (after.dinode inum).size = 0

theorem claim_spec (usable : fs.Usable origin) (inOp : 1 ≤ fs.log.outstanding) (inside : inum < fs.sb.ninodes)
    (unused : (fs.dinode inum).type = T_UNUSE_INODE_MYFUSE) (absent : fs.entryOf inum = none) (type : BitVec 16) :
    Ensures (loggedUpdate (fs.sb.iblock inum) fun data =>
        (data.splice (Dinode.offsetOf inum) (List.replicate dinodeSize 0)).setField (Dinode.offsetOf inum) 2 type.toNat) fs
      (fun _ after => Claimed origin inum type fs after) fun _ _ => True := by
  have volume := usable.volume
  have fits := Dinode.offsetOf_fits inum
  apply ((loggedUpdate_spec inOp _ _).and (loggedUpdate_uses _ _ fs)).mono
  · intro _ after wrote
    obtain ⟨⟨-, afterIs⟩, used, -⟩ := wrote
    have sb : after.sb = fs.sb := by rw [afterIs]; rfl
    have inode : after.inode = fs.inode := by rw [afterIs]; rfl
    have ninode : after.ninode = fs.ninode := by rw [afterIs]; rfl
    have written : after.store (fs.sb.iblock inum) = Dinode.claimed (fs.store (fs.sb.iblock inum)) (Dinode.offsetOf inum) type := by
      rw [afterIs]
      exact assign_self ..
    have store : ∀ other, other ≠ fs.sb.iblock inum → after.store other = fs.store other := by
      intro other apart
      rw [afterIs]
      exact assign_of_ne apart ..
    have self : after.dinode inum = Dinode.read (Dinode.claimed (fs.store (fs.sb.iblock inum)) (Dinode.offsetOf inum) type) (Dinode.offsetOf inum) := by
      rw [dinode, sb, written]
    have others : ∀ other, other ≠ inum → after.dinode other = fs.dinode other := by
      intro other apart
      by_cases block : fs.sb.iblock other = fs.sb.iblock inum
      · rw [dinode, dinode, sb, block, written]
        apply Dinode.read_claimed_other _ apart
        simp only [Superblock.iblock] at block
        omega
      · exact dinode_congr sb (store _ block)
    have entryOf : ∀ other, after.entryOf other = fs.entryOf other := by
      intro other
      unfold FS.entryOf
      rw [inode, ninode]
    have roots : after.roots = fs.roots := by
      funext owner slot
      unfold FS.roots FS.current
      rw [sb, entryOf]
      by_cases here : owner = inum
      · rw [here, absent, unused, self]
        simp only [Dinode.addrs_claimed fits, ite_self]
        rw [if_neg]
        intro all
        cases all.2.2 with
        | inl some => cases some
        | inr used => exact used rfl
      · rw [others owner here, inode]
    have offData : ∀ blockno, fs.sb.InData blockno → after.store blockno = fs.store blockno := by
      intro blockno data
      apply store
      intro same
      exact Superblock.iblock_not_data volume.layout inside (same ▸ data)
    have offBitmap : ∀ blockno, fs.sb.InBitmap blockno → after.store blockno = fs.store blockno := by
      intro blockno bitmap
      apply store
      intro same
      exact Superblock.iblock_not_bitmap volume.layout inside (same ▸ bitmap)
    have held : after.held = fs.held := held_congr roots fun owner path _ holds _ => by rw [offData _ (volume.owned.inside _ _ holds)]
    have allocator : after.Allocator origin :=
      volume.toAllocator.congr sb (by rw [afterIs]; rfl) (.one rfl (by rw [afterIs]; rfl)) offBitmap
    have owned := volume.owned.congr fun blockno data => bitOf_congr (offBitmap _ (Superblock.bblock_inBitmap data.covered))
    have table : after.TableOk := by
      refine ⟨fun ip live => ?_, fun first second live live' same => ?_⟩
      · rw [Live, inode, ninode] at live
        rw [sb, inode]
        exact volume.table.inside ip live
      · rw [Live, inode, ninode] at live live'
        rw [inode] at same
        exact volume.table.unique first second live live' same
    refine ⟨⟨⟨allocator, table, by rw [held, sb]; exact owned⟩, used.committing.trans usable.committing, used.size.trans usable.size⟩,
      sb, inode, ninode, used.outstanding, ?_, others, ?_, ?_, ?_⟩
    · funext owner p
      exact content_congr (by rw [held]) fun holds => offData _ (volume.owned.inside _ _ holds)
    · rw [self, Dinode.type_claimed fits]
    · rw [self, Dinode.nlink_claimed fits]
    · rw [self, Dinode.size_claimed fits]
  · exact fun _ _ _ => trivial

/-- The entry and its dinode are not touched. -/
theorem Saved.elsewhere (saved : fs.Saved ip) (entry : after.inode ip = fs.inode ip) (dinode : after.dinode (fs.inode ip).inum = fs.dinode (fs.inode ip).inum) :
    after.Saved ip := by
  have agrees : after.Agrees ip := by
    constructor
    · rw [entry, dinode, saved.type]
    · rw [entry, dinode, saved.nlink]
    · rw [entry, dinode, saved.size]
    · rw [entry, dinode]
      exact saved.addrs
  exact saved.congr agrees (by rw [entry]) (by rw [entry]) (.inr (by rw [entry]))

/-- No entry may be unsaved. -/
def allSaved : Nat → Int := fun _ => 0

/-- One entry may be unsaved. -/
def butOne (ip : Nat) : Nat → Int := plus allSaved ip

theorem Tended.isSaved (tended : Tended origin allSaved refs fs) (loaded : fs.Loaded ip) : fs.Saved ip :=
  (tended.saved ip loaded).resolve_left (Int.lt_irrefl 0)

/-- Entries that are held are for inodes in use. -/
def Occupied (refs : Nat → Int) (fs : FS) : Prop := ∀ ip, 0 < refs ip → (fs.current (fs.inode ip).inum).type ≠ T_UNUSE_INODE_MYFUSE

/-- A number that `ialloc` finds free has no entry. -/
theorem Tended.unclaimed (tended : Tended origin allSaved refs fs) (occupied : Occupied refs fs) (unused : (fs.dinode inum).type = T_UNUSE_INODE_MYFUSE) :
    (∀ ip, 0 < refs ip → (fs.inode ip).inum ≠ inum) ∧ fs.entryOf inum = none ∧ (fs.current inum).type = T_UNUSE_INODE_MYFUSE := by
  have free : ∀ ip, 0 < refs ip → (fs.inode ip).inum ≠ inum := by
    intro ip held same
    apply occupied ip held
    by_cases valid : (fs.inode ip).valid = true
    · have loaded : fs.Loaded ip := ⟨tended.live_iff.mpr held, valid⟩
      rw [current_loaded tended.table loaded, ← (tended.isSaved loaded).type, same]
      exact unused
    · rw [FS.current, entryOf_absent tended.table (tended.live_iff.mpr held) (Bool.eq_false_iff.mpr valid), same]
      exact unused
  have absent : fs.entryOf inum = none := by
    cases found : fs.entryOf inum with
    | none => rfl
    | some ip =>
      obtain ⟨loaded, same⟩ := entryOf_some found
      exact absurd same (free ip (tended.live_iff.mp loaded.1))
  refine ⟨free, absent, ?_⟩
  rw [FS.current, absent]
  exact unused

/-- An inode without bytes. -/
structure Blank (fs : FS) (inum : Nat) (type nlink : BitVec 16) : Prop where
  type : (fs.current inum).type = type
  nlink : (fs.current inum).nlink = nlink
  size : (fs.current inum).size = 0

theorem Blank.kept {type nlink : BitVec 16} (blank : fs.Blank inum type nlink) (files : SameFiles gone fs after) (inside : inum < fs.sb.ninodes)
    (apart : ¬ gone inum) : after.Blank inum type nlink := by
  have attrs := files.attrs inum inside apart
  exact ⟨attrs.type.trans blank.type, attrs.nlink.trans blank.nlink, attrs.size.trans blank.size⟩

/-- The inode is new, and the entry is the first for it. -/
structure Fresh (origin : Origin) (floor refs : Nat → Int) (type : BitVec 16) (inum ip : Nat) (fs after : FS) : Prop where
  goes : Goes origin allSaved floor (plus refs ip) (· = inum) fs after
  inside : inum < fs.sb.ninodes
  positive : 0 < inum
  unused : (fs.current inum).type = T_UNUSE_INODE_MYFUSE
  names : (after.inode ip).inum = inum
  first : refs ip = 0
  blank : after.Blank inum type 0

theorem iallocFrom_goes (type : BitVec 16) (count : Nat) (tended : Tended origin allSaved refs fs) (low : ∀ ip, floor ip ≤ refs ip)
    (occupied : Occupied refs fs) {first : Nat} (positive : 0 < first) (inside : first + count ≤ fs.sb.ninodes) :
    Ensures (iallocFrom type count first) fs (fun ip after => ∃ inum, Fresh origin floor refs type inum ip fs after) fun _ _ => True := by
  induction count generalizing first with
  | zero => exact (ensures_stop _).mpr trivial
  | succ count ih =>
    unfold iallocFrom loggedRead
    rw [ensures_bind, ensures_get, ensures_bind, ensures_bind, ensures_get, ensures_pure]
    split
    next unused =>
      obtain ⟨free, absent, unused'⟩ := tended.unclaimed occupied unused
      have first_inside : first < fs.sb.ninodes := by omega
      obtain ⟨account, books, rfl⟩ := tended.books
      apply Ensures.bind (((claim_spec tended.usable tended.inOp first_inside unused absent type).and ((loggedUpdate_neutral _ _).leaves books)).mono
        (fun _ _ both => both) fun _ _ _ => trivial)
      intro _ claimed both
      obtain ⟨claim, books⟩ := both
      have tended' : Tended origin allSaved account.refs claimed := by
        refine ⟨claim.usable, by rw [claim.outstanding]; exact tended.inOp, ⟨account, books, rfl⟩, tended.unsigned, tended.more, fun ip loaded => .inr ?_⟩
        have before : fs.Loaded ip := by
          rw [Loaded, Live, claim.inode, claim.ninode] at loaded
          exact loaded
        exact (tended.isSaved before).elsewhere (by rw [claim.inode]) (claim.others _ (free ip (tended.live_iff.mp before.1)))
      have files : SameFiles (· = first) fs claimed := by
        refine ⟨claim.sb, claim.outstanding, fun inum _ apart => ?_, fun _ _ => by rw [claim.content]⟩
        have entryOf : claimed.entryOf inum = fs.entryOf inum := by
          unfold FS.entryOf
          rw [claim.inode, claim.ninode]
        unfold FS.current
        rw [entryOf, claim.others inum apart, claim.inode]
        exact .refl _
      have current : claimed.current first = claimed.dinode first := by
        have entryOf : claimed.entryOf first = fs.entryOf first := by
          unfold FS.entryOf
          rw [claim.inode, claim.ninode]
        rw [FS.current, entryOf, absent]
      have stays : Stays floor fs claimed := ⟨fun _ _ => by rw [claim.inode], fun _ _ valid => by rw [claim.inode]; exact valid⟩
      apply (iget_goes tended' (fun ip => Int.le_refl (account.refs ip)) (by rw [claim.sb]; exact first_inside)).mono
      · intro ip after got
        obtain ⟨goes, names⟩ := got
        have goes : Goes origin allSaved account.refs (plus account.refs ip) (fun _ => False) claimed after := goes
        have none : account.refs ip = 0 := by
          have some : 0 ≤ account.refs ip := tended.more ip
          by_contra other
          have held : 0 < account.refs ip := by omega
          have same := goes.stays.inum ip held
          rw [claim.inode] at same
          exact free ip held (same.symm.trans names)
        have attrs := goes.files.attrs first (by rw [claim.sb]; exact first_inside) id
        rw [current] at attrs
        have goes : Goes origin allSaved floor (plus account.refs ip) (fun _ => False) claimed after := goes.mono low fun _ => id
        exact ⟨first, ⟨goes.tended, stays.trans goes.stays, files.joins (goes.files.mono fun _ => False.elim)⟩, first_inside, positive, unused', names, none,
          ⟨attrs.type.trans claim.type, attrs.nlink.trans claim.nlink, attrs.size.trans claim.size⟩⟩
      · exact fun _ _ => False.elim
    next => exact ih (Nat.lt_succ_of_lt positive) (by omega)

/-- `ialloc` takes a number that no one uses. -/
theorem ialloc_goes (type : BitVec 16) (tended : Tended origin allSaved refs fs) (low : ∀ ip, floor ip ≤ refs ip) (occupied : Occupied refs fs) :
    Ensures (ialloc type) fs (fun ip after => ∃ inum, Fresh origin floor refs type inum ip fs after) fun _ _ => True := by
  unfold ialloc
  rw [ensures_bind, ensures_get]
  by_cases some : 1 ≤ fs.sb.ninodes
  · exact iallocFrom_goes type _ tended low occupied Nat.one_pos (by omega)
  · have none : fs.sb.ninodes - 1 = 0 := by omega
    rw [none]
    exact (ensures_stop _).mpr trivial

/-! An entry that is edited. -/

/-- The edit begins. -/
theorem Tended.loosen (tended : Tended origin allSaved refs fs) (held : 0 < refs ip) : Tended origin (butOne ip) refs fs := by
  refine ⟨tended.usable, tended.inOp, tended.books, fun other => ?_, fun other => ?_, fun other loaded => .inr (tended.isSaved loaded)⟩
  · exact le_plus allSaved ip other
  · have some : 0 ≤ refs other := tended.more other
    unfold butOne plus allSaved
    split
    next here =>
      rw [here]
      omega
    next => omega

/-- The edit ends with the entry saved. -/
theorem Tended.tighten (tended : Tended origin (butOne ip) refs fs) (own : fs.Loaded ip → fs.Saved ip) : Tended origin allSaved refs fs := by
  refine ⟨tended.usable, tended.inOp, tended.books, fun _ => Int.le_refl 0, fun other => ?_, fun other loaded => .inr ?_⟩
  · exact Int.le_trans (tended.unsigned other) (tended.more other)
  · by_cases here : other = ip
    · rw [here] at loaded ⊢
      exact own loaded
    · have none : butOne ip other = 0 := plus_of_ne here
      have kept := tended.saved other loaded
      rw [none] at kept
      exact kept.resolve_left (Int.lt_irrefl 0)

/-- The last step goes on from the others. -/
theorem Goes.follow {base' : Nat → Int} {refs' : Nat → Int} (second : Goes origin base floor refs' gone middle after)
    (first : Goes origin base' floor refs gone fs middle) : Goes origin base floor refs' gone fs after :=
  ⟨second.tended, first.stays.trans second.stays, first.files.joins second.files⟩

/-- An entry that is held keeps its type, links and size. -/
theorem Goes.copy {refs' : Nat → Int} (goes : Goes origin base floor refs' gone fs after) (table : fs.TableOk) (held : 0 < floor ip) (low : floor ip ≤ refs' ip)
    (loaded : fs.Loaded ip) (kept : ¬ gone (fs.inode ip).inum) : SameAttrs (fs.inode ip).copy (after.inode ip).copy := by
  have attrs := goes.files.attrs _ (table.inside ip loaded.1) kept
  have copy := current_loaded goes.tended.table (goes.loaded held low loaded)
  rw [goes.stays.inum ip held] at copy
  rw [current_loaded table loaded, copy] at attrs
  exact attrs

namespace Tended
variable (tended : Tended origin base refs fs)
include tended

/-- Fields of the entry other than type, slots and size. -/
theorem edits (plain : origin.Plain) (ours : 0 < base ip) (loaded : fs.Loaded ip) (change : Dinode → Dinode) (type : ∀ copy, (change copy).type = copy.type)
    (addrs : ∀ copy, (change copy).addrs = copy.addrs) :
    Ensures (modifyCopy ip change) fs (fun _ after => Goes origin base floor refs (· = (fs.inode ip).inum) fs after ∧ after.Loaded ip ∧
      (after.inode ip).copy = change (fs.inode ip).copy) fun _ _ => True := by
  obtain ⟨account, books, rfl⟩ := tended.books
  apply (((tended.usable.running plain loaded tended.inOp).setCopy change type addrs).and ((modifyCopy_neutral change).leaves books)).mono
  · intro _ after both
    obtain ⟨⟨running, keeps, content, -, -, copy⟩, books⟩ := both
    refine ⟨⟨?_, keeps.frame.stays fun valid => keeps.valid.trans valid, keeps.frame.files keeps.outstanding fun _ _ => by rw [content]⟩, running.loaded, copy⟩
    exact tended.frame (tended.live_iff.mp loaded.1) running.usable keeps.outstanding ⟨account, books, rfl⟩ keeps.frame fun _ => .inl ours
  · exact fun _ _ (_ : True ∧ True) => trivial

/-- Fields that are neither links nor size change no file. -/
theorem stamps (plain : origin.Plain) (ours : 0 < base ip) (loaded : fs.Loaded ip) (change : Dinode → Dinode)
    (same : ∀ copy, SameAttrs copy (change copy)) (addrs : ∀ copy, (change copy).addrs = copy.addrs) :
    Ensures (modifyCopy ip change) fs (fun _ after => Goes origin base floor refs gone fs after ∧ after.Loaded ip ∧
      (after.inode ip).copy = change (fs.inode ip).copy) fun _ _ => True := by
  obtain ⟨account, books, rfl⟩ := tended.books
  have running := tended.usable.running plain loaded tended.inOp
  apply ((running.setCopy change (fun copy => (same copy).type) addrs).and ((modifyCopy_neutral change).leaves books)).mono
  · intro _ after both
    obtain ⟨⟨running, keeps, content, -, -, copy⟩, books⟩ := both
    have steady : Steady origin ip fs after := ⟨running, keeps, content, copy ▸ (same _).size, copy ▸ (same _).nlink⟩
    refine ⟨⟨?_, keeps.frame.stays fun valid => keeps.valid.trans valid, steady.files tended.table loaded⟩, running.loaded, copy⟩
    exact tended.frame (tended.live_iff.mp loaded.1) running.usable keeps.outstanding ⟨account, books, rfl⟩ keeps.frame fun _ => .inl ours
  · exact fun _ _ (_ : True ∧ True) => trivial

theorem ticks (plain : origin.Plain) (ours : 0 < base ip) (loaded : fs.Loaded ip) :
    Ensures getCurrentTimespec fs (fun _ after => Goes origin base floor refs gone fs after ∧ after.inode = fs.inode) fun _ _ => True := by
  obtain ⟨account, books, rfl⟩ := tended.books
  apply ((getCurrentTimespec_spec (tended.usable.running plain loaded tended.inOp)).and (getCurrentTimespec_neutral.leaves books)).mono
  · intro _ after both
    obtain ⟨⟨steady, -, inode, -⟩, books⟩ := both
    have keeps := steady.keeps
    refine ⟨⟨?_, keeps.frame.stays fun valid => keeps.valid.trans valid, steady.files tended.table loaded⟩, inode⟩
    exact tended.frame (tended.live_iff.mp loaded.1) steady.running.usable keeps.outstanding ⟨account, books, rfl⟩ keeps.frame fun _ => .inl ours
  · exact fun _ _ (_ : True ∧ True) => trivial

end Tended

/-- The entry is written back. -/
theorem Tended.stores (tended : Tended origin (butOne ip) refs fs) (plain : origin.Plain) (loaded : fs.Loaded ip)
    (used : (fs.inode ip).copy.type ≠ T_UNUSE_INODE_MYFUSE) (small : (fs.inode ip).copy.size < 2 ^ 64) :
    Ensures (iupdate ip) fs (fun _ after => Goes origin allSaved floor refs gone fs after) fun _ _ => True := by
  obtain ⟨account, books, rfl⟩ := tended.books
  apply ((iupdate_spec (tended.usable.running plain loaded tended.inOp)).and (iupdate_neutral.leaves books)).mono
  · intro _ after both
    obtain ⟨⟨steady, -, -, agrees⟩, books⟩ := both
    have keeps := steady.keeps
    have saved : after.Saved ip := by
      refine ⟨agrees, by rw [steady.size]; exact small, .inl ?_⟩
      rw [keeps.type]
      exact used
    have framed := tended.frame (tended.live_iff.mp loaded.1) steady.running.usable keeps.outstanding ⟨account, books, rfl⟩ keeps.frame fun _ => .inr saved
    exact ⟨framed.tighten fun _ => saved, keeps.frame.stays fun valid => keeps.valid.trans valid, steady.files tended.table loaded⟩
  · exact fun _ _ _ => trivial

/-- The fields of an inode change, and its times. -/
theorem Tended.changes (tended : Tended origin allSaved refs fs) (plain : origin.Plain) (loaded : fs.Loaded ip)
    (used : (fs.inode ip).copy.type ≠ T_UNUSE_INODE_MYFUSE) (small : (fs.inode ip).copy.size < 2 ^ 64) (change : Dinode → Dinode)
    (type : ∀ copy, (change copy).type = copy.type) (addrs : ∀ copy, (change copy).addrs = copy.addrs) (size : ∀ copy, (change copy).size = copy.size)
    {next : M α} {post : α → FS → Prop}
    (rest : ∀ after, Goes origin allSaved refs refs (· = (fs.inode ip).inum) fs after →
      SameAttrs (change (fs.inode ip).copy) (after.current (fs.inode ip).inum) → Ensures next after post fun _ _ => True) :
    Ensures (do
      modifyCopy ip change
      let now ← getCurrentTimespec
      modifyCopy ip fun copy => { copy with st_atimespec := now, st_mtimespec := now, st_ctimespec := now }
      iupdate ip
      next) fs post fun _ _ => True := by
  have held : 0 < refs ip := tended.live_iff.mp loaded.1
  have ours : 0 < butOne ip ip := by
    unfold butOne
    rw [plus_self]
    exact Int.one_pos
  apply Ensures.bind ((tended.loosen held).edits plain ours loaded change type addrs)
  intro _ changed edited
  obtain ⟨goes, loaded, copy⟩ := edited
  have goes : Goes origin (butOne ip) refs refs (· = (fs.inode ip).inum) fs changed := goes
  have names := goes.stays.inum ip held
  apply Ensures.bind (goes.tended.ticks plain ours loaded)
  intro now ticked tick
  obtain ⟨tick, entry⟩ := tick
  have tick : Goes origin (butOne ip) refs refs (· = (fs.inode ip).inum) changed ticked := tick
  have loaded := tick.loaded held (Int.le_refl _) loaded
  apply Ensures.bind (tick.tended.edits plain ours loaded
    (fun copy => { copy with st_atimespec := now, st_mtimespec := now, st_ctimespec := now }) (fun _ => rfl) fun _ => rfl)
  intro _ stamped edited
  obtain ⟨stamp, loaded, copy'⟩ := edited
  have stamp : Goes origin (butOne ip) refs refs (· = (ticked.inode ip).inum) ticked stamped := stamp
  rw [entry, names] at stamp
  rw [entry, copy] at copy'
  have now_used : (stamped.inode ip).copy.type ≠ T_UNUSE_INODE_MYFUSE := by
    rw [copy']
    exact (type _).trans_ne used
  have now_small : (stamped.inode ip).copy.size < 2 ^ 64 := by
    rw [copy']
    exact (size _).trans_lt small
  apply Ensures.bind (stamp.tended.stores plain loaded now_used now_small)
  intro _ after stored
  have stored : Goes origin allSaved refs refs (fun _ => False) stamped after := stored
  have before : Goes origin (butOne ip) refs refs (· = (fs.inode ip).inum) fs stamped := (goes.trans tick).trans stamp
  apply rest after ((stored.mono (fun _ => Int.le_refl _) fun _ => False.elim).follow before)
  have table := stamp.tended.table
  have current := current_loaded table loaded
  rw [before.stays.inum ip held] at current
  have inside := table.inside ip loaded.1
  rw [before.stays.inum ip held] at inside
  have attrs := stored.files.attrs _ inside id
  rw [current, copy'] at attrs
  exact ⟨attrs.type, attrs.nlink, attrs.size⟩

/-! An inode that is let go. -/

/-- An inode with links is unlocked and given back. -/
theorem Tended.leaves (tended : Tended origin base (plus refs ip) fs) (more : ∀ ip, base ip ≤ refs ip)
    (linked : (fs.current (fs.inode ip).inum).nlink ≠ 0) :
    Ensures (iunlockput ip) fs (fun _ after => Goes origin base refs refs (fun _ => False) fs after) fun _ _ => True := by
  have goes : Goes origin base (plus refs ip) (plus refs ip) (fun _ => False) fs (fs.setLocked ip false) := iunlock_goes tended
  have names : ((fs.setLocked ip false).inode ip).inum = (fs.inode ip).inum := by rw [setLocked_self]
  have some : 0 ≤ refs ip := Int.le_trans (tended.unsigned ip) (more ip)
  have inside := tended.table.inside ip (tended.live_iff.mpr (by rw [plus_self]; omega))
  rw [← (goes.files.attrs _ inside id).nlink, ← names] at linked
  unfold iunlockput
  rw [ensures_bind, ensures_of_ok (iunlock_eq ip fs)]
  apply (iput_goes goes.tended more linked).mono
  · exact fun _ _ put => (goes.mono (le_plus refs ip) fun _ => id).trans put
  · exact fun _ _ => False.elim

/-- The last reference to an inode without links is given back: the inode is freed. -/
theorem Tended.frees (tended : Tended origin allSaved (plus refs ip) fs) (more : ∀ ip, 0 ≤ refs ip) (plain : origin.Plain) (loaded : fs.Loaded ip)
    (unlinked : (fs.inode ip).copy.nlink = 0) (free : (fs.inode ip).locked = false) (last : refs ip = 0) :
    Ensures (iput ip) fs (fun _ after => Goes origin allSaved refs refs (· = (fs.inode ip).inum) fs after) fun _ _ => True := by
  have table := tended.table
  obtain ⟨account, books, known⟩ := tended.books
  have ref : (fs.inode ip).ref = 1 := by
    rw [books.ref, known, plus_self, last]
    decide
  have others : ∀ other, 0 < refs other → other ≠ ip := by
    intro other held here
    rw [here, last] at held
    exact absurd held (Int.lt_irrefl 0)
  have dropped : ∀ other, plus refs ip other - (if other = ip then 1 else 0) = refs other := fun other => Int.add_sub_cancel _ _
  apply ((iput_frees plain tended.usable tended.inOp loaded ref unlinked free).and (iput_leaves (books.knows loaded.1.1) (Set.mem_insert ip _))).mono
  · intro _ after both
    obtain ⟨⟨put, -, dinodes⟩, books⟩ := both
    refine ⟨⟨put.usable, ?_, ⟨_, books, ?_⟩, fun _ => Int.le_refl 0, more, fun other isLoaded => .inr ?_⟩, ⟨fun other held => ?_, fun other held valid => ?_⟩, put.files⟩
    · rw [put.files.outstanding]
      exact tended.inOp
    · funext other
      rw [Account.drop_refs]
      show account.refs other - _ = _
      rw [known, dropped]
    · have apart : other ≠ ip := by
        intro here
        have used := isLoaded.1.2
        rw [here, put.ref, ref] at used
        exact absurd used (by decide)
      have same := put.others other apart
      have before : fs.Loaded other := by
        rw [Loaded, Live, put.ninode, same] at isLoaded
        exact isLoaded
      apply (tended.isSaved before).elsewhere same
      apply dinodes _ (table.inside other before.1)
      intro equal
      exact apart (table.unique other ip before.1 loaded.1 equal)
    · rw [put.others other (others other held)]
    · rw [put.others other (others other held)]
      exact valid
  · exact fun _ _ _ => trivial

/-- An inode without links is unlocked and given back; with the last reference it is gone. -/
theorem Tended.letsGo (tended : Tended origin allSaved (plus refs ip) fs) (more : ∀ ip, 0 ≤ refs ip) (plain : origin.Plain) (loaded : fs.Loaded ip)
    (unlinked : (fs.inode ip).copy.nlink = 0) :
    Ensures (iunlockput ip) fs (fun _ after => Goes origin allSaved refs refs (· = (fs.inode ip).inum) fs after ∧
      (0 < refs ip → SameFiles (fun _ => False) fs after)) fun _ _ => True := by
  have some := more ip
  have unlocks : Goes origin allSaved (plus refs ip) (plus refs ip) (fun _ => False) fs (fs.setLocked ip false) := iunlock_goes tended
  have first : Goes origin allSaved refs (plus refs ip) (fun _ => False) fs (fs.setLocked ip false) := unlocks.mono (le_plus refs ip) fun _ => id
  have isLoaded := unlocks.loaded (by rw [plus_self]; omega) (Int.le_refl _) loaded
  have entry := setLocked_self fs ip false
  have names : ((fs.setLocked ip false).inode ip).inum = (fs.inode ip).inum := by rw [entry]
  unfold iunlockput
  rw [ensures_bind, ensures_of_ok (iunlock_eq ip fs), ← names]
  by_cases last : refs ip = 0
  · apply (unlocks.tended.frees more plain isLoaded (by rw [entry]; exact unlinked) (by rw [entry]) last).weaken
    intro _ _ freed
    refine ⟨(first.mono (fun _ => Int.le_refl _) fun _ => False.elim).trans freed, fun held => ?_⟩
    rw [last] at held
    exact absurd held (Int.lt_irrefl 0)
  · have kept : ¬ (((fs.setLocked ip false).inode ip).ref = 1 ∧ ((fs.setLocked ip false).inode ip).valid = true ∧ ((fs.setLocked ip false).inode ip).copy.nlink = 0) := by
      intro all
      obtain ⟨account, books, known⟩ := unlocks.tended.books
      have ref := books.ref ip
      rw [all.1, known, plus_self] at ref
      omega
    apply (iput_only unlocks.tended more kept).mono
    · intro _ after put
      have put : Goes origin allSaved refs refs (fun _ => False) (fs.setLocked ip false) after := put
      exact ⟨(first.trans put).mono (fun _ => Int.le_refl _) fun _ => False.elim, fun _ => (first.trans put).files⟩
    · exact fun _ _ _ => trivial

/-! Entries of a directory. -/

/-- The loop of `myfuse_rmdir` looks for a slot in use. -/
theorem anyDirent_slots (before : List Byte) (slots : Dirents) (place : Nat) (aligned : before.length = direntSize * place) :
    anyDirent (before ++ direntsBytes slots) slots.length before.length = some (decide (slots.keys ≠ [])) := by
  induction slots generalizing before place with
  | nil => rfl
  | cons slot rest ih =>
    obtain ⟨fits, next⟩ := slot_inside before slot (direntsBytes rest)
    rw [List.length_cons, anyDirent, direntsBytes_cons, if_neg fits, leNat_slot]
    cases slot with
    | none =>
      have further := ih (before ++ slotBytes none) (place + 1) (by rw [← next, aligned, Nat.mul_succ])
      rw [List.append_assoc, ← next] at further
      exact further
    | some used => rw [if_pos (by simpa using Nat.ne_of_gt used.2.2.1), Slots.keys_used, decide_eq_true (List.cons_ne_nil _ _)]

theorem InHand.hasDirent (hand : InHand refs fs dp slots) (plain : origin.Plain) (tended : Tended origin base refs fs) :
    Ensures (FS.hasDirent dp) fs (fun answer after => Goes origin base floor refs (fun _ => False) fs after ∧ answer = decide (slots.keys ≠ [])) fun _ _ => True := by
  have size := hand.directory.size
  unfold FS.hasDirent
  rw [ensures_bind, ensures_get]
  dsimp only
  split
  next =>
    apply Ensures.bind (hand.reads plain tended)
    intro data middle read
    obtain ⟨goes, rfl⟩ := read
    have looks := anyDirent_slots [] slots 0 rfl
    rw [List.nil_append, List.length_nil] at looks
    rw [if_neg (by rw [length_direntsBytes, size]; exact not_not.mpr rfl), size, direntCount_slots hand.directory.few, looks]
    exact (ensures_pure _).mpr ⟨goes, rfl⟩
  next empty =>
    have none : slots = [] := by
      rw [not_not, size] at empty
      exact List.eq_nil_of_length_eq_zero ((Nat.mul_eq_zero.mp empty).resolve_left (by decide))
    rw [none]
    exact (ensures_pure _).mpr ⟨.refl tended, rfl⟩

/-- The bytes of a file may look like anything. -/
theorem Grips.hasDirent (grips : Grips refs fs ip) (plain : origin.Plain) (tended : Tended origin base refs fs) :
    Ensures (FS.hasDirent ip) fs (fun _ after => Goes origin base floor refs (fun _ => False) fs after) fun _ _ => True := by
  unfold FS.hasDirent
  rw [ensures_bind, ensures_get]
  dsimp only
  split
  next =>
    apply Ensures.bind (tended.reads plain grips.held grips.loaded grips.used _ 0)
    intro data middle goes
    split
    next => exact (ensures_stop _).mpr trivial
    next =>
      split
      next => exact (ensures_stop _).mpr trivial
      next => exact (ensures_pure _).mpr goes
  next => exact (ensures_pure _).mpr (.refl tended)

/-- The entry of a name is cleared, and the inode it named is held. -/
theorem InHand.clears (hand : InHand refs fs dp slots) (plain : origin.Plain) (tended : Tended origin base refs fs)
    (inside : ∀ inum ∈ slots.values, inum.1 < fs.sb.ninodes) {name : Name} (present : DirName.of name ∈ slots.keys) :
    Ensures (clearDirent dp name) fs
      (fun answer after => ∃ found inum, answer = some found ∧ slots.toMap (.of name) = some inum ∧ (after.inode found).inum = inum.1 ∧
        Rewrote origin base refs (plus refs found) dp (slots.clear (.of name)) fs after)
      fun _ _ => True := by
  unfold clearDirent
  apply Ensures.bind (hand.looksUp plain tended (fun _ => Int.le_refl _) inside name)
  intro answer looked either
  obtain ⟨missing, rfl, goes⟩ | ⟨inum, place, found, here, rfl, goes, names⟩ := either
  · exact absurd present ((Slots.lookup_eq_none 0).mp missing)
  · obtain ⟨-, there⟩ := Slots.lookup_found here
    rw [Nat.sub_zero] at there
    obtain ⟨within, -⟩ := List.getElem?_eq_some_iff.mp there
    have cleared := Slots.clear_eq here
    rw [Nat.sub_zero] at cleared
    have table := tended.table
    have hand' := hand.goes table goes hand.held (le_plus refs found dp) id
    have same := goes.stays.inum dp hand.held
    have attrs := goes.copy table hand.held (le_plus refs found dp) hand.loaded id
    apply Ensures.bind (hand'.writes plain goes.tended (Nat.le_of_lt within) (Nat.lt_of_lt_of_le within hand.directory.few) none)
    intro _ after wrote
    rw [← cleared] at wrote
    have wrote : Rewrote origin base (plus refs found) (plus refs found) dp (slots.clear (.of name)) looked after := wrote.2
    have second := wrote.goes
    have map : slots.toMap (.of name) = some inum := by
      rw [Slots.toMap, here]
      rfl
    have own : 0 < plus refs found found := by
      have := tended.unsigned found
      have := tended.more found
      rw [plus_self]
      omega
    refine (ensures_pure _).mpr ⟨found, inum, rfl, map, (second.stays.inum found own).trans names, ?_, wrote.hand, wrote.inum.trans same, wrote.nlink.trans attrs.nlink⟩
    rw [same] at second
    exact (goes.mono (fun _ => Int.le_refl _) fun _ => False.elim).trans (second.mono (le_plus refs found) fun _ => id)

end FS
end Myfuse
