import Myfuse.File
import Myfuse.Proofs.EntryRules
import Myfuse.Proofs.EntryTable
import Myfuse.Proofs.FreeTree
import Myfuse.Proofs.ReadWrite

/-! Inodes taken for a while: `iget`, `ilock`, reads, `iunlock` and `iput` leave what files
are and hold, but for an inode without links whose last reference is given back. -/

namespace Myfuse
open Library Library.Exec

/-- Type, links and size. -/
structure SameAttrs (copy copy' : Dinode) : Prop where
  type : copy'.type = copy.type
  nlink : copy'.nlink = copy.nlink
  size : copy'.size = copy.size

theorem SameAttrs.refl (copy : Dinode) : SameAttrs copy copy := ⟨rfl, rfl, rfl⟩

theorem SameAttrs.trans {first second third : Dinode} (head : SameAttrs first second) (tail : SameAttrs second third) : SameAttrs first third :=
  ⟨tail.type.trans head.type, tail.nlink.trans head.nlink, tail.size.trans head.size⟩

namespace FS
variable {origin : Origin} {fs middle after : FS} {ip inum : Nat} {gone : Nat → Prop}

/-- What the files are and hold is the same, but for the inodes that are gone. -/
structure SameFiles (gone : Nat → Prop) (fs after : FS) : Prop where
  sb : after.sb = fs.sb
  outstanding : after.log.outstanding = fs.log.outstanding
  attrs : ∀ inum < fs.sb.ninodes, ¬ gone inum → SameAttrs (fs.current inum) (after.current inum)
  content : ∀ inum, ¬ gone inum → after.content inum = fs.content inum

theorem SameFiles.refl (gone : Nat → Prop) (fs : FS) : SameFiles gone fs fs := ⟨rfl, rfl, fun _ _ _ => .refl _, fun _ _ => rfl⟩

theorem SameFiles.trans {gone' : Nat → Prop} (head : SameFiles gone fs middle) (tail : SameFiles gone' middle after) :
    SameFiles (fun inum => gone inum ∨ gone' inum) fs after where
  sb := tail.sb.trans head.sb
  outstanding := tail.outstanding.trans head.outstanding
  attrs inum inside kept := (head.attrs inum inside fun lost => kept (.inl lost)).trans (tail.attrs inum (head.sb ▸ inside) fun lost => kept (.inr lost))
  content inum kept := (tail.content inum fun lost => kept (.inr lost)).trans (head.content inum fun lost => kept (.inl lost))

theorem SameFiles.mono {gone' : Nat → Prop} (same : SameFiles gone fs after) (more : ∀ inum, gone inum → gone' inum) : SameFiles gone' fs after :=
  ⟨same.sb, same.outstanding, fun inum inside kept => same.attrs inum inside (mt (more inum) kept), fun inum kept => same.content inum (mt (more inum) kept)⟩

theorem SameLoaded.files (same : SameLoaded fs after) (table : fs.TableOk) : SameFiles gone fs after where
  sb := same.sb
  outstanding := by rw [same.log]
  attrs inum _ _ := by
    rw [same.current table]
    exact .refl _
  content inum _ := by rw [same.content table]

theorem Steady.files (steady : Steady origin ip fs after) (table : fs.TableOk) (loaded : fs.Loaded ip) : SameFiles gone fs after where
  sb := steady.keeps.sb
  outstanding := steady.keeps.outstanding
  attrs inum inside _ := by
    by_cases own : inum = (fs.inode ip).inum
    · have names := steady.keeps.inum
      rw [own, current_loaded table loaded, ← names, current_loaded steady.running.volume.table steady.running.loaded]
      exact ⟨steady.keeps.type, steady.nlink, steady.size⟩
    · rw [steady.keeps.frame.current inside own]
      exact .refl _
  content inum _ := by rw [steady.content]

theorem Fetched.files (fetched : Fetched ip fs after) (table : fs.TableOk) (live : fs.Live ip) : SameFiles gone fs after where
  sb := fetched.sb
  outstanding := by rw [fetched.log]
  attrs inum inside _ := by
    by_cases own : inum = (fs.inode ip).inum
    · have now := current_loaded (fetched.table table) (fetched.loaded live)
      rw [fetched.inum, fetched.copy] at now
      rw [own, now]
      exact .refl _
    · rw [fetched.frame.current inside own]
      exact .refl _
  content inum _ := by rw [fetched.content table live]

/-! References. -/

/-- The dinode has what the entry has, so that the entry can be dropped. -/
structure Saved (fs : FS) (ip : Nat) : Prop extends fs.Agrees ip where
  whole : (fs.inode ip).copy.size < 2 ^ 64
  rooted : (fs.inode ip).copy.type ≠ T_UNUSE_INODE_MYFUSE ∨ ∀ slot < NBLOCKADDR, (fs.inode ip).copy.addrs slot = 0

/-- `count` references are ours; what no one else keeps is saved. -/
structure Own (fs : FS) (ip : Nat) (count : Int) : Prop where
  live : fs.Live ip
  counted : count ≤ (fs.inode ip).ref
  saved : (fs.inode ip).valid = true → count < (fs.inode ip).ref ∨ fs.Saved ip

theorem Saved.congr (saved : fs.Saved ip) (agrees : after.Agrees ip) (type : (after.inode ip).copy.type = (fs.inode ip).copy.type)
    (size : (after.inode ip).copy.size = (fs.inode ip).copy.size)
    (addrs : (after.inode ip).copy.type ≠ T_UNUSE_INODE_MYFUSE ∨ (after.inode ip).copy.addrs = (fs.inode ip).copy.addrs) : after.Saved ip where
  toAgrees := agrees
  whole := by rw [size]; exact saved.whole
  rooted := by
    rcases addrs with used | addrs
    · exact .inl used
    · rw [type, addrs]
      exact saved.rooted

theorem Saved.same (saved : fs.Saved ip) (sb : after.sb = fs.sb) (store : after.store = fs.store) (inum : (after.inode ip).inum = (fs.inode ip).inum)
    (copy : (after.inode ip).copy = (fs.inode ip).copy) : after.Saved ip :=
  saved.congr (saved.toAgrees.congr sb store inum (by rw [copy]) (by rw [copy]) (by rw [copy]) (by rw [copy])) (by rw [copy]) (by rw [copy]) (.inr (by rw [copy]))

/-- `iget` of an inode of the disk. -/
theorem Got.sameLoaded (got : Got inum fs ip after) (table : fs.TableOk) (inside : inum < fs.sb.ninodes) : SameLoaded fs after where
  rest := got.rest
  table := by
    have apart : ∀ ip', ip' ≠ ip → after.Live ip' → (after.inode ip').inum ≠ inum := fun ip' other isLive names => by
      have before := (got.otherLive ip' other).mp isLive
      rw [got.others ip' other before] at names
      obtain ⟨isLive', counted⟩ | ⟨-, absent, -⟩ := got.entry
      · have own : (fs.inode ip).inum = inum := by
          rw [← got.names, counted]
        exact other (table.unique ip' ip before isLive' (names.trans own.symm))
      · exact absent ip' before names
    refine ⟨fun ip' isLive => ?_, fun first second isLive isLive' equal => ?_⟩
    · rw [got.rest]
      by_cases here : ip' = ip
      · rw [here]
        exact got.names ▸ inside
      · rw [got.others ip' here ((got.otherLive ip' here).mp isLive)]
        exact table.inside ip' ((got.otherLive ip' here).mp isLive)
    · by_cases here : first = ip
      · by_contra other
        rw [here, got.names] at equal
        exact apart second (fun same => other (here.trans same.symm)) isLive' equal.symm
      · by_cases here' : second = ip
        · rw [here', got.names] at equal
          exact absurd equal (apart first here isLive)
        · have before := (got.otherLive first here).mp isLive
          have before' := (got.otherLive second here').mp isLive'
          rw [got.others first here before, got.others second here' before'] at equal
          exact table.unique first second before before' equal
  loaded ip' := by
    by_cases here : ip' = ip
    · rw [here, Loaded, Loaded]
      obtain ⟨isLive, counted⟩ | ⟨unused, -, -, unread⟩ := got.entry
      · rw [counted]
        exact and_congr_left fun _ => iff_of_true got.live isLive
      · exact iff_of_false (fun both => by rw [unread] at both; cases both.2) fun both => unused both.1
    · rw [Loaded, Loaded, got.otherLive ip' here]
      exact and_congr_right fun isLive => by rw [got.others ip' here isLive]
  entry ip' isLoaded := by
    by_cases here : ip' = ip
    · subst here
      obtain ⟨-, counted⟩ | ⟨unused, -⟩ := got.entry
      · rw [counted]
        exact ⟨rfl, rfl⟩
      · exact absurd isLoaded.1 unused
    · rw [got.others ip' here isLoaded.1]
      exact ⟨rfl, rfl⟩

/-- The reference that `iget` gives is ours. -/
theorem Got.own (got : Got inum fs ip after) : after.Own ip 1 := by
  have used := got.live.2
  refine ⟨got.live, by omega, fun valid => .inl ?_⟩
  obtain ⟨isLive, counted⟩ | ⟨-, -, -, unread⟩ := got.entry
  · have before := isLive.2
    rw [counted]
    dsimp only
    omega
  · rw [unread] at valid
    cases valid

/-- A reference that was ours stays so; for the same entry there is one more. -/
theorem Got.keeps_own {ip' : Nat} (got : Got inum fs ip after) (own : fs.Own ip' 1) :
    if ip' = ip then after.Own ip 2 else after.Own ip' 1 ∧ after.inode ip' = fs.inode ip' := by
  have sb : after.sb = fs.sb := by rw [got.rest]
  have store : after.store = fs.store := by rw [got.rest]
  split
  next here =>
    subst here
    obtain ⟨isLive, counted⟩ | ⟨unused, -⟩ := got.entry
    · refine ⟨got.live, ?_, fun valid => ?_⟩
      · have some := own.counted
        rw [counted]
        dsimp only
        omega
      · rw [counted] at valid
        rcases own.saved valid with more | saved
        · refine .inl ?_
          rw [counted]
          dsimp only
          omega
        · exact .inr (saved.same sb store (by rw [counted]) (by rw [counted]))
    · exact absurd own.live unused
  next apart =>
    have entry := got.others ip' apart own.live
    refine ⟨⟨(got.otherLive ip' apart).mpr own.live, by rw [entry]; exact own.counted, fun valid => ?_⟩, entry⟩
    rw [entry] at valid ⊢
    exact (own.saved valid).imp_right fun saved => saved.same sb store (by rw [entry]) (by rw [entry])

theorem Fetched.own {count : Int} (fetched : Fetched ip fs after) (table : fs.TableOk) (own : fs.Own ip count) : after.Own ip count := by
  refine ⟨(fetched.live ip).mpr own.live, by rw [fetched.ref]; exact own.counted, fun _ => ?_⟩
  rw [fetched.ref]
  cases valid : (fs.inode ip).valid with
  | true =>
    have copy := fetched.copy
    rw [current_loaded table ⟨own.live, valid⟩] at copy
    exact (own.saved valid).imp_right fun saved => saved.same fetched.sb fetched.store fetched.inum copy
  | false =>
    have dinode : after.dinode (after.inode ip).inum = fs.dinode (fs.inode ip).inum := by
      rw [fetched.inum]
      exact dinode_congr fetched.sb (by rw [fetched.store])
    have copy : (after.inode ip).copy = after.dinode (after.inode ip).inum := by
      rw [fetched.copy, dinode, current, entryOf_absent table own.live valid]
    have whole : (after.inode ip).copy.size < 2 ^ 64 := by
      rw [copy]
      exact Bytes.field_lt _ _ 8
    refine .inr ⟨⟨by rw [copy], by rw [copy], ?_, fun slot _ => by rw [copy]⟩, whole, .inl ?_⟩
    · rw [sizeT_of_lt whole, copy]
    · rw [copy, dinode]
      exact fetched.used valid

/-- Work on an entry that writes its dinode back, or does nothing. -/
theorem Steady.own {count : Int} (steady : Steady origin ip fs after) (agrees : after.Agrees ip ∨ after = fs) (loaded : fs.Loaded ip)
    (used : (fs.inode ip).copy.type ≠ T_UNUSE_INODE_MYFUSE) (small : (fs.inode ip).copy.size < 2 ^ 64) (own : fs.Own ip count) : after.Own ip count := by
  rcases agrees with agrees | rfl
  · refine ⟨steady.running.loaded.1, by rw [steady.keeps.ref]; exact own.counted, fun _ => .inr ⟨agrees, by rw [steady.size]; exact small, .inl ?_⟩⟩
    rw [steady.keeps.type]
    exact used
  · exact own

theorem Own.relock {count : Int} (own : fs.Own ip count) (locked : Bool) : (fs.setLocked ip locked).Own ip count := by
  have entry := setLocked_self fs ip locked
  refine ⟨(setLocked_live ip).mpr own.live, by rw [entry]; exact own.counted, fun valid => ?_⟩
  rw [entry] at valid ⊢
  exact (own.saved valid).imp_right fun saved => saved.same rfl rfl (by rw [entry]) (by rw [entry])

/-- One entry changes, and is not in use if it was not. -/
theorem TableOk.assign {entry : Inode} (table : fs.TableOk) (afterIs : after = { fs with inode := assign fs.inode ip entry })
    (inum : entry.inum = (fs.inode ip).inum) (fewer : 0 < entry.ref → 0 < (fs.inode ip).ref) : after.TableOk := by
  have others : ∀ ip', ip' ≠ ip → after.inode ip' = fs.inode ip' := fun ip' apart => by rw [afterIs]; exact assign_of_ne apart ..
  have own : after.inode ip = entry := by rw [afterIs]; exact assign_self ..
  have names : ∀ ip', (after.inode ip').inum = (fs.inode ip').inum := fun ip' => by
    by_cases here : ip' = ip
    · rw [here, own, inum]
    · rw [others ip' here]
  have before : ∀ ip', after.Live ip' → fs.Live ip' := fun ip' isLive => by
    have inside : ip' < fs.ninode := by
      have inside := isLive.1
      rwa [afterIs] at inside
    refine ⟨inside, ?_⟩
    have used := isLive.2
    by_cases here : ip' = ip
    · rw [here] at used ⊢
      rw [own] at used
      exact fewer used
    · rwa [others ip' here] at used
  refine ⟨fun ip' isLive => ?_, fun first second isLive isLive' equal => ?_⟩
  · have sb : after.sb = fs.sb := by rw [afterIs]
    rw [names, sb]
    exact table.inside ip' (before ip' isLive)
  · rw [names, names] at equal
    exact table.unique first second (before first isLive) (before second isLive') equal

/-- A saved entry is as good as its dinode. -/
theorem Saved.unload {entry : Inode} (usable : fs.Usable origin) (loaded : fs.Loaded ip) (saved : fs.Saved ip)
    (afterIs : after = { fs with inode := assign fs.inode ip entry }) (inum : entry.inum = (fs.inode ip).inum) (unloaded : ¬ after.Loaded ip) :
    after.Usable origin ∧ SameFiles (fun _ => False) fs after := by
  have table := usable.volume.table
  have own : after.inode ip = entry := by rw [afterIs]; exact assign_self ..
  have others : ∀ ip', ip' ≠ ip → after.inode ip' = fs.inode ip' := fun ip' apart => by rw [afterIs]; exact assign_of_ne apart ..
  have rest : after = { fs with inode := after.inode, ninode := after.ninode } := by rw [afterIs]
  have table' : after.TableOk := table.assign afterIs inum fun _ => loaded.1.2
  have frame : Frame ip fs after := ⟨by rw [rest], by rw [afterIs], others, by rw [own, inum], fun _ _ _ => by rw [rest]; rfl⟩
  have absent : after.entryOf (fs.inode ip).inum = none := by
    cases found : after.entryOf (fs.inode ip).inum with
    | none => rfl
    | some other =>
      obtain ⟨isLoaded, names⟩ := entryOf_some found
      by_cases here : other = ip
      · exact absurd (here ▸ isLoaded) unloaded
      · have before : fs.Live other := by
          have isLive := isLoaded.1
          rwa [Live, frame.ninode, others other here] at isLive
        rw [others other here] at names
        exact absurd (table.unique other ip before loaded.1 names) here
  have dinode : after.dinode (fs.inode ip).inum = fs.dinode (fs.inode ip).inum := by rw [rest]; rfl
  have current : after.current (fs.inode ip).inum = fs.dinode (fs.inode ip).inum := by rw [FS.current, absent, dinode]
  have roots : after.roots = fs.roots := by
    funext owner slot
    by_cases here : owner = (fs.inode ip).inum
    · rw [here, roots_loaded table loaded, FS.roots, absent, current, dinode, saved.type]
      have inside : (fs.inode ip).inum < after.sb.ninodes := by rw [frame.sb]; exact table.inside ip loaded.1
      simp only [inside, true_and, Option.isSome_none, Bool.false_eq_true, false_or]
      by_cases small : slot < NBLOCKADDR
      · rw [if_pos small, saved.addrs slot small]
        rcases saved.rooted with used | empty
        · rw [if_pos ⟨small, used⟩]
        · rw [empty slot small, ite_self]
      · rw [if_neg small, if_neg fun both => small both.1]
    · exact congrFun (frame.roots here) slot
  refine ⟨usable.retable rest table' roots, ⟨frame.sb, by rw [rest], fun inum inside _ => ?_, fun inum _ => by rw [content_same rest roots]⟩⟩
  by_cases here : inum = (fs.inode ip).inum
  · rw [here, current, current_loaded table loaded]
    exact ⟨saved.type, saved.nlink, saved.size.trans (sizeT_of_lt saved.whole)⟩
  · rw [frame.current inside here]
    exact .refl _

/-- An entry that others hold, or that is saved, can be let go. -/
theorem Own.drop (usable : fs.Usable origin) (own : fs.Own ip 1)
    (afterIs : after = { fs with inode := assign fs.inode ip { fs.inode ip with ref := (fs.inode ip).ref - 1 } }) :
    after.Usable origin ∧ SameFiles (fun _ => False) fs after := by
  have entry : after.inode ip = { fs.inode ip with ref := (fs.inode ip).ref - 1 } := by rw [afterIs]; exact assign_self ..
  by_cases last : (fs.inode ip).ref = 1 ∧ (fs.inode ip).valid = true
  · have saved := (own.saved last.2).resolve_left (by omega)
    refine saved.unload usable ⟨own.live, last.2⟩ afterIs rfl fun isLoaded => ?_
    have used := isLoaded.1.2
    rw [entry] at used
    dsimp only at used
    omega
  · have others : ∀ ip', ip' ≠ ip → after.inode ip' = fs.inode ip' := fun ip' apart => by rw [afterIs]; exact assign_of_ne apart ..
    have ninode : after.ninode = fs.ninode := by rw [afterIs]
    have table := usable.volume.table
    have same : SameLoaded fs after := by
      refine ⟨by rw [afterIs], table.assign afterIs rfl fun _ => own.live.2, fun ip' => ?_, fun ip' isLoaded => ?_⟩
      · by_cases here : ip' = ip
        · rw [here, Loaded, Loaded, Live, Live, ninode, entry]
          have used := own.live.2
          refine and_congr_left fun valid => and_congr_right fun _ => ?_
          have many : ¬ (fs.inode ip).ref = 1 := fun once => last ⟨once, valid⟩
          dsimp only
          omega
        · rw [Loaded, Loaded, Live, Live, ninode, others ip' here]
      · by_cases here : ip' = ip
        · rw [here, entry]
          exact ⟨rfl, rfl⟩
        · rw [others ip' here]
          exact ⟨rfl, rfl⟩
    exact ⟨same.usable usable, same.files table⟩

/-- What giving back a reference does: it is gone, and maybe the inode with it. -/
structure Put (origin : Origin) (ip : Nat) (gone : Nat → Prop) (fs after : FS) : Prop where
  usable : after.Usable origin
  files : SameFiles gone fs after
  ninode : after.ninode = fs.ninode
  ref : (after.inode ip).ref = (fs.inode ip).ref - 1
  others : ∀ ip', ip' ≠ ip → after.inode ip' = fs.inode ip'

/-- The reference of a linked inode, or one of several. -/
theorem iput_keeps (usable : fs.Usable origin) (own : fs.Own ip 1)
    (kept : ¬ ((fs.inode ip).ref = 1 ∧ (fs.inode ip).valid = true ∧ (fs.inode ip).copy.nlink = 0)) :
    Ensures (iput ip) fs (fun _ after => Put origin ip (fun _ => False) fs after ∧ after.sb = fs.sb ∧ after.store = fs.store ∧
      after.inode ip = { fs.inode ip with ref := (fs.inode ip).ref - 1 }) fun _ _ => False := by
  unfold iput modifyInode
  rw [ensures_bind, ensures_get]
  dsimp only
  rw [if_neg kept, ensures_modify]
  obtain ⟨usable', files⟩ := own.drop usable rfl
  exact ⟨⟨usable', files, rfl, by simp, fun ip' apart => assign_of_ne apart ..⟩, rfl, rfl, by simp⟩

/-- Work on one entry leaves the other inodes. -/
theorem Frame.files (frame : Frame ip fs after) (outstanding : after.log.outstanding = fs.log.outstanding)
    (content : ∀ inum, inum ≠ (fs.inode ip).inum → after.content inum = fs.content inum) : SameFiles (· = (fs.inode ip).inum) fs after where
  sb := frame.sb
  outstanding := outstanding
  attrs inum inside apart := by
    rw [frame.current inside apart]
    exact .refl _
  content := content

/-- The last reference of an inode without links: the inode is freed. -/
theorem iput_frees (plain : origin.Plain) (usable : fs.Usable origin) (inOp : 1 ≤ fs.log.outstanding) (loaded : fs.Loaded ip)
    (last : (fs.inode ip).ref = 1) (unlinked : (fs.inode ip).copy.nlink = 0) (unlocked : (fs.inode ip).locked = false) :
    Ensures (iput ip) fs (fun _ after => Put origin ip (· = (fs.inode ip).inum) fs after ∧
        (after.current (fs.inode ip).inum).type = T_UNUSE_INODE_MYFUSE ∧
        ∀ other < fs.sb.ninodes, other ≠ (fs.inode ip).inum → after.dinode other = fs.dinode other)
      fun reason _ => reason.isUpper = false := by
  have running := usable.running plain loaded inOp
  have lower : ∀ reason, OffMap reason → reason.isUpper = false := fun _ off => off.2.2.2.2
  have truncates : Guards ip (fun _ _ => True) (fun reason => reason.isUpper = false) (itrunc ip) :=
    itrunc_guards lower (fun _ _ _ => trivial) fun _ _ _ _ => trivial
  have updates : Guards ip (fun _ _ => True) (fun reason => reason.isUpper = false) (iupdate ip) := iupdate_guards lower fun _ _ _ _ => trivial
  unfold iput
  rw [ensures_bind, ensures_get]
  dsimp only
  rw [if_pos ⟨last, loaded.2, unlinked⟩, if_neg (by rw [unlocked]; decide)]
  refine Ensures.bind (((itrunc_spec running).and (truncates fs trivial)).mono (fun _ _ both => both.1) fun _ _ both => both.2.2) ?_
  rintro _ emptied ⟨acted, addrs, -, -⟩
  have inum := acted.keeps.inum
  -- The type is cleared in the entry, then on the disk.
  unfold modifyCopy modifyInode
  rw [ensures_bind, ensures_modify]
  generalize typedIs : ({ emptied with inode := _ } : FS) = typed
  have entry : typed.inode ip = { emptied.inode ip with copy := { (emptied.inode ip).copy with type := T_UNUSE_INODE_MYFUSE } } := by
    rw [← typedIs]
    exact assign_self ..
  have others : ∀ ip', ip' ≠ ip → typed.inode ip' = emptied.inode ip' := fun ip' apart => by rw [← typedIs]; exact assign_of_ne apart ..
  have table := acted.running.volume.table
  have table' : typed.TableOk := table.assign typedIs.symm rfl id
  have live : typed.Live ip := by
    have live := acted.running.loaded.1
    rw [Live, entry, ← typedIs]
    exact live
  have isLoaded : typed.Loaded ip := ⟨live, by rw [entry]; exact acted.running.loaded.2⟩
  have frame : Frame ip emptied typed := by
    refine ⟨by rw [← typedIs], by rw [← typedIs], others, by rw [entry], fun _ _ _ => ?_⟩
    rw [← typedIs]
    rfl
  have roots : typed.roots = emptied.roots := by
    funext owner slot
    by_cases here : owner = (emptied.inode ip).inum
    · have now := roots_loaded table' isLoaded slot
      rw [entry] at now
      rw [here, now, roots_loaded table acted.running.loaded]
    · exact congrFun (frame.roots here) slot
  have rest : typed = { emptied with inode := typed.inode, ninode := typed.ninode } := by rw [← typedIs]
  have usable' := acted.running.usable.retable rest table' roots
  have running' := usable'.running plain isLoaded (by rw [rest]; exact acted.running.op.inOp)
  refine Ensures.bind (((iupdate_spec running').and (updates typed trivial)).mono (fun _ _ both => both.1) fun _ _ both => both.2.2) ?_
  rintro _ written ⟨steady, -, sameAddrs, agrees⟩
  have saved : written.Saved ip := by
    refine ⟨agrees, ?_, .inr fun slot _ => ?_⟩
    · rw [steady.size, entry]
      dsimp only
      rw [acted.size]
      decide
    · rw [sameAddrs, entry]
      exact congrFun addrs slot
  have type : (written.inode ip).copy.type = T_UNUSE_INODE_MYFUSE := by rw [steady.keeps.type, entry]
  have once : (written.inode ip).ref = 1 := by
    rw [steady.keeps.ref, entry]
    exact acted.keeps.ref.trans last
  -- The entry is dropped in two steps.
  rw [ensures_bind, ensures_modify]
  generalize invalidIs : ({ written with inode := _ } : FS) = invalid
  have entry' : invalid.inode ip = { written.inode ip with valid := false } := by rw [← invalidIs]; exact assign_self ..
  have unloaded : ¬ invalid.Loaded ip := fun both => by
    have valid := both.2
    rw [entry'] at valid
    cases valid
  obtain ⟨usable₁, files₁⟩ := saved.unload steady.running.usable steady.running.loaded invalidIs.symm rfl unloaded
  have own : invalid.Own ip 1 := by
    refine ⟨⟨?_, by rw [entry', once]; decide⟩, by rw [entry', once], fun valid => ?_⟩
    · rw [← invalidIs]
      exact steady.running.loaded.1.1
    · rw [entry'] at valid
      cases valid
  rw [ensures_modify]
  obtain ⟨usable₂, files₂⟩ := own.drop usable₁ rfl
  generalize afterIs : ({ invalid with inode := _ } : FS) = after at usable₂ files₂
  have names : (typed.inode ip).inum = (fs.inode ip).inum := by rw [entry, inum]
  have framed : Frame ip fs written := (acted.keeps.frame.trans frame).trans steady.keeps.frame
  have before : SameFiles (· = (fs.inode ip).inum) fs written := by
    refine framed.files ?_ fun other apart => ?_
    · rw [steady.keeps.outstanding, rest, acted.keeps.outstanding]
    · rw [steady.content, content_same rest roots, acted.others other apart]
  have files := (before.trans files₁).trans files₂
  have inside : (fs.inode ip).inum < written.sb.ninodes := by
    rw [before.sb]
    exact usable.volume.table.inside ip loaded.1
  refine ⟨⟨usable₂, files.mono fun other lost => ?_, ?_, ?_, fun ip' apart => ?_⟩, ?_, fun other inside apart => ?_⟩
  · rcases lost with (here | none) | none
    · exact here
    · exact none.elim
    · exact none.elim
  · rw [← afterIs, ← invalidIs]
    exact steady.keeps.ninode.trans (frame.ninode.trans acted.keeps.ninode)
  · have self : after.inode ip = { invalid.inode ip with ref := (invalid.inode ip).ref - 1 } := by rw [← afterIs]; exact assign_self ..
    rw [self, entry']
    dsimp only
    rw [once, last]
  · have here : after.inode ip' = invalid.inode ip' := by rw [← afterIs]; exact assign_of_ne apart ..
    have here' : invalid.inode ip' = written.inode ip' := by rw [← invalidIs]; exact assign_of_ne apart ..
    rw [here, here', steady.keeps.others ip' apart, others ip' apart, acted.keeps.others ip' apart]
  · have freed := (files₁.trans files₂).attrs _ inside fun none => none.elim id id
    have mine := current_loaded steady.running.volume.table steady.running.loaded
    rw [steady.keeps.inum, names] at mine
    rw [freed.type, mine, type]
  · rw [← framed.dinodes other inside apart, ← afterIs, ← invalidIs]
    rfl

/-- A reference of ours is given back; only an inode without links may stop this. -/
theorem iput_puts (plain : origin.Plain) (usable : fs.Usable origin) (inOp : 1 ≤ fs.log.outstanding) (own : fs.Own ip 1) :
    Ensures (iput ip) fs (fun _ => Put origin ip (· = (fs.inode ip).inum) fs)
      fun reason _ => fs.Loaded ip ∧ (fs.inode ip).copy.nlink = 0 ∧ reason.isUpper = false := by
  by_cases last : (fs.inode ip).ref = 1 ∧ (fs.inode ip).valid = true ∧ (fs.inode ip).copy.nlink = 0
  · obtain ⟨once, valid, unlinked⟩ := last
    have loaded : fs.Loaded ip := ⟨own.live, valid⟩
    by_cases locked : (fs.inode ip).locked = true
    · unfold iput
      rw [ensures_bind, ensures_get]
      dsimp only
      rw [if_pos ⟨once, valid, unlinked⟩, if_pos locked]
      exact ensures_bind.mpr ((ensures_stop _).mpr ⟨loaded, unlinked, rfl⟩)
    · apply (iput_frees plain usable inOp loaded once unlinked (Bool.eq_false_iff.mpr locked)).mono
      · exact fun _ _ freed => freed.1
      · exact fun _ _ lower => ⟨loaded, unlinked, lower⟩
  · apply (iput_keeps usable own last).mono
    · intro _ after kept
      obtain ⟨put, -⟩ := kept
      exact ⟨put.usable, put.files.mono fun _ => False.elim, put.ninode, put.ref, put.others⟩
    · exact fun _ _ => False.elim

/-! An inode looked at for a moment. -/

/-- Some entry in use is for the inode. -/
def InTable (fs : FS) (inum : Nat) : Prop := ∃ ip, fs.Live ip ∧ (fs.inode ip).inum = inum

/-- An inode that is freed when a reference to it is given back. -/
def Orphan (fs : FS) (inum : Nat) : Prop := (fs.current inum).nlink = 0 ∧ ¬ fs.InTable inum

/-- `stat_inode` returns 0. -/
def Statable (copy : Dinode) : Prop := copy.type = T_DIR_INODE_MYFUSE ∨ copy.type = T_FILE_INODE_MYFUSE

theorem statInode_zero (inode : Inode) : (statInode inode).1 = 0 ↔ Statable inode.copy := by
  unfold statInode Statable
  dsimp only
  split
  next isDir => exact iff_of_true rfl (.inl isDir)
  next notDir =>
    split
    next isFile => exact iff_of_true rfl (.inr isFile)
    next notFile => exact iff_of_false (show ¬ (-ENOENT : Int) = 0 by decide) fun either => either.elim notDir notFile

/-- Only an entry that is read first is refused. -/
theorem ilock_refuses (ip : Nat) (fs : FS) : Ensures (ilock ip) fs (fun _ _ => True) fun reason _ =>
    reason.isUpper = true → (fs.inode ip).locked = false := by
  unfold ilock loggedRead modifyInode
  rw [ensures_bind, ensures_get]
  split
  next => exact (ensures_stop _).mpr fun upper => absurd upper (by decide)
  next =>
    split
    next => exact (ensures_stop _).mpr fun upper => absurd upper (by decide)
    next free =>
      have free : (fs.inode ip).locked = false := Bool.eq_false_iff.mpr free
      exact ensures_true.mono (fun _ _ _ => trivial) fun _ _ _ _ => free

theorem Fetched.usable (fetched : Fetched ip fs after) (usable : fs.Usable origin) (live : fs.Live ip) : after.Usable origin := by
  have volume := usable.volume
  refine ⟨⟨volume.toAllocator.congr fetched.sb fetched.bmap fetched.quiet fun _ _ => by rw [fetched.store], fetched.table volume.table, ?_⟩, ?_, ?_⟩
  · rw [fetched.held volume.table live, fetched.sb, fetched.store]
    exact volume.owned
  · rw [fetched.log]
    exact usable.committing
  · rw [fetched.log]
    exact usable.size

/-- A refused inode has no type that `stat_inode` knows. -/
theorem ilock_known (table : fs.TableOk) (live : fs.Live ip) : Ensures (ilock ip) fs (fun _ after => Fetched ip fs after)
    fun reason _ => reason.isUpper = true → ¬ Statable (fs.current (fs.inode ip).inum) := by
  refine ((ilock_fetches table live).and (ilock_refuses ip fs)).mono (fun _ _ both => both.1) ?_
  rintro reason _ ⟨⟨notLockable, -, -⟩, refused⟩ upper known
  refine notLockable ⟨refused upper, fun invalid => ?_⟩
  rw [current, entryOf_absent table live invalid] at known
  exact known.symm.imp_right .inl

namespace Got
variable (got : Got inum fs ip middle)
include got

theorem named (isLive : fs.Live ip) : (fs.inode ip).inum = inum := by
  obtain ⟨-, counted⟩ | ⟨unused, -⟩ := got.entry
  · rw [← got.names, counted]
  · exact absurd isLive unused

theorem apart {ip' : Nat} (isLive : fs.Live ip') (other : (fs.inode ip').inum ≠ inum) : ip' ≠ ip := fun here =>
  other (here ▸ got.named (here ▸ isLive))

/-- The only reference to an entry that was not in use. -/
theorem once : (middle.inode ip).ref = 1 ↔ ¬ fs.InTable inum := by
  obtain ⟨isLive, counted⟩ | ⟨-, absent, once, -⟩ := got.entry
  · have used := isLive.2
    rw [counted]
    exact iff_of_false (by dsimp only; omega) fun lone => lone ⟨ip, isLive, got.named isLive⟩
  · exact iff_of_true once fun ⟨ip', isLive, other⟩ => absent ip' isLive other

/-- With the reference given back the same entries are in use. -/
theorem live_back (ninode : after.ninode = middle.ninode) (ref : (after.inode ip).ref = (middle.inode ip).ref - 1)
    (others : ∀ ip', ip' ≠ ip → after.inode ip' = middle.inode ip') (ip' : Nat) : after.Live ip' ↔ fs.Live ip' := by
  by_cases here : ip' = ip
  · subst here
    rw [Live, ninode, ref]
    obtain ⟨isLive, counted⟩ | ⟨unused, -, once, -⟩ := got.entry
    · have used := isLive.2
      refine iff_of_true ⟨got.live.1, ?_⟩ isLive
      rw [counted]
      dsimp only
      omega
    · refine iff_of_false (fun both => ?_) unused
      have used := both.2
      rw [once] at used
      exact absurd used (by decide)
  · rw [← got.otherLive ip' here, Live, Live, ninode, others ip' here]

theorem inTable_back (live : ∀ ip', after.Live ip' ↔ fs.Live ip') (own : fs.Live ip → (after.inode ip).inum = inum)
    (others : ∀ ip', ip' ≠ ip → after.inode ip' = middle.inode ip') (other : Nat) : after.InTable other ↔ fs.InTable other := by
  have names : ∀ ip', fs.Live ip' → (after.inode ip').inum = (fs.inode ip').inum := fun ip' isLive => by
    by_cases here : ip' = ip
    · subst here
      rw [own isLive, got.named isLive]
    · rw [others ip' here, got.others ip' here isLive]
  refine exists_congr fun ip' => ?_
  rw [live]
  exact and_congr_right fun isLive => by rw [names ip' isLive]

end Got

/-- The inode was taken and given back: it is freed if it was an orphan. -/
structure Statted (origin : Origin) (inum : Nat) (fs after : FS) : Prop where
  usable : after.Usable origin
  files : SameFiles (fun other => other = inum ∧ fs.Orphan inum) fs after
  freed : fs.Orphan inum → (after.current inum).type = T_UNUSE_INODE_MYFUSE
  live : ∀ ip, after.Live ip ↔ fs.Live ip
  entries : ∀ ip, fs.Live ip → (fs.inode ip).inum ≠ inum → after.inode ip = fs.inode ip
  inTable : ∀ other, after.InTable other ↔ fs.InTable other

/-- An inode that is locked is unlocked and given back. -/
theorem iunlockput_spec {now : FS} (plain : origin.Plain) (usable : fs.Usable origin) (inOp : 1 ≤ fs.log.outstanding) (inside : inum < fs.sb.ninodes)
    (got : Got inum fs ip middle) (fetched : Fetched ip middle now) :
    Ensures (iunlockput ip) now (fun _ => Statted origin inum fs) fun reason _ => reason.isUpper = false := by
  have table := usable.volume.table
  have same := got.sameLoaded table inside
  have usable' := fetched.usable (same.usable usable) got.live
  have table' := usable'.volume.table
  have unlocked := setLocked_same table' ip false
  have entry := setLocked_self now ip false
  have others : ∀ ip', ip' ≠ ip → (now.setLocked ip false).inode ip' = middle.inode ip' := fun ip' apart => by
    rw [setLocked_of_ne apart, fetched.others ip' apart]
  have names : ((now.setLocked ip false).inode ip).inum = inum := by rw [entry]; exact fetched.inum.trans got.names
  have own : (now.setLocked ip false).Own ip 1 := (fetched.own same.table got.own).relock false
  have files : SameFiles (fun _ => False) fs (now.setLocked ip false) :=
    (((same.files table).trans (fetched.files same.table got.live)).trans (unlocked.files table')).mono fun _ none => (none.elim (fun none => none.elim id id) id : False)
  have orphan : ((now.setLocked ip false).inode ip).ref = 1 ∧ ((now.setLocked ip false).inode ip).valid = true ∧
      ((now.setLocked ip false).inode ip).copy.nlink = 0 ↔ fs.Orphan inum := by
    rw [entry, Orphan, ← got.once]
    dsimp only
    rw [fetched.ref, fetched.copy, got.names, same.current table]
    exact ⟨fun all => ⟨all.2.2, all.1⟩, fun both => ⟨both.2, fetched.valid, both.1⟩⟩
  have finish : ∀ {gone : Nat → Prop} {after : FS}, Put origin ip gone (now.setLocked ip false) after → (∀ other, gone other → other = inum ∧ fs.Orphan inum) →
      (fs.Live ip → (after.inode ip).inum = inum) → (fs.Orphan inum → (after.current inum).type = T_UNUSE_INODE_MYFUSE) → Statted origin inum fs after := by
    intro gone after put less own freed
    have entries : ∀ ip', ip' ≠ ip → after.inode ip' = middle.inode ip' := fun ip' other => (put.others ip' other).trans (others ip' other)
    have ref : (after.inode ip).ref = (middle.inode ip).ref - 1 := by
      rw [put.ref, entry]
      exact congrArg (· - 1) fetched.ref
    have live := got.live_back (put.ninode.trans fetched.ninode) ref entries
    refine ⟨put.usable, (files.trans put.files).mono fun other lost => less other (lost.resolve_left id), freed, live, fun ip' isLive other => ?_,
      got.inTable_back live own entries⟩
    have apart := got.apart isLive other
    rw [entries ip' apart, got.others ip' apart isLive]
  unfold iunlockput
  rw [ensures_bind, ensures_of_ok (iunlock_eq ip now)]
  by_cases lone : fs.Orphan inum
  · obtain ⟨once, valid, unlinked⟩ := orphan.mpr lone
    have inOp' : 1 ≤ (now.setLocked ip false).log.outstanding := by
      rw [unlocked.log, fetched.log, same.log]
      exact inOp
    refine (iput_frees plain (unlocked.usable usable') inOp' ⟨own.live, valid⟩ once unlinked (by rw [entry])).weaken ?_
    rintro _ after ⟨put, type, -⟩
    rw [names] at put type
    exact finish put (fun _ here => ⟨here, lone⟩) (fun isLive => absurd ⟨ip, isLive, got.named isLive⟩ lone.2) fun _ => type
  · refine (iput_keeps (unlocked.usable usable') own fun last => lone (orphan.mp last)).mono ?_ fun _ _ => False.elim
    rintro _ after ⟨put, -, -, entry'⟩
    exact finish put (fun _ => False.elim) (fun _ => by rw [entry']; exact names) fun isOrphan => absurd isOrphan lone

theorem statInum_spec (plain : origin.Plain) (usable : fs.Usable origin) (inOp : 1 ≤ fs.log.outstanding) (started : 0 < fs.ninode)
    (inside : inum < fs.sb.ninodes) :
    Ensures (statInum inum) fs (fun st after => Statted origin inum fs after ∧ (st.1 = 0 ↔ Statable (fs.current inum)))
      fun reason _ => reason.isUpper = true → ¬ Statable (fs.current inum) := by
  have table := usable.volume.table
  unfold statInum
  refine Ensures.bind ((iget_spec started inum).mono (fun _ _ got => got) fun _ _ => False.elim) ?_
  intro ip middle got
  have same := got.sameLoaded table inside
  have known := ilock_known same.table got.live
  rw [got.names, same.current table] at known
  refine Ensures.bind known ?_
  intro _ now fetched
  rw [ensures_bind, ensures_get]
  refine Ensures.bind ((iunlockput_spec plain usable inOp inside got fetched).mono (fun _ _ statted => statted) fun reason _ low upper => ?_) ?_
  · rw [low] at upper
    cases upper
  intro _ after statted
  rw [ensures_pure, statInode_zero, fetched.copy, got.names, same.current table]
  exact ⟨statted, Iff.rfl⟩

end FS
end Myfuse
