import Myfuse.Proofs.EntryBlind
import Myfuse.Proofs.Usable

/-! `iget` and the `iput` that follows it: entries not in use are nobody's, so a
reference taken and given back leaves every file as it was. -/

namespace Myfuse
open Library Library.Exec

namespace FS
variable {origin : Origin} {fs middle after : FS} {ip inum : Nat}

/-! States with one disk and one allocator whose tables differ. -/

theorem held_same (rest : after = { fs with inode := after.inode, ninode := after.ninode }) (roots : after.roots = fs.roots) : after.held = fs.held :=
  held_congr roots fun _ _ _ _ _ => by rw [rest]

theorem content_same (rest : after = { fs with inode := after.inode, ninode := after.ninode }) (roots : after.roots = fs.roots) :
    after.content = fs.content := by
  funext inum p
  exact content_congr (by rw [held_same rest roots]) fun _ => by rw [rest]

/-- A table that gives every inode the same slots. -/
theorem Usable.retable (usable : fs.Usable origin) (rest : after = { fs with inode := after.inode, ninode := after.ninode }) (table : after.TableOk)
    (roots : after.roots = fs.roots) : after.Usable origin where
  volume := by
    have volume := usable.volume
    have allocator : after.Allocator origin := by
      rw [rest]
      exact ⟨volume.layout, volume.reserved, volume.summaries, volume.free, volume.tracked⟩
    refine ⟨allocator, table, ?_⟩
    rw [held_same rest roots, rest]
    exact volume.owned
  committing := by rw [rest]; exact usable.committing
  size := by rw [rest]; exact usable.size

/-- The loaded entries have the same fields of their inodes; the table may have grown. -/
structure SameLoaded (fs after : FS) : Prop where
  rest : after = { fs with inode := after.inode, ninode := after.ninode }
  table : after.TableOk
  loaded : ∀ ip, after.Loaded ip ↔ fs.Loaded ip
  entry : ∀ ip, fs.Loaded ip → (after.inode ip).inum = (fs.inode ip).inum ∧ (after.inode ip).copy = (fs.inode ip).copy

namespace SameLoaded
variable (same : SameLoaded fs after)
include same

theorem sb : after.sb = fs.sb := by rw [same.rest]

theorem store : after.store = fs.store := by rw [same.rest]

theorem log : after.log = fs.log := by rw [same.rest]

theorem dinode (inum : Nat) : after.dinode inum = fs.dinode inum := dinode_congr same.sb (by rw [same.store])

theorem entryOf (table : fs.TableOk) (inum : Nat) : after.entryOf inum = fs.entryOf inum := by
  cases found : fs.entryOf inum with
  | some ip =>
    obtain ⟨isLoaded, rfl⟩ := entryOf_some found
    rw [← (same.entry ip isLoaded).1]
    exact entryOf_loaded same.table ((same.loaded ip).mpr isLoaded)
  | none =>
    cases found' : after.entryOf inum with
    | none => rfl
    | some ip =>
      obtain ⟨isLoaded, names⟩ := entryOf_some found'
      have before := (same.loaded ip).mp isLoaded
      rw [(same.entry ip before).1] at names
      rw [← names, entryOf_loaded table before] at found
      cases found

theorem current (table : fs.TableOk) (inum : Nat) : after.current inum = fs.current inum := by
  rw [FS.current, FS.current, same.entryOf table, same.dinode]
  cases found : fs.entryOf inum with
  | none => rfl
  | some ip => exact (same.entry ip (entryOf_some found).1).2

theorem roots (table : fs.TableOk) : after.roots = fs.roots := by
  funext inum slot
  rw [FS.roots, FS.roots, same.entryOf table, same.dinode, same.current table, same.sb]

theorem content (table : fs.TableOk) : after.content = fs.content :=
  content_same same.rest (same.roots table)

theorem usable (usable : fs.Usable origin) : after.Usable origin :=
  usable.retable same.rest same.table (same.roots usable.volume.table)

end SameLoaded

/-- Only entries that are not in use differ, and the table may have grown. -/
structure SameInUse (fs after : FS) : Prop where
  rest : after = { fs with inode := after.inode, ninode := after.ninode }
  live : ∀ ip, after.Live ip ↔ fs.Live ip
  inode : ∀ ip, fs.Live ip → after.inode ip = fs.inode ip

namespace SameInUse

theorem refl (fs : FS) : SameInUse fs fs := ⟨rfl, fun _ => Iff.rfl, fun _ _ => rfl⟩

variable (same : SameInUse fs after)
include same

theorem loaded (ip : Nat) : after.Loaded ip ↔ fs.Loaded ip := by
  rw [Loaded, Loaded, same.live]
  exact and_congr_right fun isLive => by rw [same.inode ip isLive]

theorem sameLoaded (table : fs.TableOk) : SameLoaded fs after where
  rest := same.rest
  table := by
    refine ⟨fun ip isLive => ?_, fun first second isLive isLive' equal => ?_⟩
    · rw [same.rest, same.inode ip ((same.live ip).mp isLive)]
      exact table.inside ip ((same.live ip).mp isLive)
    · rw [same.inode first ((same.live first).mp isLive), same.inode second ((same.live second).mp isLive')] at equal
      exact table.unique first second ((same.live first).mp isLive) ((same.live second).mp isLive') equal
  loaded := same.loaded
  entry ip isLoaded := by
    rw [same.inode ip isLoaded.1]
    exact ⟨rfl, rfl⟩

end SameInUse

/-- The lock of the entry `ip` is set. -/
def setLocked (fs : FS) (ip : Nat) (locked : Bool) : FS := { fs with inode := assign fs.inode ip { fs.inode ip with locked } }

theorem setLocked_self (fs : FS) (ip : Nat) (locked : Bool) : (fs.setLocked ip locked).inode ip = { fs.inode ip with locked } := assign_self ..

theorem setLocked_of_ne {ip' : Nat} {locked : Bool} (apart : ip' ≠ ip) : (fs.setLocked ip locked).inode ip' = fs.inode ip' := assign_of_ne apart ..

theorem setLocked_live {locked : Bool} (ip' : Nat) : (fs.setLocked ip locked).Live ip' ↔ fs.Live ip' := by
  rw [Live, Live]
  by_cases here : ip' = ip
  · rw [here, setLocked_self]
    rfl
  · rw [setLocked_of_ne here]
    rfl

theorem setLocked_same (table : fs.TableOk) (ip : Nat) (locked : Bool) : SameLoaded fs (fs.setLocked ip locked) := by
  have names : ∀ ip', ((fs.setLocked ip locked).inode ip').inum = (fs.inode ip').inum ∧ ((fs.setLocked ip locked).inode ip').valid = (fs.inode ip').valid ∧
      ((fs.setLocked ip locked).inode ip').copy = (fs.inode ip').copy := fun ip' => by
    by_cases here : ip' = ip
    · rw [here, setLocked_self]
      exact ⟨rfl, rfl, rfl⟩
    · rw [setLocked_of_ne here]
      exact ⟨rfl, rfl, rfl⟩
  refine ⟨rfl, ⟨fun ip' isLive => ?_, fun first second isLive isLive' equal => ?_⟩, fun ip' => ?_, fun ip' _ => ⟨(names ip').1, (names ip').2.2⟩⟩
  · rw [(names ip').1]
    exact table.inside ip' ((setLocked_live ip').mp isLive)
  · rw [(names first).1, (names second).1] at equal
    exact table.unique first second ((setLocked_live first).mp isLive) ((setLocked_live second).mp isLive') equal
  · rw [Loaded, Loaded, setLocked_live, (names ip').2.1]

theorem iunlock_eq (ip : Nat) (fs : FS) : iunlock ip fs = (.ok (), fs.setLocked ip false) := rfl

/-- A loaded entry is only locked, if no one has locked it. -/
theorem ilock_loaded (loaded : fs.Loaded ip) : Ensures (ilock ip) fs (fun _ after => after = fs.setLocked ip true) fun reason _ => reason = .blocked := by
  have used := loaded.1.2
  unfold ilock modifyInode
  rw [ensures_bind, ensures_get, if_neg (by omega), ensures_ite]
  refine ⟨fun _ => (ensures_stop _).mpr rfl, fun _ => ?_⟩
  rw [if_pos loaded.2, ensures_bind, ensures_modify, ensures_pure]
  rfl

/-- What `iget` leaves: one more reference to the entry of `inum`, which may have been set up. -/
structure Got (inum : Nat) (fs : FS) (ip : Nat) (after : FS) : Prop where
  rest : after = { fs with inode := after.inode, ninode := after.ninode }
  live : after.Live ip
  names : (after.inode ip).inum = inum
  otherLive : ∀ ip', ip' ≠ ip → (after.Live ip' ↔ fs.Live ip')
  others : ∀ ip', ip' ≠ ip → fs.Live ip' → after.inode ip' = fs.inode ip'
  entry : (fs.Live ip ∧ after.inode ip = { fs.inode ip with ref := (fs.inode ip).ref + 1 }) ∨
    (¬ fs.Live ip ∧ (∀ ip', fs.Live ip' → (fs.inode ip').inum ≠ inum) ∧ (after.inode ip).ref = 1 ∧ (after.inode ip).valid = false)

/-- An entry that is not in use is set up, maybe in a table that has grown. -/
theorem igetClaim_spec (same : SameInUse fs middle) (inside : ip < middle.ninode) (idle : (middle.inode ip).ref = 0)
    (absent : ∀ ip', fs.Live ip' → (fs.inode ip').inum ≠ inum) : Ensures (igetClaim ip inum) middle (Got inum fs) fun _ _ => False := by
  unfold igetClaim modifyInode
  rw [ensures_bind, ensures_modify, ensures_pure]
  have unused : ¬ fs.Live ip := fun isLive => by
    have used := isLive.2
    rw [← same.inode ip isLive] at used
    omega
  refine ⟨?_, ⟨inside, by simp⟩, by simp, fun ip' apart => ?_, fun ip' apart isLive => ?_, .inr ⟨unused, absent, by simp, by simp⟩⟩
  · conv_lhs => rw [same.rest]
  · rw [← same.live ip', Live, Live]
    simp only [assign_of_ne apart]
  · simp only [assign_of_ne apart]
    exact same.inode ip' isLive

theorem itableGrow_spec (fs : FS) : Ensures itableGrow fs
    (fun _ after => SameInUse fs after ∧ after.ninode = fs.ninode * 2 ∧ (0 < fs.ninode → (after.inode fs.ninode).ref = 0)) fun _ _ => False := by
  unfold itableGrow
  rw [ensures_modify]
  refine ⟨⟨rfl, fun ip => ⟨?_, fun isLive => ?_⟩, fun ip isLive => ?_⟩, rfl, fun started => ?_⟩
  · rintro ⟨inside, used⟩
    dsimp only at inside used
    split at used
    next => exact absurd used (by decide)
    next outside => exact ⟨by omega, used⟩
  · have inside := isLive.1
    refine ⟨show ip < fs.ninode * 2 by omega, ?_⟩
    dsimp only
    rw [if_neg (by omega)]
    exact isLive.2
  · have inside := isLive.1
    dsimp only
    rw [if_neg (by omega)]
  · dsimp only
    rw [if_pos ⟨Nat.le_refl _, by omega⟩]
    rfl

theorem iget_spec (started : 0 < fs.ninode) (inum : Nat) : Ensures (iget inum) fs (Got inum fs) fun _ _ => False := by
  unfold iget
  rw [ensures_bind, ensures_get]
  split
  next ip found =>
    obtain ⟨holds, inside, -⟩ := List.find?_range_eq_some.mp found
    simp only [decide_eq_true_eq] at holds
    have isLive : fs.Live ip := ⟨List.mem_range.mp inside, holds.2⟩
    unfold modifyInode
    rw [ensures_bind, ensures_modify, ensures_pure]
    refine ⟨rfl, ⟨isLive.1, ?_⟩, by simp only [assign_self, holds.1], fun ip' apart => ?_, fun ip' apart _ => ?_, .inl ⟨isLive, by simp only [assign_self]⟩⟩
    · have used := holds.2
      simp only [assign_self]
      omega
    · rw [Live, Live]
      simp only [assign_of_ne apart]
    · simp only [assign_of_ne apart]
  next missing =>
    have absent : ∀ ip', fs.Live ip' → (fs.inode ip').inum ≠ inum := fun ip' isLive same => by
      have none := List.find?_range_eq_none.mp missing ip' isLive.1
      simp [same, isLive.2] at none
    split
    next ip empty =>
      obtain ⟨idle, inside, -⟩ := List.find?_range_eq_some.mp empty
      exact igetClaim_spec (.refl fs) (List.mem_range.mp inside) (of_decide_eq_true idle) absent
    next =>
      refine Ensures.bind (itableGrow_spec fs) ?_
      rintro _ grown ⟨same, ninode, idle⟩
      exact igetClaim_spec same (by omega) (idle started) absent

/-- One more reference to the entry `ip`. -/
def refer (fs : FS) (ip : Nat) : FS :=
  { fs with inode := assign fs.inode ip { fs.inode ip with ref := (fs.inode ip).ref + 1 } }

theorem refer_self (fs : FS) (ip : Nat) : (fs.refer ip).inode ip = { fs.inode ip with ref := (fs.inode ip).ref + 1 } := assign_self ..

theorem refer_of_ne {ip' : Nat} (apart : ip' ≠ ip) : (fs.refer ip).inode ip' = fs.inode ip' := assign_of_ne apart ..

/-- The reference is given back; nothing is truncated, for an entry without references was not read. -/
theorem iput_refer (unread : (fs.inode ip).ref = 0 → (fs.inode ip).valid = false) : iput ip (fs.refer ip) = (.ok (), fs) := by
  have kept : ¬ (((fs.refer ip).inode ip).ref = 1 ∧ ((fs.refer ip).inode ip).valid = true ∧ ((fs.refer ip).inode ip).copy.nlink = 0) := by
    rw [refer_self]
    rintro ⟨once, valid, -⟩
    rw [unread (by dsimp only at once; omega)] at valid
    cases valid
  unfold iput modifyInode
  rw [bind_ok get_apply]
  dsimp only
  rw [if_neg kept, modify_apply, refer_self]
  have back : assign (fs.refer ip).inode ip { fs.inode ip with ref := (fs.inode ip).ref + 1 - 1 } = fs.inode := by
    funext ip'
    by_cases here : ip' = ip
    · rw [here, assign_self]
      simp
    · rw [assign_of_ne here, refer_of_ne here]
  simp only [back]
  rfl

/-- What the table was before the reference: entries in use are as they were before `iget`. -/
theorem Got.back (got : Got inum fs ip after) :
    ∃ back, SameInUse fs back ∧ after = back.refer ip ∧ ((back.inode ip).ref = 0 → (back.inode ip).valid = false) := by
  refine ⟨{ after with inode := assign after.inode ip { after.inode ip with ref := (after.inode ip).ref - 1 } }, ⟨?_, fun ip' => ?_, fun ip' isLive => ?_⟩, ?_, fun none => ?_⟩
  · conv_lhs => rw [got.rest]
  · by_cases here : ip' = ip
    · subst here
      rw [Live]
      simp only [assign_self]
      obtain ⟨isLive, counted⟩ | ⟨unused, -, once, -⟩ := got.entry
      · refine iff_of_true ⟨got.live.1, ?_⟩ isLive
        have used := isLive.2
        rw [counted]
        dsimp only
        omega
      · refine iff_of_false (fun both => ?_) unused
        have used := both.2
        rw [once] at used
        exact absurd used (by decide)
    · rw [← got.otherLive ip' here, Live, Live]
      simp only [assign_of_ne here]
  · by_cases here : ip' = ip
    · subst here
      simp only [assign_self]
      obtain ⟨-, counted⟩ | ⟨unused, -⟩ := got.entry
      · rw [counted]
        simp
      · exact absurd isLive unused
    · simp only [assign_of_ne here]
      exact got.others ip' here isLive
  · have inode : assign (assign after.inode ip { after.inode ip with ref := (after.inode ip).ref - 1 }) ip
        { after.inode ip with ref := (after.inode ip).ref - 1 + 1 } = after.inode := by
      funext ip'
      by_cases here : ip' = ip
      · rw [here, assign_self]
        simp
      · rw [assign_of_ne here, assign_of_ne here]
    unfold refer
    simp only [assign_self, inode]
  · simp only [assign_self] at none ⊢
    obtain ⟨isLive, counted⟩ | ⟨-, -, -, unread⟩ := got.entry
    · have used := isLive.2
      rw [counted] at none
      dsimp only at none
      omega
    · exact unread

/-- The reference is given back. -/
theorem Got.puts (got : Got inum fs ip after) : Ensures (iput ip) after (fun _ => SameInUse fs) fun _ _ => False := by
  obtain ⟨back, same, rfl, unread⟩ := got.back
  exact (ensures_of_ok (iput_refer unread)).mpr same

/-! A reference that someone holds during a routine on another entry, or the same. -/

/-- The second state has one more reference to `ip`; `dp` is loaded in both. -/
structure Referred (ip dp : Nat) (fs fs' : FS) : Prop where
  refers : fs' = fs.refer ip
  calm : fs.log.committing = false
  used : 1 ≤ (fs.inode dp).ref
  valid : (fs.inode dp).valid = true

theorem refer_assign (fs : FS) (ip dp : Nat) {change : Inode → Inode} (commutes : ∀ inode ref, change { inode with ref } = { change inode with ref }) :
    assign (fs.refer ip).inode dp (change ((fs.refer ip).inode dp)) = (refer { fs with inode := assign fs.inode dp (change (fs.inode dp)) } ip).inode := by
  funext ip'
  by_cases here : ip' = dp
  · subst here
    by_cases same : ip' = ip
    · subst same
      rw [assign_self, refer_self, refer_self, commutes]
      simp only [assign_self]
      have ref : (change (fs.inode ip')).ref = (fs.inode ip').ref := (congrArg Inode.ref (commutes (fs.inode ip') (fs.inode ip').ref) :)
      rw [ref]
    · rw [assign_self, refer_of_ne same, refer_of_ne same]
      simp only [assign_self]
  · rw [assign_of_ne here]
    by_cases same : ip' = ip
    · subst same
      rw [refer_self, refer_self]
      simp only [assign_of_ne here]
    · rw [refer_of_ne same, refer_of_ne same]
      simp only [assign_of_ne here]

theorem referred_outside (ip dp : Nat) : OutsideEntry dp (Referred ip dp) fun _ _ => True where
  fails _ := trivial
  rest referred := by rw [referred.refers]; rfl
  entry {fs fs'} referred := by
    have used := referred.used
    rw [referred.refers]
    by_cases same : dp = ip
    · subst same
      exact ⟨_, refer_self fs dp, by omega⟩
    · exact ⟨_, refer_of_ne same, Iff.rfl⟩
  valid referred := referred.valid
  blind blind fs fs' referred := by
    refine (blind fs fs' fs fs' ⟨rfl, rfl, referred.calm, by rw [referred.refers]; rfl⟩).mono (fun _ after after' tables => ?_) fun _ _ _ => trivial
    obtain ⟨table, -, calm, rest⟩ := tables
    refine ⟨?_, calm, by rw [table]; exact referred.used, by rw [table]; exact referred.valid⟩
    rw [rest, referred.refers, refer, refer, table]
  change {change} commutes valid fs fs' referred := by
    have ref : (change (fs.inode dp)).ref = (fs.inode dp).ref := (congrArg Inode.ref (commutes (fs.inode dp) (fs.inode dp).ref) :)
    refine .modify ⟨?_, referred.calm, ?_, ?_⟩
    · rw [referred.refers, refer_assign fs ip dp commutes]
      rfl
    · simp only [assign_self, ref]
      exact referred.used
    · simp only [assign_self, valid]
      exact referred.valid

end FS
end Myfuse
