import Myfuse.Proofs.Mount
import Myfuse.Proofs.Resize

/-! From `begin_op` to `end_op`: locking an inode reads it when it has to, the work
on it is done, and the last `end_op` commits a state in which every entry is clean. -/

namespace Myfuse
open Library Library.Exec

namespace FS
variable {origin : Origin} {fs middle after : FS} {ip : Nat}

/-- What a commit needs when no inode is worked on. -/
structure Settled (origin : Origin) (fs : FS) : Prop where
  synced : fs.Synced
  clean : ∀ ip, fs.Loaded ip → fs.Clean ip
  commits : CommitsSound origin.lost fs.sb fs.history

/-- An operation is open and works on no inode. -/
structure Open (origin : Origin) (fs : FS) : Prop where
  volume : fs.Volume origin
  op : fs.Op origin
  settled : origin.watch → fs.Settled origin

/-- No operation is open and nothing waits for a commit. -/
structure AtRest (origin : Origin) (fs : FS) : Prop where
  volume : fs.Volume origin
  idle : Idle fs.log
  settled : origin.watch → fs.Settled origin

/-- The same disk and the same entries. -/
structure Unmoved (fs after : FS) : Prop where
  sb : after.sb = fs.sb
  store : after.store = fs.store
  inode : after.inode = fs.inode
  ninode : after.ninode = fs.ninode
  bmap : after.bmap = fs.bmap

namespace Unmoved
variable (same : Unmoved fs after)
include same

theorem loaded (ip : Nat) : after.Loaded ip ↔ fs.Loaded ip := by
  unfold Loaded Live
  rw [same.inode, same.ninode]

theorem dinode (inum : Nat) : after.dinode inum = fs.dinode inum := by
  unfold FS.dinode
  rw [same.sb, same.store]

theorem entryOf (inum : Nat) : after.entryOf inum = fs.entryOf inum := by
  unfold FS.entryOf
  rw [same.inode, same.ninode]

theorem current (inum : Nat) : after.current inum = fs.current inum := by
  unfold FS.current
  rw [same.entryOf, same.inode, same.dinode]

theorem roots : after.roots = fs.roots := by
  funext inum slot
  unfold FS.roots
  rw [same.sb, same.entryOf, same.current, same.dinode]

theorem held : after.held = fs.held := by
  unfold FS.held
  rw [same.roots, same.store]

theorem content : after.content = fs.content := by
  funext inum p
  exact content_congr (by rw [same.held]) fun _ => by rw [same.store]

theorem clean (clean : fs.Clean ip) : after.Clean ip := by
  refine ⟨?_, ?_, ?_⟩ <;> rw [same.inode]
  · rw [same.dinode]
    exact clean.type
  · exact clean.used
  · rw [same.dinode]
    exact clean.addrs

theorem volume (volume : fs.Volume origin) (quiet : Quiet fs after) : after.Volume origin := by
  refine ⟨volume.toAllocator.congr same.sb same.bmap quiet fun _ _ => by rw [same.store], ⟨fun ip live => ?_, fun ip ip' live live' => ?_⟩, ?_⟩
  · rw [same.sb, same.inode]
    exact volume.table.inside ip (by rwa [Live, same.inode, same.ninode] at live)
  · rw [same.inode]
    exact volume.table.unique ip ip' (by rwa [Live, same.inode, same.ninode] at live) (by rwa [Live, same.inode, same.ninode] at live')
  · rw [same.held, same.sb, same.store]
    exact volume.owned

end Unmoved

/-- `begin_op` moves nothing, from any state. -/
theorem beginOp_moves (fs : FS) : Ensures beginOp fs
    (fun _ after => Unmoved fs after ∧ after.history = .beginOp :: fs.history ∧ after.n_log_wrote = 0 ∧ after.device = fs.device ∧
      after.log = { fs.log with outstanding := fs.log.outstanding + 1 })
    fun reason after => reason = .blocked ∧ after = fs := by
  unfold beginOp note
  rw [ensures_bind, ensures_get, ensures_ite]
  constructor
  · intro _
    rw [ensures_bind, ensures_modify, ensures_modify]
    exact ⟨⟨rfl, rfl, rfl, rfl, rfl⟩, rfl, rfl, rfl, rfl⟩
  · intro _
    exact (ensures_stop _).mpr ⟨rfl, rfl⟩

/-- `end_op` moves nothing, whether it commits or not. -/
theorem endOp_moves (fs : FS) : Ensures endOp fs
    (fun _ after => Unmoved fs after ∧ Quiet fs after ∧ after.n_log_wrote = fs.n_log_wrote ∧
      after.log.outstanding = fs.log.outstanding - 1 ∧ after.log.committing = false ∧ fs.log.committing = false ∧
      after.log.size = fs.log.size)
    fun reason _ => reason = .errExit .committing := by
  by_cases alone : fs.log.committing = false
  · refine (endOp_spec alone).mono ?_ fun _ _ => False.elim
    rintro _ after rfl
    split
    · exact ⟨⟨rfl, rfl, rfl, rfl, rfl⟩, ⟨[.committed fs.committedDisk, .endOp], rfl, by simp [Event.isNeutral]⟩, rfl, rfl, alone, alone, rfl⟩
    · exact ⟨⟨rfl, rfl, rfl, rfl, rfl⟩, .one rfl rfl, rfl, rfl, alone, alone, rfl⟩
  · unfold endOp
    rw [ensures_bind, ensures_modify, ensures_bind, ensures_get]
    have committing : fs.log.committing = true := by simpa using alone
    simp only [committing, if_true, ensures_stop]

/-- `begin_op` on an idle log. -/
theorem AtRest.begins (rest : fs.AtRest origin) : Ensures beginOp fs
    (fun _ after => after.Open origin ∧ Unmoved fs after ∧ after.n_log_wrote = 0 ∧ after.log.outstanding = 1) fun _ _ => False := by
  refine (beginOp_spec rest.idle.admits).weaken ?_
  rintro _ after rfl
  have same : Unmoved fs { fs with
      log := { fs.log with outstanding := fs.log.outstanding + 1 }, n_log_wrote := 0, history := .beginOp :: fs.history } :=
    ⟨rfl, rfl, rfl, rfl, rfl⟩
  have one : fs.log.outstanding + 1 = 1 := by rw [rest.idle.outstanding]; rfl
  refine ⟨⟨same.volume rest.volume ⟨[.beginOp], rfl, by simp [Event.isNeutral]⟩, ?_, fun watching => ?_⟩, same, rfl, one⟩
  · refine ⟨rest.idle.committing, by rw [one], rest.idle.size, fun _ => one, fun _ => ?_⟩
    simp [Fslog.n, rest.idle.block]
  · have settled := rest.settled watching
    exact ⟨settled.synced, fun ip loaded => same.clean (settled.clean ip loaded), settled.commits⟩

theorem settled_consistent (volume : fs.Volume origin) (settled : fs.Settled origin) : Consistent origin.lost fs.sb fs.store :=
  consistent_of_clean volume settled.clean

/-- The last `end_op` commits. -/
theorem Open.ends (opened : fs.Open origin) (alone : fs.log.outstanding = 1) : Ensures endOp fs
    (fun _ after => after.AtRest origin ∧ Unmoved fs after) fun _ _ => False := by
  refine (endOp_spec opened.op.committing).weaken ?_
  rw [if_pos alone]
  rintro _ after rfl
  have same : Unmoved fs fs.closed.afterCommit := ⟨rfl, rfl, rfl, rfl, rfl⟩
  refine ⟨⟨same.volume opened.volume ⟨[.committed fs.committedDisk, .endOp], rfl, by simp [Event.isNeutral]⟩, ?_, fun watching => ?_⟩, same⟩
  · refine ⟨opened.op.size, ?_, opened.op.committing, rfl⟩
    simp only [afterCommit, closed, alone]
    rfl
  · have settled := opened.settled watching
    have disk := committedDisk_synced settled.synced
    refine ⟨fun blockno changed => absurd (congrFun disk blockno).symm changed,
      fun ip loaded => same.clean (settled.clean ip loaded), ?_, settled.commits⟩
    intro _
    have consistent := settled_consistent opened.volume settled
    rw [← disk] at consistent
    exact consistent

/-! What work on one entry leaves alone. -/

/-- The other entries and the other inodes stay; the entry keeps its number. -/
structure Frame (ip : Nat) (fs after : FS) : Prop where
  sb : after.sb = fs.sb
  ninode : after.ninode = fs.ninode
  others : ∀ ip', ip' ≠ ip → after.inode ip' = fs.inode ip'
  inum : (after.inode ip).inum = (fs.inode ip).inum
  dinodes : ∀ inum < fs.sb.ninodes, inum ≠ (fs.inode ip).inum → after.dinode inum = fs.dinode inum

theorem Keeps.frame (keeps : Keeps ip fs after) : Frame ip fs after :=
  ⟨keeps.sb, keeps.ninode, keeps.others, keeps.inum, keeps.dinodes⟩

theorem Unmoved.frame (same : Unmoved fs after) (ip : Nat) : Frame ip fs after :=
  ⟨same.sb, same.ninode, fun _ _ => by rw [same.inode], by rw [same.inode], fun inum _ _ => same.dinode inum⟩

namespace Frame

theorem trans (head : Frame ip fs middle) (tail : Frame ip middle after) : Frame ip fs after where
  sb := tail.sb.trans head.sb
  ninode := tail.ninode.trans head.ninode
  others ip' apart := (tail.others ip' apart).trans (head.others ip' apart)
  inum := tail.inum.trans head.inum
  dinodes inum inside apart := by
    rw [tail.dinodes inum (head.sb ▸ inside) (head.inum ▸ apart), head.dinodes inum inside apart]

variable (frame : Frame ip fs after)
include frame

theorem entryOf {inum : Nat} (apart : inum ≠ (fs.inode ip).inum) : after.entryOf inum = fs.entryOf inum := by
  unfold FS.entryOf
  rw [frame.ninode]
  refine List.find?_congr fun ip' _ => ?_
  by_cases here : ip' = ip
  · have other : ¬ (fs.inode ip).inum = inum := fun same => apart same.symm
    simp only [here, frame.inum, other, false_and, decide_false]
  · rw [frame.others ip' here]

theorem current {inum : Nat} (inside : inum < fs.sb.ninodes) (apart : inum ≠ (fs.inode ip).inum) :
    after.current inum = fs.current inum := by
  rw [FS.current, FS.current, frame.entryOf apart]
  cases found : fs.entryOf inum with
  | none => exact frame.dinodes inum inside apart
  | some other =>
    have isOther : other ≠ ip := by
      rintro rfl
      exact apart (entryOf_some found).2.symm
    simp only [frame.others other isOther]

theorem roots {inum : Nat} (apart : inum ≠ (fs.inode ip).inum) : after.roots inum = fs.roots inum := by
  funext slot
  unfold FS.roots
  rw [frame.sb, frame.entryOf apart]
  by_cases inside : inum < fs.sb.ninodes
  · rw [frame.current inside apart, frame.dinodes inum inside apart]
  · rw [if_neg fun all => inside all.1, if_neg fun all => inside all.1]

theorem clean (table : fs.TableOk) (live : fs.Live ip) {ip' : Nat} (apart : ip' ≠ ip) (live' : fs.Live ip')
    (clean : fs.Clean ip') : after.Clean ip' := by
  have other : (fs.inode ip').inum ≠ (fs.inode ip).inum := fun same => apart (table.unique _ _ live' live same)
  have dinode := frame.dinodes _ (table.inside ip' live') other
  have entry := frame.others ip' apart
  exact ⟨by rw [entry, dinode, clean.type], by rw [entry]; exact clean.used, by rw [entry, dinode]; exact clean.addrs⟩

end Frame

/-! Locking. -/

/-- `ilock` does not stop. -/
structure Lockable (fs : FS) (ip : Nat) : Prop where
  unlocked : (fs.inode ip).locked = false
  kind : (fs.inode ip).valid = false → (fs.dinode (fs.inode ip).inum).type = T_FILE_INODE_MYFUSE ∨
    (fs.dinode (fs.inode ip).inum).type = T_DIR_INODE_MYFUSE ∨ (fs.dinode (fs.inode ip).inum).type = T_DEVICE_INODE_MYFUSE

/-- `ilock` has returned: the entry is locked and has the fields of its inode. -/
structure Fetched (ip : Nat) (fs after : FS) : Prop where
  sb : after.sb = fs.sb
  store : after.store = fs.store
  device : after.device = fs.device
  log : after.log = fs.log
  n_log_wrote : after.n_log_wrote = fs.n_log_wrote
  bmap : after.bmap = fs.bmap
  ninode : after.ninode = fs.ninode
  history : after.history = fs.history
  others : ∀ ip', ip' ≠ ip → after.inode ip' = fs.inode ip'
  inum : (after.inode ip).inum = (fs.inode ip).inum
  ref : (after.inode ip).ref = (fs.inode ip).ref
  valid : (after.inode ip).valid = true
  locked : (after.inode ip).locked = true
  copy : (after.inode ip).copy = fs.current (fs.inode ip).inum
  used : (fs.inode ip).valid = false → (fs.dinode (fs.inode ip).inum).type ≠ T_UNUSE_INODE_MYFUSE

theorem entryOf_absent (table : fs.TableOk) (live : fs.Live ip) (invalid : (fs.inode ip).valid = false) :
    fs.entryOf (fs.inode ip).inum = none := by
  cases found : fs.entryOf (fs.inode ip).inum with
  | none => rfl
  | some other =>
    obtain ⟨loaded, same⟩ := entryOf_some found
    have here := table.unique other ip loaded.1 live same
    rw [here] at loaded
    rw [loaded.2] at invalid
    cases invalid

theorem ilock_fetches (table : fs.TableOk) (live : fs.Live ip) : Ensures (ilock ip) fs (fun _ after => Fetched ip fs after)
    fun _ after => ¬ fs.Lockable ip ∧ after.sb = fs.sb ∧ after.history = fs.history := by
  have referenced := live.2
  unfold ilock loggedRead modifyInode
  rw [ensures_bind, ensures_get, if_neg (by omega)]
  split
  next locked =>
    rw [ensures_stop]
    refine ⟨fun lockable => ?_, rfl, rfl⟩
    rw [lockable.unlocked] at locked
    cases locked
  next =>
    rw [ensures_bind, ensures_modify]
    split
    next valid =>
      rw [ensures_pure]
      refine ⟨rfl, rfl, rfl, rfl, rfl, rfl, rfl, rfl, fun ip' apart => assign_of_ne apart _ _, by simp, by simp,
        by simp [valid], by simp, ?_, fun invalid => ?_⟩
      · rw [current_loaded table ⟨live, valid⟩]
        simp
      · rw [valid] at invalid
        cases invalid
    next invalid =>
      have invalid : (fs.inode ip).valid = false := by simpa using invalid
      rw [ensures_bind, ensures_bind, ensures_get, ensures_pure, ensures_bind, ensures_modify]
      split
      next unused =>
        rw [ensures_stop]
        refine ⟨fun lockable => ?_, rfl, rfl⟩
        have kind := lockable.kind invalid
        rw [unused] at kind
        simp at kind
      next used =>
        split
        next strange =>
          rw [ensures_stop]
          refine ⟨fun lockable => ?_, rfl, rfl⟩
          have kind := lockable.kind invalid
          tauto
        next =>
          rw [ensures_pure]
          refine ⟨rfl, rfl, rfl, rfl, rfl, rfl, rfl, rfl, fun ip' apart => ?_, by simp, by simp, by simp, by simp, ?_, fun _ => used⟩
          · simp [assign_of_ne apart]
          · rw [current, entryOf_absent table live invalid]
            simp

namespace Fetched
variable (fetched : Fetched ip fs after)
include fetched

theorem frame : Frame ip fs after :=
  ⟨fetched.sb, fetched.ninode, fetched.others, fetched.inum, fun _ _ _ => dinode_congr fetched.sb (by rw [fetched.store])⟩

theorem live (ip' : Nat) : after.Live ip' ↔ fs.Live ip' := by
  unfold Live
  rw [fetched.ninode]
  by_cases here : ip' = ip
  · rw [here, fetched.ref]
  · rw [fetched.others ip' here]

theorem table (table : fs.TableOk) : after.TableOk := by
  have inum : ∀ ip', (after.inode ip').inum = (fs.inode ip').inum := fun ip' => by
    by_cases here : ip' = ip
    · rw [here, fetched.inum]
    · rw [fetched.others ip' here]
  refine ⟨fun ip' isLive => ?_, fun first second isLive isLive' same => ?_⟩
  · rw [fetched.sb, inum]
    exact table.inside ip' ((fetched.live ip').mp isLive)
  · rw [inum, inum] at same
    exact table.unique first second ((fetched.live first).mp isLive) ((fetched.live second).mp isLive') same

theorem loaded (live : fs.Live ip) : after.Loaded ip := ⟨(fetched.live ip).mpr live, fetched.valid⟩

theorem roots (table : fs.TableOk) (live : fs.Live ip) : after.roots = fs.roots := by
  funext inum slot
  by_cases here : inum = (fs.inode ip).inum
  · have mine := roots_loaded (fetched.table table) (fetched.loaded live) slot
    rw [fetched.inum, fetched.copy] at mine
    rw [here, mine]
    cases valid : (fs.inode ip).valid with
    | true => rw [current_loaded table ⟨live, valid⟩, roots_loaded table ⟨live, valid⟩]
    | false =>
      unfold FS.roots
      simp only [table.inside ip live, fetched.used valid, ne_eq, not_false_eq_true, or_true, and_true, true_and]
  · rw [fetched.frame.roots here]

theorem held (table : fs.TableOk) (live : fs.Live ip) : after.held = fs.held := by
  unfold FS.held
  rw [fetched.roots table live, fetched.store]

theorem content (table : fs.TableOk) (live : fs.Live ip) : after.content = fs.content := by
  funext inum p
  exact content_congr (by rw [fetched.held table live]) fun _ => by rw [fetched.store]

theorem quiet : Quiet fs after := ⟨[], fetched.history, by simp⟩

/-- An entry read now is clean. -/
theorem clean (table : fs.TableOk) (live : fs.Live ip) (before : fs.Loaded ip → fs.Clean ip) : after.Clean ip := by
  have dinode : after.dinode (after.inode ip).inum = fs.dinode (fs.inode ip).inum := by
    rw [fetched.inum]
    exact dinode_congr fetched.sb (by rw [fetched.store])
  cases valid : (fs.inode ip).valid with
  | true =>
    obtain ⟨type, used, addrs⟩ := before ⟨live, valid⟩
    have copy := fetched.copy
    rw [current_loaded table ⟨live, valid⟩] at copy
    exact ⟨by rw [dinode, copy, type], by rw [copy]; exact used, by rw [dinode, copy]; exact addrs⟩
  | false =>
    have copy : (after.inode ip).copy = after.dinode (after.inode ip).inum := by
      rw [fetched.copy, dinode, current, entryOf_absent table live valid]
    exact ⟨by rw [copy], by rw [copy, dinode]; exact fetched.used valid, fun slot _ => by rw [copy]⟩

end Fetched

/-- An open operation takes an inode in hand. -/
theorem Open.locks (opened : fs.Open origin) (live : fs.Live ip) (lockable : origin.roomy → fs.Lockable ip) :
    Ensures (ilock ip) fs (fun _ after => after.Running origin ip ∧ Fetched ip fs after ∧ (origin.watch → after.Clean ip))
      (Stops origin) := by
  have table := opened.volume.table
  refine (ilock_fetches table live).mono (fun _ after fetched => ?_) fun reason after fails => ?_
  · have volume : after.Volume origin := by
      refine ⟨opened.volume.toAllocator.congr fetched.sb fetched.bmap fetched.quiet fun _ _ => by rw [fetched.store],
        fetched.table table, ?_⟩
      rw [fetched.held table live, fetched.sb, fetched.store]
      exact opened.volume.owned
    have op := opened.op
    have clean : origin.watch → after.Clean ip := fun watching =>
      fetched.clean table live ((opened.settled watching).clean ip)
    refine ⟨⟨volume, fetched.loaded live, ?_, fun watching => ?_⟩, fetched, clean⟩
    · refine ⟨?_, ?_, ?_, ?_, ?_⟩ <;> rw [fetched.log]
      · exact op.committing
      · exact op.inOp
      · exact op.size
      · exact op.alone
      · rw [fetched.n_log_wrote]
        exact op.listed
    · have settled := opened.settled watching
      refine ⟨fun blockno changed => ?_, fun ip' apart loaded => ?_, (clean watching).type, (clean watching).used, ?_⟩
      · rw [fetched.store, fetched.device] at changed
        rw [fetched.log]
        exact settled.synced blockno changed
      · have before : fs.Loaded ip' := ⟨(fetched.live ip').mp loaded.1, by rw [← fetched.others ip' apart]; exact loaded.2⟩
        exact fetched.frame.clean table live apart before.1 (settled.clean ip' before)
      · rw [fetched.sb, fetched.history]
        exact settled.commits
  · exact ⟨fun roomy => absurd (lockable roomy) fails.1, fun watching => by
      rw [fails.2.1, fails.2.2]
      exact (opened.settled watching).commits⟩

/-- Unlocking a clean inode leaves the operation open. -/
theorem Running.unlocks (running : fs.Running origin ip) (clean : origin.watch → fs.Clean ip) {exit : Exit → FS → Prop} :
    Ensures (iunlock ip) fs
      (fun _ after => after.Open origin ∧ Steady origin ip fs after ∧ (after.inode ip).locked = false ∧ after.store = fs.store)
      exit := by
  refine (setLocked_spec running false).weaken ?_
  rintro _ after ⟨steady, -, inode, store⟩
  have entry : after.inode ip = { fs.inode ip with locked := false } := by rw [inode]; simp
  refine ⟨⟨steady.running.volume, steady.running.op, fun watching => ?_⟩, steady, by rw [entry], store⟩
  have sound := steady.running.sound watching
  refine ⟨sound.synced, fun ip' loaded => ?_, sound.commits⟩
  by_cases here : ip' = ip
  · have addrs := (clean watching).addrs
    have dinode : ∀ inum, after.dinode inum = fs.dinode inum := fun inum => dinode_congr steady.keeps.sb (by rw [store])
    rw [here]
    refine ⟨sound.type, sound.used, fun slot small => ?_⟩
    rw [dinode, entry]
    exact addrs slot small
  · exact sound.others ip' here loaded

/-! Sessions. -/

/-- A session on `ip` is over: its file has the size and the bytes, the others are as they were. -/
structure Served (origin : Origin) (ip : Nat) (fs : FS) (size : Nat) (bytes : Nat → Byte) (after : FS) : Prop where
  rest : after.AtRest origin
  frame : Frame ip fs after
  ref : (after.inode ip).ref = (fs.inode ip).ref
  loaded : after.Loaded ip
  unlocked : (after.inode ip).locked = false
  type : (after.inode ip).copy.type = (fs.current (fs.inode ip).inum).type
  nlink : (after.inode ip).copy.nlink = (fs.current (fs.inode ip).inum).nlink
  size : (after.inode ip).copy.size = size
  own : after.content (fs.inode ip).inum = bytes
  others : ∀ inum, inum ≠ (fs.inode ip).inum → after.content inum = fs.content inum

/-- The work on a locked inode is done; a commit may follow. -/
structure Done (origin : Origin) (ip : Nat) (fs : FS) (size : Nat) (bytes : Nat → Byte) (after : FS) : Prop where
  running : after.Running origin ip
  keeps : Keeps ip fs after
  clean : origin.watch → after.Clean ip
  size : (after.inode ip).copy.size = size
  nlink : (after.inode ip).copy.nlink = (fs.inode ip).copy.nlink
  own : after.content (fs.inode ip).inum = bytes
  others : ∀ inum, inum ≠ (fs.inode ip).inum → after.content inum = fs.content inum

theorem Acted.done {size : Nat} {bytes : Nat → Byte} (acted : Acted origin ip fs size bytes after) : Done origin ip fs size bytes after :=
  ⟨acted.running, acted.keeps, fun watching => acted.agrees.clean (acted.running.sound watching).used, acted.size, acted.nlink,
    acted.own, acted.others⟩

/-- Work that changes no byte and leaves the inode as its dinode has it. -/
theorem Steady.done (steady : Steady origin ip fs after) (ends : after.Agrees ip ∨ after = fs) (clean : origin.watch → fs.Clean ip) :
    Done origin ip fs (fs.inode ip).copy.size (fs.content (fs.inode ip).inum) after := by
  refine ⟨steady.running, steady.keeps, fun watching => ?_, steady.size, steady.nlink, by rw [steady.content], fun _ _ => by rw [steady.content]⟩
  rcases ends with agrees | rfl
  · exact agrees.clean (steady.running.sound watching).used
  · exact clean watching

/-- Work on an inode between `begin_op` and `end_op`. -/
theorem AtRest.session {program : M α} {exit : Exit → FS → Prop} (rest : fs.AtRest origin) (live : fs.Live ip)
    (lockable : origin.roomy → fs.Lockable ip) (result : α → Nat → (Nat → Byte) → Prop)
    (stops : ∀ reason after, Stops origin reason after → exit reason after)
    (work : ∀ ready, ready.Running origin ip → ready.n_log_wrote = 0 → (origin.watch → ready.Clean ip) →
      (ready.inode ip).inum = (fs.inode ip).inum → (ready.inode ip).copy = fs.current (fs.inode ip).inum → ready.content = fs.content →
      Ensures program ready (fun value after => ∃ size bytes, result value size bytes ∧ Done origin ip ready size bytes after) exit) :
    Ensures (do
        beginOp
        ilock ip
        let value ← program
        iunlock ip
        endOp
        pure value) fs
      (fun value after => ∃ size bytes, result value size bytes ∧ Served origin ip fs size bytes after) exit := by
  refine Ensures.bind (rest.begins.mono (fun _ _ same => same) fun _ _ => False.elim) ?_
  rintro _ began ⟨opened, same, none, one⟩
  have live' : began.Live ip := by rwa [Live, same.inode, same.ninode]
  have lockable' : origin.roomy → began.Lockable ip := fun roomy => by
    obtain ⟨unlocked, kind⟩ := lockable roomy
    constructor
    · rw [same.inode]
      exact unlocked
    · rw [same.inode, same.dinode]
      exact kind
  refine Ensures.bind ((opened.locks live' lockable').mono (fun _ _ same => same) stops) ?_
  rintro _ ready ⟨running, fetched, clean⟩
  have table := opened.volume.table
  have inum : (ready.inode ip).inum = (fs.inode ip).inum := by rw [fetched.inum, same.inode]
  have copy : (ready.inode ip).copy = fs.current (fs.inode ip).inum := by rw [fetched.copy, same.inode, same.current]
  have content : ready.content = fs.content := by rw [fetched.content table live', same.content]
  refine Ensures.bind (work ready running (by rw [fetched.n_log_wrote, none]) clean inum copy content) ?_
  rintro value worked ⟨size, bytes, achieved, done⟩
  refine Ensures.bind (done.running.unlocks done.clean) ?_
  rintro _ unlocked ⟨opened', steady, free, -⟩
  have alone : unlocked.log.outstanding = 1 := by
    rw [steady.keeps.outstanding, done.keeps.outstanding, fetched.log, one]
  refine Ensures.bind ((opened'.ends alone).mono (fun _ _ same => same) fun _ _ => False.elim) ?_
  rintro _ after ⟨ended, same'⟩
  rw [ensures_pure]
  have frame : Frame ip fs after :=
    ((((same.frame ip).trans fetched.frame).trans done.keeps.frame).trans steady.keeps.frame).trans (same'.frame ip)
  have entry : after.inode ip = unlocked.inode ip := by rw [same'.inode]
  have keeps := done.keeps.trans steady.keeps
  refine ⟨size, bytes, achieved, ended, frame, ?_, (same'.loaded ip).mpr (keeps.loaded.mpr running.loaded), by rw [entry, free], ?_, ?_, ?_, ?_, fun inum' apart => ?_⟩
  · rw [entry, keeps.ref, fetched.ref, same.inode]
  · rw [entry, keeps.type, copy]
  · rw [entry, steady.nlink, done.nlink, copy]
  · rw [entry, steady.size, done.size]
  · rw [same'.content, steady.content, ← inum, done.own]
  · rw [same'.content, steady.content, done.others _ (by rw [inum]; exact apart), content]

end FS
end Myfuse
