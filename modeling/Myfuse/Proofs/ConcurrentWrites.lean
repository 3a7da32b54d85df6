import Myfuse.Proofs.CommitPoints
import Myfuse.Proofs.StretchEffects

/-! Many threads read and write one file, each stretch and each `begin_op` and `end_op`
a step. Writes of disjoint ranges end as if they came one after the other, whatever the
order of the steps, and what a crash leaves of each is a prefix. -/

namespace Myfuse
open Library Library.Exec

namespace FS
variable {origin : Origin} {fs after start : FS} {ip : Nat}

/-- What holds between two steps of any threads. -/
structure Shared (origin : Origin) (ip : Nat) (start fs : FS) : Prop where
  volume : fs.Volume origin
  committing : fs.log.committing = false
  logSize : fs.log.size = NLOG
  settled : origin.watch → fs.Settled origin
  live : fs.Live ip
  frame : Frame ip start fs
  others : ∀ inum, inum ≠ (start.inode ip).inum → fs.content inum = start.content inum
  agrees : origin.watch → fs.Loaded ip → fs.Agrees ip

/-- The file has the size and the bytes; the log and the disk are as before. -/
structure Holds (origin : Origin) (ip : Nat) (start fs : FS) (size : Nat) (bytes : Nat → Byte) (after : FS) : Prop where
  shared : Shared origin ip start after
  content : after.content (start.inode ip).inum = bytes
  fileSize : after.fileSize (start.inode ip).inum = size
  outstanding : after.log.outstanding = fs.log.outstanding
  device : after.device = fs.device

namespace Shared
variable (lenient : ¬ origin.bounded ∧ ¬ origin.roomy) (shared : Shared origin ip start fs)
include shared

/-- The disk and the table stay. -/
theorem unmoved (same : Unmoved fs after) (quiet : Quiet fs after) (committing : after.log.committing = false) (logSize : after.log.size = NLOG)
    (settled : origin.watch → after.Settled origin) : Shared origin ip start after where
  volume := same.volume shared.volume quiet
  committing := committing
  logSize := logSize
  settled := settled
  live := by
    rw [Live, same.inode, same.ninode]
    exact shared.live
  frame := shared.frame.trans (same.frame ip)
  others inum apart := by rw [same.content, shared.others inum apart]
  agrees watching loaded := (shared.agrees watching ((same.loaded ip).mp loaded)).congr same.sb same.store (by rw [same.inode]) (by rw [same.inode])
    (by rw [same.inode]) (by rw [same.inode]) (by rw [same.inode])

theorem begins : Ensures beginOp fs
    (fun _ after => Shared origin ip start after ∧ Unmoved fs after ∧ after.log.outstanding = fs.log.outstanding + 1 ∧ after.device = fs.device)
    fun _ _ => True := by
  apply (beginOp_moves fs).mono
  · intro _ after began
    obtain ⟨same, history, -, device, log⟩ := began
    refine ⟨shared.unmoved same (.one rfl history) (by rw [log, shared.committing]) (by rw [log, shared.logSize]) fun watching => ?_, same, by rw [log], device⟩
    have settled := shared.settled watching
    refine ⟨fun blockno changed => ?_, fun ip' loaded => same.clean (settled.clean ip' ((same.loaded ip').mp loaded)), ?_⟩
    · rw [same.store, device] at changed
      rw [log]
      exact settled.synced blockno changed
    · rw [same.sb, history]
      exact settled.commits
  · intros
    trivial

/-- The last operation that ends commits the whole store. -/
theorem ends : Ensures endOp fs
    (fun _ after => Shared origin ip start after ∧ Unmoved fs after ∧ after.log.outstanding = fs.log.outstanding - 1 ∧
      (fs.log.outstanding ≠ 1 ∧ after.device = fs.device ∨ fs.log.outstanding = 1 ∧ (origin.watch → after.device = fs.store)))
    fun _ _ => False := by
  apply (endOp_spec shared.committing).weaken
  intro _ after afterIs
  by_cases last : fs.log.outstanding = 1
  · rw [if_pos last] at afterIs
    subst afterIs
    have same : Unmoved fs fs.closed.afterCommit := ⟨rfl, rfl, rfl, rfl, rfl⟩
    have quiet : Quiet fs fs.closed.afterCommit := ⟨[.committed fs.committedDisk, .endOp], rfl, by simp [Event.isNeutral]⟩
    refine ⟨shared.unmoved same quiet shared.committing shared.logSize fun watching => ?_, same, rfl, .inr ⟨last, fun watching => ?_⟩⟩
    · have settled := shared.settled watching
      have disk := committedDisk_synced settled.synced
      refine ⟨fun blockno changed => absurd (congrFun disk blockno).symm changed,
        fun ip' loaded => same.clean (settled.clean ip' ((same.loaded ip').mp loaded)), ?_, settled.commits⟩
      intro _
      have consistent := settled_consistent shared.volume settled
      rw [← disk] at consistent
      exact consistent
    · exact committedDisk_synced (shared.settled watching).synced
  · rw [if_neg last] at afterIs
    subst afterIs
    have same : Unmoved fs fs.closed := ⟨rfl, rfl, rfl, rfl, rfl⟩
    refine ⟨shared.unmoved same (.one rfl rfl) shared.committing shared.logSize fun watching => ?_, same, rfl, .inl ⟨last, rfl⟩⟩
    have settled := shared.settled watching
    exact ⟨settled.synced, fun ip' loaded => same.clean (settled.clean ip' ((same.loaded ip').mp loaded)), settled.commits⟩

theorem opened (inOp : 1 ≤ fs.log.outstanding) (unroomy : ¬ origin.roomy) : fs.Open origin :=
  ⟨shared.volume, ⟨shared.committing, inOp, shared.logSize, fun roomy => absurd roomy unroomy, fun roomy => absurd roomy unroomy⟩, shared.settled⟩

/-- A thread's own counter comes with it. -/
theorem counter (n_log_wrote : Nat) : Shared origin ip start { fs with n_log_wrote } := by
  have same : Unmoved fs { fs with n_log_wrote } := ⟨rfl, rfl, rfl, rfl, rfl⟩
  apply shared.unmoved same (.refl fs) shared.committing shared.logSize
  intro watching
  have settled := shared.settled watching
  exact ⟨settled.synced, fun ip' loaded => same.clean (settled.clean ip' ((same.loaded ip').mp loaded)), settled.commits⟩

end Shared

/-- A locked entry agrees with its dinode when it did before or was read now. -/
theorem Fetched.agrees (fetched : Fetched ip fs after) (table : fs.TableOk) (live : fs.Live ip) (before : fs.Loaded ip → fs.Agrees ip) :
    after.Agrees ip := by
  cases valid : (fs.inode ip).valid with
  | true =>
    have copy := fetched.copy
    rw [current_loaded table ⟨live, valid⟩] at copy
    exact (before ⟨live, valid⟩).congr fetched.sb fetched.store fetched.inum (by rw [copy]) (by rw [copy]) (by rw [copy]) (by rw [copy])
  | false =>
    have dinode : after.dinode (after.inode ip).inum = fs.dinode (fs.inode ip).inum := by
      rw [fetched.inum]
      exact dinode_congr fetched.sb (by rw [fetched.store])
    have copy : (after.inode ip).copy = after.dinode (after.inode ip).inum := by
      rw [fetched.copy, dinode, FS.current, entryOf_absent table live valid]
    have whole : (after.inode ip).copy.size < 2 ^ 64 := by
      rw [copy]
      exact Bytes.field_lt _ _ 8
    exact ⟨by rw [copy], by rw [copy], by rw [sizeT_of_lt whole, copy], fun slot _ => by rw [copy]⟩

/-- The inode as a stretch finds it. -/
structure Readied (origin : Origin) (ip : Nat) (start fs ready : FS) : Prop where
  running : ready.Running origin ip
  inum : (ready.inode ip).inum = (start.inode ip).inum
  size : (ready.inode ip).copy.size = fs.fileSize (start.inode ip).inum
  content : ready.content = fs.content

/-- The inode as a stretch leaves it. -/
structure Left (origin : Origin) (ip : Nat) (ready : FS) (size : Nat) (bytes : Nat → Byte) (after : FS) : Prop where
  running : after.Running origin ip
  keeps : Keeps ip ready after
  size : (after.inode ip).copy.size = size
  own : after.content (ready.inode ip).inum = bytes
  others : ∀ inum, inum ≠ (ready.inode ip).inum → after.content inum = ready.content inum
  agrees : after.Agrees ip ∨ after = ready

theorem Acted.left {size : Nat} {bytes : Nat → Byte} (acted : Acted origin ip fs size bytes after) : Left origin ip fs size bytes after :=
  ⟨acted.running, acted.keeps, acted.size, acted.own, acted.others, .inl acted.agrees⟩

theorem Steady.left (steady : Steady origin ip fs after) (agrees : after.Agrees ip ∨ after = fs) :
    Left origin ip fs (fs.inode ip).copy.size (fs.content (fs.inode ip).inum) after :=
  ⟨steady.running, steady.keeps, steady.size, by rw [steady.content], fun _ _ => by rw [steady.content], agrees⟩

/-- A stretch from where the inode is locked to where it is unlocked. -/
theorem Shared.works {part : FilePart} (shared : Shared origin ip start fs) (ok : Stretch → Nat → (Nat → Byte) → Prop) (unroomy : ¬ origin.roomy)
    (inOp : 1 ≤ fs.log.outstanding) (n_log_wrote : Nat)
    (work : ∀ ready, Readied origin ip start fs ready → Ensures (stretch ip part) ready
      (fun stretch after => ∃ size bytes, ok stretch size bytes ∧ Left origin ip ready size bytes after) (Stops origin)) :
    Ensures (WriteThreads.works ip part n_log_wrote) fs
      (fun phase after => ∃ stretch wrote size bytes, phase = .closing stretch wrote ∧ ok stretch size bytes ∧ Holds origin ip start fs size bytes after)
      fun _ _ => True := by
  unfold WriteThreads.works
  rw [ensures_bind, ensures_modify]
  have counted := shared.counter n_log_wrote
  have opened := counted.opened inOp unroomy
  have table := counted.volume.table
  have live := counted.live
  have fetches := (opened.locks live fun roomy => absurd roomy unroomy).mono (fun _ _ same => same) fun _ _ _ => trivial
  apply Ensures.bind fetches
  intro _ ready locking
  obtain ⟨running, fetched, -⟩ := locking
  have inum : (ready.inode ip).inum = (start.inode ip).inum := fetched.inum.trans counted.frame.inum
  have readied : Readied origin ip start fs ready := by
    refine ⟨running, inum, ?_, fetched.content table live⟩
    rw [fetched.copy, counted.frame.inum]
    rfl
  obtain ⟨count, uses⟩ := stretch_uses ip part
  apply Ensures.bind (((work ready readied).mono (fun _ _ same => same) fun _ _ _ => trivial).and (uses ready) |>.mono (fun _ _ same => same) fun _ _ _ => trivial)
  intro stretched worked both
  obtain ⟨⟨size, bytes, good, left⟩, used, -⟩ := both
  have agrees : origin.watch → worked.Agrees ip := by
    intro watching
    cases left.agrees with
    | inl agrees => exact agrees
    | inr same =>
      rw [same]
      exact fetched.agrees table live (counted.agrees watching)
  have clean : origin.watch → worked.Clean ip := fun watching => (agrees watching).clean (left.running.sound watching).used
  have unlocks : Ensures (iunlock ip) worked (fun _ after => after.inode = assign worked.inode ip { worked.inode ip with locked := false })
      fun _ _ => True := (setLocked_spec left.running false).weaken fun _ _ set => set.2.2.1
  have opens : Ensures (iunlock ip) worked (fun _ after => after.Open origin ∧ Steady origin ip worked after ∧ after.store = worked.store)
      fun _ _ => True := (left.running.unlocks clean).weaken fun _ _ open' => ⟨open'.1, open'.2.1, open'.2.2.2⟩
  apply Ensures.bind ((opens.and unlocks).and (iunlock_uses ip worked) |>.mono (fun _ _ same => same) fun _ _ _ => trivial)
  intro _ unlocked both
  obtain ⟨⟨⟨opened', steady, store⟩, inode⟩, used', -⟩ := both
  have entry : (unlocked.inode ip).copy = (worked.inode ip).copy := by rw [inode, assign_self]
  rw [ensures_bind, ensures_get, ensures_pure]
  have keeps := left.keeps.trans steady.keeps
  have frame : Frame ip start unlocked := (counted.frame.trans fetched.frame).trans keeps.frame
  have loaded : unlocked.Loaded ip := keeps.loaded.mpr running.loaded
  refine ⟨stretched, _, size, bytes, rfl, good, ⟨⟨opened'.volume, opened'.op.committing, opened'.op.size, opened'.settled, loaded.1, frame, ?_, ?_⟩, ?_, ?_, ?_, ?_⟩⟩
  · intro inum' apart
    rw [steady.content, left.others inum' (by rw [inum]; exact apart), fetched.content table live]
    exact counted.others inum' apart
  · intro watching _
    exact (agrees watching).congr steady.keeps.sb store steady.keeps.inum (by rw [entry]) (by rw [entry]) (by rw [entry]) (by rw [entry])
  · rw [steady.content, ← inum, left.own]
  · rw [fileSize, ← frame.inum, current_loaded opened'.volume.table loaded, steady.size, left.size]
  · rw [used'.outstanding, used.outstanding, fetched.log]
  · rw [used'.device, used.device, fetched.device]

end FS

namespace FilePhase

/-- What is left of the call. -/
def rest : FilePhase → Stretch
  | .outside part | .opened part _ => .again part
  | .closing stretch _ => stretch
  | .returned answer => .done answer

/-- Between `begin_op` and `end_op`. -/
def inOp : FilePhase → Bool
  | .opened _ _ | .closing _ _ => true
  | .outside _ | .returned _ => false

end FilePhase

/-! Files in which several writes are under way. -/

namespace IoCall

/-- How many bytes of a call are laid down. -/
def laid : IoCall → Stretch → Nat
  | .write data _, stretch => stretch.laid data.length
  | .read _ _, _ => 0

def sizeAfter (size : Nat) : IoCall → Nat
  | .write data off => max size (off + data.length)
  | .read _ _ => size

def bytesAfter (bytes : Nat → Byte) : IoCall → Nat → Byte
  | .write data off => overlay bytes off data
  | .read _ _ => bytes

end IoCall

section
variable {Thread : Type} (calls : Thread → IoCall)

/-- The ranges written are apart and below the limit of a file. -/
structure Apart : Prop where
  disjoint : ∀ thread other data off data' off', thread ≠ other → calls thread = .write data off → calls other = .write data' off' →
    off + data.length ≤ off' ∨ off' + data'.length ≤ off
  fits : ∀ thread data off, calls thread = .write data off → off + data.length ≤ MAXFILE_SIZE

/-- Of each write the first bytes are laid down. -/
structure Laid (initial : Nat → Byte) (laid : Thread → Nat) (bytes : Nat → Byte) : Prop where
  own : ∀ thread data off, calls thread = .write data off → ∀ p, off ≤ p → p < off + laid thread → bytes p = data.getD (p - off) 0
  kept : ∀ p, (∀ thread data off, calls thread = .write data off → ¬ (off ≤ p ∧ p < off + laid thread)) → bytes p = initial p

/-- The size covers the writes that have set it. -/
structure Extended (initial : Nat) (sized : Thread → Prop) (size : Nat) : Prop where
  least : initial ≤ size
  ends : ∀ thread data off, calls thread = .write data off → sized thread → off + data.length ≤ size
  reached : size = initial ∨ ∃ thread data off, calls thread = .write data off ∧ sized thread ∧ size = off + data.length

/-- A byte that was there, or one of a write over its place. -/
def Seen (initial : Nat → Byte) (p : Nat) (value : Byte) : Prop :=
  value = initial p ∨ ∃ thread data off, calls thread = .write data off ∧ off ≤ p ∧ p < off + data.length ∧ value = data.getD (p - off) 0

variable {calls} {initial bytes : Nat → Byte} {laid laid' : Thread → Nat} {thread : Thread} {data : List Byte} {off : Nat}

/-- The next bytes of one write. -/
theorem Laid.advance (apart : Apart calls) (before : Laid calls initial laid bytes) (call : calls thread = .write data off)
    (more : laid thread ≤ laid' thread) (inside : laid' thread ≤ data.length) (others : ∀ other, other ≠ thread → laid' other = laid other)
    (within : ∀ other data off, calls other = .write data off → laid other ≤ data.length) :
    Laid calls initial laid' (laidOver bytes off data (laid thread) (laid' thread)) where
  own other data' off' call' p low high := by
    unfold laidOver
    by_cases here : other = thread
    · subst here
      rw [call] at call'
      cases call'
      split
      next => rfl
      next outside => exact before.own other data off call p low (by omega)
    · rw [others other here] at high
      have bounded := within other data' off' call'
      have ranges := apart.disjoint thread other data off data' off' (Ne.symm here) call call'
      rw [if_neg (by omega)]
      exact before.own other data' off' call' p low high
  kept p outside := by
    have own := outside thread data off call
    unfold laidOver
    rw [if_neg (by omega)]
    apply before.kept
    intro other data' off' call' covered
    by_cases here : other = thread
    · subst here
      rw [call] at call'
      cases call'
      omega
    · have free := outside other data' off' call'
      rw [others other here] at free
      exact free covered

/-- One more write has set the size, or the one that had goes on. -/
theorem Extended.advance {before sized : Nat} {sets sets' : Thread → Prop} (extended : Extended calls before sets sized)
    (call : calls thread = .write data off) (set : sets' thread) (others : ∀ other, other ≠ thread → (sets' other ↔ sets other)) :
    Extended calls before sets' (max sized (off + data.length)) where
  least := Nat.le_trans extended.least (Nat.le_max_left _ _)
  ends other data' off' call' does := by
    by_cases here : other = thread
    · subst here
      rw [call] at call'
      cases call'
      exact Nat.le_max_right _ _
    · exact Nat.le_trans (extended.ends other data' off' call' ((others other here).mp does)) (Nat.le_max_left _ _)
  reached := by
    by_cases longer : sized ≤ off + data.length
    · exact .inr ⟨thread, data, off, call, set, Nat.max_eq_right longer⟩
    · rw [Nat.max_eq_left (by omega)]
      cases extended.reached with
      | inl same => exact .inl same
      | inr last =>
        obtain ⟨other, data', off', call', does, size⟩ := last
        refine .inr ⟨other, data', off', call', ?_, size⟩
        by_cases here : other = thread
        · rw [here]
          exact set
        · exact (others other here).mpr does

theorem Laid.seen (here : Laid calls initial laid bytes) (within : ∀ other data off, calls other = .write data off → laid other ≤ data.length)
    (p : Nat) : Seen calls initial p (bytes p) := by
  by_cases covered : ∃ thread data off, calls thread = .write data off ∧ off ≤ p ∧ p < off + laid thread
  · obtain ⟨thread, data, off, call, low, high⟩ := covered
    have bounded := within thread data off call
    exact .inr ⟨thread, data, off, call, low, by omega, here.own thread data off call p low high⟩
  · apply Or.inl
    apply here.kept
    intro thread data off call inside
    exact covered ⟨thread, data, off, call, inside⟩

end

/-- A stretch of a write has set the size and laid down the next bytes. -/
structure WroteOn (data : List Byte) (off : Nat) (before : Stretch) (size : Nat) (bytes : Nat → Byte) (stretch : Stretch) (size' : Nat)
    (bytes' : Nat → Byte) : Prop where
  place : WriteAt data off stretch
  sized : stretch.sized = true
  more : before.laid data.length ≤ stretch.laid data.length
  size : size' = if before.sized then size else max size (off + data.length)
  bytes : bytes' = laidOver bytes off data (before.laid data.length) (stretch.laid data.length)

/-- A call is at one of its places. -/
def Placed {Thread : Type} (calls : Thread → IoCall) (initial : Nat → Byte) (limit : Nat) : IoCall → Stretch → Prop
  | .write data off => WriteAt data off
  | .read nbytes off => ReadAt (Seen calls initial) limit nbytes off

namespace WriteThreads
variable {Thread : Type} [DecidableEq Thread] {origin : Origin} {ip : Nat} {calls : Thread → IoCall} {start fs after : FS}
  {phase : Thread → FilePhase} {thread : Thread}

/-- What every step of any thread keeps. -/
structure Going (origin : Origin) (ip : Nat) (calls : Thread → IoCall) (start fs : FS) (phase : Thread → FilePhase) : Prop where
  shared : FS.Shared origin ip start fs
  places : ∀ thread, Placed calls (start.content (start.inode ip).inum) (start.fileSize (start.inode ip).inum) (calls thread) (phase thread).rest
  laid : Laid calls (start.content (start.inode ip).inum) (fun thread => (calls thread).laid (phase thread).rest)
    (fs.content (start.inode ip).inum)
  size : Extended calls (start.fileSize (start.inode ip).inum) (fun thread => (phase thread).rest.sized = true)
    (fs.fileSize (start.inode ip).inum)
  opened : ∃ opened : List Thread, opened.Nodup ∧ (∀ thread, thread ∈ opened ↔ (phase thread).inOp = true) ∧
    fs.log.outstanding = opened.length

namespace Going

omit [DecidableEq Thread] in
theorem opened_inOp {part : FilePart} {n_log_wrote : Nat} (place : phase thread = .opened part n_log_wrote) : (phase thread).inOp = true := by
  rw [place]
  rfl

variable (going : Going origin ip calls start fs phase)
include going

omit [DecidableEq Thread] in
theorem within (thread : Thread) (data : List Byte) (off : Nat) (call : calls thread = .write data off) :
    (calls thread).laid (phase thread).rest ≤ data.length := by
  have place := going.places thread
  rw [call] at place ⊢
  exact WriteAt.laid_le place

omit [DecidableEq Thread] in
/-- A thread inside is counted. -/
theorem counted (inside : (phase thread).inOp = true) : 1 ≤ fs.log.outstanding := by
  obtain ⟨opened, -, members, outstanding⟩ := going.opened
  have some := List.length_pos_of_mem ((members thread).mpr inside)
  omega

/-- A step in which the call stays where it is. -/
theorem stays {here : FilePhase} (same : here.rest = (phase thread).rest) (shared : FS.Shared origin ip start after)
    (unmoved : FS.Unmoved fs after)
    (opened : ∃ opened : List Thread, opened.Nodup ∧ (∀ other, other ∈ opened ↔ (assign phase thread here other).inOp = true) ∧
      after.log.outstanding = opened.length) :
    Going origin ip calls start after (assign phase thread here) := by
  have rests : ∀ other, (assign phase thread here other).rest = (phase other).rest := by
    intro other
    by_cases self : other = thread
    · rw [self, assign_self, same]
    · rw [assign_of_ne self]
  refine ⟨shared, fun other => ?_, ?_, ?_, opened⟩
  · rw [rests]
    exact going.places other
  · simp only [rests, unmoved.content]
    exact going.laid
  · have fileSize : after.fileSize (start.inode ip).inum = fs.fileSize (start.inode ip).inum := by
      unfold FS.fileSize
      rw [unmoved.current]
    simp only [rests, fileSize]
    exact going.size

/-- The same threads are inside. -/
theorem opened_same {here : FilePhase} (same : here.inOp = (phase thread).inOp) (outstanding : after.log.outstanding = fs.log.outstanding) :
    ∃ opened : List Thread, opened.Nodup ∧ (∀ other, other ∈ opened ↔ (assign phase thread here other).inOp = true) ∧
      after.log.outstanding = opened.length := by
  obtain ⟨opened, distinct, members, count⟩ := going.opened
  refine ⟨opened, distinct, fun other => ?_, by rw [outstanding, count]⟩
  rw [members]
  by_cases self : other = thread
  · rw [self, assign_self, same]
  · rw [assign_of_ne self]

variable (lenient : ¬ origin.bounded ∧ ¬ origin.roomy)
include lenient

/-- A stretch of a write. -/
theorem writes (apart : Apart calls) {part : FilePart} {n_log_wrote : Nat} (place : phase thread = .opened part n_log_wrote)
    {data : List Byte} {off : Nat} (call : calls thread = .write data off) :
    Ensures (works ip part n_log_wrote) fs
      (fun here after => Going origin ip calls start after (assign phase thread here) ∧ after.log.outstanding = fs.log.outstanding ∧
        after.device = fs.device ∧ ∀ other, (calls other).laid (phase other).rest ≤ (calls other).laid (assign phase thread here other).rest)
      fun _ _ => True := by
  have here := going.places thread
  rw [place, call] at here
  have placed : WriteAt data off (.again part) := here
  have space := apart.fits thread data off call
  apply (going.shared.works (WroteOn data off (.again part) (fs.fileSize (start.inode ip).inum) (fs.content (start.inode ip).inum))
    lenient.2 (going.counted (opened_inOp place)) n_log_wrote ?_).weaken
  · intro here after both
    obtain ⟨stretch, wrote, size, bytes, rfl, wroteOn, holds⟩ := both
    have before : (calls thread).laid (phase thread).rest = (Stretch.again part).laid data.length := by
      rw [place, call]
      rfl
    have behind : (calls thread).laid (assign phase thread (.closing stretch wrote) thread).rest = stretch.laid data.length := by
      rw [assign_self, call]
      rfl
    have others : ∀ other, other ≠ thread → assign phase thread (.closing stretch wrote) other = phase other :=
      fun other apart => assign_of_ne apart _ _
    have grows : ∀ other, (calls other).laid (phase other).rest ≤ (calls other).laid (assign phase thread (.closing stretch wrote) other).rest := by
      intro other
      by_cases self : other = thread
      · rw [self, before, behind]
        exact wroteOn.more
      · rw [others other self]
    refine ⟨⟨holds.shared, fun other => ?_, ?_, ?_, ?_⟩, holds.outstanding, holds.device, grows⟩
    · by_cases self : other = thread
      · rw [self, assign_self, call]
        exact wroteOn.place
      · rw [others other self]
        exact going.places other
    · have advanced : Laid calls _ (fun other => (calls other).laid (assign phase thread (.closing stretch wrote) other).rest) _ :=
        going.laid.advance apart call (grows thread) (by rw [behind]; exact wroteOn.place.laid_le)
          (fun other apart => by rw [others other apart]) going.within
      rw [before, behind] at advanced
      rw [holds.content, wroteOn.bytes]
      exact advanced
    · have sets : (assign phase thread (.closing stretch wrote) thread).rest.sized = true := by
        rw [assign_self]
        exact wroteOn.sized
      rw [holds.fileSize, wroteOn.size]
      split
      next was =>
        have same : ∀ other, (assign phase thread (.closing stretch wrote) other).rest.sized = (phase other).rest.sized := by
          intro other
          by_cases self : other = thread
          · rw [self, sets, place]
            exact was.symm
          · rw [others other self]
        simp only [same]
        exact going.size
      next =>
        apply going.size.advance call sets
        intro other apart
        rw [others other apart]
    · exact going.opened_same (by rw [place]; rfl) holds.outstanding
  · intro ready readied
    apply (FS.stretch_write lenient readied.running placed space).weaken
    intro stretch after advanced
    obtain ⟨placed', sized, more, acted⟩ := advanced
    rw [readied.size, readied.inum, readied.content] at acted
    exact ⟨_, _, ⟨placed', sized, more, rfl, rfl⟩, acted.left⟩

/-- A stretch of a read. -/
theorem reads (space : start.fileSize (start.inode ip).inum < 2 ^ 64) {part : FilePart} {n_log_wrote : Nat}
    (place : phase thread = .opened part n_log_wrote) {nbytes off : Nat} (call : calls thread = .read nbytes off) :
    Ensures (works ip part n_log_wrote) fs
      (fun here after => Going origin ip calls start after (assign phase thread here) ∧ after.log.outstanding = fs.log.outstanding ∧
        after.device = fs.device ∧ ∀ other, (calls other).laid (phase other).rest ≤ (calls other).laid (assign phase thread here other).rest)
      fun _ _ => True := by
  have here := going.places thread
  rw [place, call] at here
  have placed : ReadAt (Seen calls (start.content (start.inode ip).inum)) (start.fileSize (start.inode ip).inum) nbytes off (.again part) := here
  apply (going.shared.works (fun stretch size bytes =>
      ReadAt (Seen calls (start.content (start.inode ip).inum)) (start.fileSize (start.inode ip).inum) nbytes off stretch ∧
      size = fs.fileSize (start.inode ip).inum ∧ bytes = fs.content (start.inode ip).inum)
    lenient.2 (going.counted (opened_inOp place)) n_log_wrote ?_).weaken
  · intro here after both
    obtain ⟨stretch, wrote, size, bytes, rfl, ⟨placed', rfl, rfl⟩, holds⟩ := both
    have others : ∀ other, other ≠ thread → assign phase thread (.closing stretch wrote) other = phase other :=
      fun other apart => assign_of_ne apart _ _
    have laid : ∀ other, (calls other).laid (assign phase thread (.closing stretch wrote) other).rest = (calls other).laid (phase other).rest := by
      intro other
      by_cases self : other = thread
      · rw [self, call]
        rfl
      · rw [others other self]
    have writers : ∀ other data off, calls other = .write data off → assign phase thread (.closing stretch wrote) other = phase other := by
      intro other data off call'
      apply others
      rintro rfl
      rw [call] at call'
      cases call'
    refine ⟨⟨holds.shared, fun other => ?_, ?_, ?_, ?_⟩, holds.outstanding, holds.device, fun other => Nat.le_of_eq (laid other).symm⟩
    · by_cases self : other = thread
      · rw [self, assign_self, call]
        exact placed'
      · rw [others other self]
        exact going.places other
    · simp only [laid, holds.content]
      exact going.laid
    · rw [holds.fileSize]
      refine ⟨going.size.least, fun other data off call' sized => ?_, ?_⟩
      · rw [writers other data off call'] at sized
        exact going.size.ends other data off call' sized
      · apply going.size.reached.imp id
        intro last
        obtain ⟨other, data, off, call', sized, size⟩ := last
        exact ⟨other, data, off, call', by rw [writers other data off call']; exact sized, size⟩
    · exact going.opened_same (by rw [place]; rfl) holds.outstanding
  · intro ready readied
    have seen := going.laid.seen going.within
    apply (FS.stretch_read lenient readied.running placed ?_ (by rw [readied.size]; exact going.size.least) space).weaken
    · intro stretch after both
      obtain ⟨steady, agrees, placed'⟩ := both
      have left := steady.left agrees
      rw [readied.size, readied.inum, readied.content] at left
      exact ⟨_, _, ⟨placed', rfl, rfl⟩, left⟩
    · intro p
      rw [readied.inum, readied.content]
      exact seen p

omit lenient in
/-- A thread begins its operation. -/
theorem begins {part : FilePart} (place : phase thread = .outside part) : Ensures (opens part) fs
    (fun here after => Going origin ip calls start after (assign phase thread here) ∧ after.log.outstanding = fs.log.outstanding + 1 ∧
      after.device = fs.device ∧ ∀ other, (calls other).laid (phase other).rest ≤ (calls other).laid (assign phase thread here other).rest)
    fun _ _ => True := by
  unfold opens
  apply Ensures.bind going.shared.begins
  intro _ after began
  obtain ⟨shared, unmoved, outstanding, device⟩ := began
  rw [ensures_bind, ensures_get, ensures_pure]
  have same : (FilePhase.opened part after.n_log_wrote).rest = (phase thread).rest := by
    rw [place]
    rfl
  refine ⟨going.stays same shared unmoved ?_, outstanding, device, fun other => ?_⟩
  · obtain ⟨opened, distinct, members, count⟩ := going.opened
    have fresh : thread ∉ opened := by
      intro inside
      have inOp := (members thread).mp inside
      rw [place] at inOp
      cases inOp
    refine ⟨thread :: opened, List.nodup_cons.mpr ⟨fresh, distinct⟩, fun other => ?_, ?_⟩
    · rw [List.mem_cons]
      by_cases self : other = thread
      · rw [self, assign_self]
        exact ⟨fun _ => rfl, fun _ => .inl rfl⟩
      · rw [assign_of_ne self, members]
        exact ⟨fun either => either.resolve_left self, .inr⟩
    · rw [outstanding, count, List.length_cons]
      rfl
  · by_cases self : other = thread
    · rw [self, assign_self, same]
    · rw [assign_of_ne self]

omit [DecidableEq Thread] going lenient in
theorem outsideAfter_rest (stretch : Stretch) : (outsideAfter stretch).rest = stretch := by
  cases stretch <;> rfl

omit [DecidableEq Thread] going lenient in
theorem outsideAfter_inOp (stretch : Stretch) : (outsideAfter stretch).inOp = false := by
  cases stretch <;> rfl

omit lenient in
/-- A thread ends its operation; the last one commits the store. -/
theorem ends {stretch : Stretch} {n_log_wrote : Nat} (place : phase thread = .closing stretch n_log_wrote) : Ensures (closes stretch n_log_wrote) fs
    (fun here after => Going origin ip calls start after (assign phase thread here) ∧ after.log.outstanding = fs.log.outstanding - 1 ∧
      FS.Unmoved fs after ∧
      (fs.log.outstanding ≠ 1 ∧ after.device = fs.device ∨ fs.log.outstanding = 1 ∧ (origin.watch → after.device = fs.store)) ∧
      ∀ other, (calls other).laid (assign phase thread here other).rest = (calls other).laid (phase other).rest)
    fun _ _ => True := by
  unfold closes
  rw [ensures_bind, ensures_modify]
  apply Ensures.bind ((going.shared.counter n_log_wrote).ends.mono (fun _ _ same => same) fun _ _ _ => trivial)
  intro _ after ended
  obtain ⟨shared, unmoved, outstanding, device⟩ := ended
  rw [ensures_pure]
  have unmoved : FS.Unmoved fs after := ⟨unmoved.sb, unmoved.store, unmoved.inode, unmoved.ninode, unmoved.bmap⟩
  have same : (outsideAfter stretch).rest = (phase thread).rest := by
    rw [outsideAfter_rest, place]
    rfl
  refine ⟨going.stays same shared unmoved ?_, outstanding, unmoved, device, fun other => ?_⟩
  · obtain ⟨opened, distinct, members, count⟩ := going.opened
    have inside : thread ∈ opened := by
      rw [members, place]
      rfl
    refine ⟨opened.erase thread, distinct.erase thread, fun other => ?_, ?_⟩
    · rw [distinct.mem_erase_iff]
      by_cases self : other = thread
      · rw [self, assign_self, outsideAfter_inOp]
        exact ⟨fun both => absurd rfl both.1, fun none => by cases none⟩
      · rw [assign_of_ne self, members]
        exact ⟨fun both => both.2, fun inOp => ⟨self, inOp⟩⟩
    · have some := List.length_pos_of_mem inside
      have fewer := List.length_erase_of_mem inside
      have before : fs.log.outstanding = opened.length := count
      have behind : after.log.outstanding = fs.log.outstanding - 1 := outstanding
      omega
  · by_cases self : other = thread
    · rw [self, assign_self, same]
    · rw [assign_of_ne self]

end Going
end WriteThreads

/-! What is on the disk. -/

/-- Byte `p` of a file as an image holds it. -/
def imageContent (sb : Superblock) (disk : Nat → Block) (inum p : Nat) : Byte :=
  if imageHeld sb disk inum (pathOf (p / BSIZE)) = 0 then 0 else (disk (imageHeld sb disk inum (pathOf (p / BSIZE)))).byte (p % BSIZE)

def imageDinode (sb : Superblock) (disk : Nat → Block) (inum : Nat) : Dinode := Dinode.read (disk (sb.iblock inum)) (Dinode.offsetOf inum)

/-- A consistent image in which of each write the first bytes are laid down, and the other files are as at the start. -/
structure Imaged {Thread : Type} (origin : Origin) (ip : Nat) (calls : Thread → IoCall) (start : FS) (laid : Thread → Nat) (disk : Nat → Block) :
    Prop where
  consistent : Consistent origin.lost start.sb disk
  own : Laid calls (start.content (start.inode ip).inum) laid (imageContent start.sb disk (start.inode ip).inum)
  size : ∃ sets : Thread → Prop, (∀ thread, 0 < laid thread → sets thread) ∧
    Extended calls (start.fileSize (start.inode ip).inum) sets (imageDinode start.sb disk (start.inode ip).inum).size
  others : ∀ inum, inum ≠ (start.inode ip).inum → imageContent start.sb disk inum = start.content inum
  dinodes : ∀ inum < start.sb.ninodes, inum ≠ (start.inode ip).inum → imageDinode start.sb disk inum = start.dinode inum

namespace FS
variable {origin : Origin} {fs start : FS} {ip : Nat}

/-- A store in which every entry is clean holds the files. -/
theorem imageContent_of_clean (clean : ∀ ip, fs.Loaded ip → fs.Clean ip) : imageContent fs.sb fs.store = fs.content := by
  funext inum p
  unfold imageContent
  rw [imageHeld_of_clean clean]
  rfl

theorem Shared.image_size (shared : Shared origin ip start fs) (watching : origin.watch)
    (space : fs.fileSize (start.inode ip).inum < 2 ^ 64) :
    (imageDinode fs.sb fs.store (start.inode ip).inum).size = fs.fileSize (start.inode ip).inum := by
  have inum := shared.frame.inum
  unfold fileSize at space ⊢
  rw [← inum] at space ⊢
  cases valid : (fs.inode ip).valid with
  | true =>
    have loaded : fs.Loaded ip := ⟨shared.live, valid⟩
    have agrees := (shared.agrees watching loaded).size
    rw [current_loaded shared.volume.table loaded] at space ⊢
    rw [sizeT_of_lt space] at agrees
    exact agrees
  | false =>
    rw [FS.current, entryOf_absent shared.volume.table shared.live valid]
    rfl

end FS

namespace WriteThreads
variable {Thread : Type} [DecidableEq Thread] {origin : Origin} {ip : Nat} {calls : Thread → IoCall} {start fs after : FS}
  {phase : Thread → FilePhase} {thread : Thread}

/-- The disk holds a prefix of each write, and all of it that is laid down when no operation is open. -/
def Durable (origin : Origin) (ip : Nat) (calls : Thread → IoCall) (start fs : FS) (phase : Thread → FilePhase) : Prop :=
  ∃ laid : Thread → Nat, (∀ thread, laid thread ≤ (calls thread).laid (phase thread).rest) ∧ Imaged origin ip calls start laid fs.device ∧
    (fs.log.outstanding = 0 → ∀ thread, laid thread = (calls thread).laid (phase thread).rest)

omit [DecidableEq Thread] in
/-- The store holds what is laid down. -/
theorem Going.image (going : Going origin ip calls start fs phase) (apart : Apart calls) (watching : origin.watch)
    (space : start.fileSize (start.inode ip).inum < 2 ^ 64) :
    Imaged origin ip calls start (fun thread => (calls thread).laid (phase thread).rest) fs.store := by
  have shared := going.shared
  have settled := shared.settled watching
  have sb := shared.frame.sb
  have content : imageContent start.sb fs.store = fs.content := by
    rw [← sb]
    exact FS.imageContent_of_clean settled.clean
  have fits : fs.fileSize (start.inode ip).inum < 2 ^ 64 := by
    cases going.size.reached with
    | inl same => rw [same]; exact space
    | inr last =>
      obtain ⟨other, data, off, call, -, size⟩ := last
      have limit : MAXFILE_SIZE < 2 ^ 64 := by decide
      have := apart.fits other data off call
      omega
  refine ⟨?_, ?_, ⟨fun thread => (phase thread).rest.sized = true, fun thread some => ?_, ?_⟩, ?_, ?_⟩
  · rw [← sb]
    exact FS.settled_consistent shared.volume settled
  · rw [content]
    exact going.laid
  · have place := going.places thread
    cases call : calls thread with
    | write data off =>
      rw [call] at some place
      exact WriteAt.sized place some
    | read nbytes off =>
      rw [call] at some
      exact absurd some (Nat.lt_irrefl 0)
  · rw [← sb, shared.image_size watching fits]
    exact going.size
  · intro inum apart
    rw [content]
    exact shared.others inum apart
  · intro inum inside apart
    have dinode := shared.frame.dinodes inum inside apart
    rw [← dinode, ← sb]
    rfl

omit [DecidableEq Thread] in
/-- A step that leaves the disk and an operation open. -/
theorem Durable.kept {phase' : Thread → FilePhase} (durable : Durable origin ip calls start fs phase) (device : after.device = fs.device)
    (grows : ∀ thread, (calls thread).laid (phase thread).rest ≤ (calls thread).laid (phase' thread).rest) (busy : after.log.outstanding ≠ 0) :
    Durable origin ip calls start after phase' := by
  obtain ⟨laid, below, imaged, -⟩ := durable
  refine ⟨laid, fun thread => Nat.le_trans (below thread) (grows thread), ?_, fun idle => absurd idle busy⟩
  rw [device]
  exact imaged

/-- What holds between two steps, and of the disk when it is watched. -/
def Sound (origin : Origin) (ip : Nat) (calls : Thread → IoCall) (start fs : FS) (phase : Thread → FilePhase) : Prop :=
  Going origin ip calls start fs phase ∧ (origin.watch → Durable origin ip calls start fs phase)

/-- One step of any thread. -/
theorem Sound.next (lenient : ¬ origin.bounded ∧ ¬ origin.roomy) (apart : Apart calls) (space : start.fileSize (start.inode ip).inum < 2 ^ 64)
    (sound : Sound origin ip calls start fs phase) (thread : Thread) :
    Ensures (WriteThreads.next ip (phase thread)) fs (fun here after => Sound origin ip calls start after (assign phase thread here))
      fun _ _ => True := by
  obtain ⟨going, durable⟩ := sound
  cases place : phase thread with
  | outside part =>
    apply (going.begins place).weaken
    intro here after began
    obtain ⟨going', outstanding, device, grows⟩ := began
    refine ⟨going', fun watching => (durable watching).kept device grows ?_⟩
    obtain ⟨opened, -, -, count⟩ := going.opened
    omega
  | opened part n_log_wrote =>
    have busy := going.counted (Going.opened_inOp place)
    cases call : calls thread with
    | write data off =>
      apply (going.writes lenient apart place call).weaken
      intro here after wrote
      obtain ⟨going', outstanding, device, grows⟩ := wrote
      exact ⟨going', fun watching => (durable watching).kept device grows (by omega)⟩
    | read nbytes off =>
      apply (going.reads lenient space place call).weaken
      intro here after read
      obtain ⟨going', outstanding, device, grows⟩ := read
      exact ⟨going', fun watching => (durable watching).kept device grows (by omega)⟩
  | closing stretch n_log_wrote =>
    have busy : 1 ≤ fs.log.outstanding := by
      apply going.counted
      rw [place]
      rfl
    apply (going.ends place).weaken
    intro here after ended
    obtain ⟨going', outstanding, unmoved, disk, same⟩ := ended
    refine ⟨going', fun watching => ?_⟩
    cases disk with
    | inl more => exact (durable watching).kept more.2 (fun other => Nat.le_of_eq (same other).symm) (by omega)
    | inr last =>
      refine ⟨fun thread => (calls thread).laid (phase thread).rest, fun other => Nat.le_of_eq (same other).symm, ?_, fun _ other => (same other).symm⟩
      rw [last.2 watching]
      exact going.image apart watching space
  | returned answer =>
    have same : assign phase thread (.returned answer) = phase := by
      funext other
      by_cases self : other = thread
      · rw [self, assign_self, place]
      · rw [assign_of_ne self]
    change Ensures (pure (.returned answer) : M FilePhase) fs _ _
    rw [ensures_pure, same]
    exact ⟨going, durable⟩

omit [DecidableEq Thread] in
/-- The threads are about to make their calls. -/
theorem Going.initial (rest : start.AtRest origin) (live : start.Live ip) (agrees : origin.watch → start.Loaded ip → start.Agrees ip) :
    Going origin ip calls start start (begun start calls).phase := by
  refine ⟨⟨rest.volume, rest.idle.committing, rest.idle.size, rest.settled, live, FS.Unmoved.frame ⟨rfl, rfl, rfl, rfl, rfl⟩ ip, fun _ _ => rfl, agrees⟩,
    fun thread => ?_, ⟨?_, fun _ _ => rfl⟩, ⟨Nat.le_refl _, ?_, .inl rfl⟩, [], .nil, fun thread => ?_, rest.idle.outstanding⟩
  · cases call : calls thread <;> simp only [begun, call, IoCall.part, FilePhase.rest]
    · exact WriteAt.start
    · exact ReadAt.start
  · intro thread data off call p low high
    simp only [begun, call, IoCall.part, FilePhase.rest, IoCall.laid, Stretch.laid] at high
    omega
  · intro thread data off call sized
    simp only [begun, call, IoCall.part, FilePhase.rest, Stretch.sized] at sized
    cases sized
  · constructor
    · intro none
      cases none
    · intro none
      cases none

/-- The runs of any threads in any order. -/
theorem Runs.sound {state : WriteThreads Thread} (runs : Runs ip (begun start calls) state) (lenient : ¬ origin.bounded ∧ ¬ origin.roomy)
    (apart : Apart calls) (space : start.fileSize (start.inode ip).inum < 2 ^ 64)
    (begins : Sound origin ip calls start start (begun start calls).phase) : Sound origin ip calls start state.fs state.phase := by
  induction runs with
  | nil => exact begins
  | @step state after thread _ stepped ih =>
    unfold WriteThreads.step at stepped
    split at stepped
    next phase fs ran =>
      cases stepped
      exact (ih.next lenient apart space thread).returned ran
    next => cases stepped

end WriteThreads
end Myfuse
