import Myfuse.FuseCall
import Myfuse.Proofs.FileTable
import Myfuse.Proofs.WellFormed

/-! The offsets of open files. `filealloc` hands an entry out with the offset it was
released with, and `myfuse_lseek` checks nothing. -/

namespace Myfuse
open Library Library.Exec

/-- An offset for a handle. -/
def Within (off : Int) : Prop := 0 ≤ off ∧ off < 2 ^ 63

theorem within_zero : Within 0 := ⟨Int.le_refl 0, by decide⟩

/-- The calls on handles. -/
inductive HandleCall where
  | openFile (path : List Byte) (fi : FuseFileInfo)
  | create (path : List Byte) (mode : Nat) (fi : FuseFileInfo)
  | lseek (off : OffT) (whence : Int) (fi : FuseFileInfo)
  | release (fi : Option FuseFileInfo)

namespace HandleCall
open FS

def run : HandleCall → M (Int × Option Nat)
  | openFile path fi => (FuseCall.openFile path fi).run
  | create path mode fi => (FuseCall.create path mode fi).run
  | lseek off whence fi => do
    let result ← myfuseLseek off whence fi
    pure (result, none)
  | release fi => (FuseCall.release fi).run

end HandleCall

namespace FS
variable {start fs middle after : FS} {f ip : Nat}

/-- The entry that `filealloc` takes, unless the table has to grow. -/
def freeFile (fs : FS) : Option Nat := (List.range fs.nfile).find? fun f => (fs.files f).ref = 0

/-- The size of the inode once it is locked. -/
def lockedSize (fs : FS) (ip : Nat) : Nat := if (fs.inode ip).valid then (fs.inode ip).copy.size else (fs.dinode (fs.inode ip).inum).size

/-- Where a seek is to go. -/
def seekGoal (fs : FS) (f ip : Nat) (off whence : Int) : Option Int :=
  if whence = SEEK_SET then some off
  else if whence = SEEK_CUR then some ((fs.files f).off + off)
  else if whence = SEEK_END then some (fs.lockedSize ip + off)
  else none

/-- The table is not empty, and its offsets are in range. -/
structure OffsetsWithin (fs : FS) : Prop where
  size : 0 < fs.nfile
  within : ∀ f, Within (fs.files f).off

theorem fileInit_within (fs : FS) : Ensures fileInit fs (fun _ => OffsetsWithin) fun _ _ => False :=
  (ensures_modify _).mpr ⟨Nat.succ_pos 49, fun _ => within_zero⟩

/-! Handles given out. -/

structure SameOffsets (fs after : FS) : Prop where
  size : after.nfile = fs.nfile
  off : ∀ f, (after.files f).off = (fs.files f).off

theorem SameOffsets.trans (head : SameOffsets fs middle) (tail : SameOffsets middle after) : SameOffsets fs after :=
  ⟨tail.size.trans head.size, fun f => (tail.off f).trans (head.off f)⟩

theorem TableKept.offsets {α : Type} {program : M α} (kept : TableKept program) (fs : FS) :
    Ensures program fs (fun _ => SameOffsets fs) fun _ _ => True :=
  (kept fs).weaken fun _ _ same => ⟨same.2, fun f => by rw [same.1]⟩

theorem modifyFile_offsets {change : File → File} (same : ∀ file, (change file).off = file.off) (fs : FS) :
    Ensures (modifyFile f change) fs (fun _ => SameOffsets fs) fun _ _ => True := by
  refine (ensures_modify _).mpr ⟨rfl, fun other => ?_⟩
  show (assign fs.files f (change (fs.files f)) other).off = _
  rw [assign_apply]
  split
  next here => rw [same, here]
  next => rfl

/-- The entry `f` was handed out, and nothing else done to the offsets; new entries start at 0. -/
structure GivenOut (fs : FS) (f : Nat) (after : FS) : Prop where
  size : 0 < after.nfile
  entry : fs.freeFile = some f ∧ (after.files f).off = (fs.files f).off ∨ fs.freeFile = none ∧ (after.files f).off = 0
  off : ∀ other, (after.files other).off = (fs.files other).off ∨ (after.files other).off = 0

theorem SameOffsets.within (same : SameOffsets fs after) (within : fs.OffsetsWithin) : after.OffsetsWithin :=
  ⟨by rw [same.size]; exact within.size, fun f => by rw [same.off]; exact within.within f⟩

theorem GivenOut.within (given : GivenOut fs f after) (within : fs.OffsetsWithin) : after.OffsetsWithin := by
  refine ⟨given.size, fun other => ?_⟩
  rcases given.off other with same | zero
  · rw [same]
    exact within.within other
  · rw [zero]
    exact within_zero

theorem GivenOut.trans (given : GivenOut fs f middle) (same : SameOffsets middle after) : GivenOut fs f after where
  size := by rw [same.size]; exact given.size
  entry := by rw [same.off]; exact given.entry
  off other := by rw [same.off]; exact given.off other

/-- What comes before the table is used. -/
theorem GivenOut.after_kept (given : GivenOut middle f after) (same : middle.files = fs.files ∧ middle.nfile = fs.nfile) : GivenOut fs f after := by
  have free : fs.freeFile = middle.freeFile := by rw [freeFile, freeFile, same.1, same.2]
  exact ⟨given.size, by rw [free, ← same.1]; exact given.entry, by rw [← same.1]; exact given.off⟩

/-- The offset is left as it is. -/
theorem filealloc_gives (size : 0 < fs.nfile) : Ensures filealloc fs (fun f => GivenOut fs f) fun _ _ => True := by
  unfold filealloc
  rw [ensures_bind, ensures_get]
  split
  next f found =>
    refine Ensures.bind (modifyFile_offsets (fun _ => by rfl) fs) fun _ after same => (ensures_pure _).mpr ⟨?_, .inl ⟨found, same.off f⟩, fun other => .inl (same.off other)⟩
    rw [same.size]
    exact size
  next full =>
    unfold ftableGrow
    rw [ensures_bind, ensures_modify]
    refine Ensures.bind (modifyFile_offsets (fun _ => by rfl) _) fun _ after same => (ensures_pure _).mpr ⟨?_, .inr ⟨full, ?_⟩, fun other => ?_⟩
    · rw [same.size]
      exact Nat.mul_pos size (by decide)
    · rw [same.off]
      dsimp only
      rw [if_pos ⟨Nat.le_refl _, by omega⟩]
      rfl
    · rw [same.off]
      dsimp only
      split
      · exact .inr rfl
      · exact .inl rfl

theorem openHandle_gives (size : 0 < fs.nfile) (ip flags : Nat) : Ensures (openHandle ip flags) fs (fun f => GivenOut fs f) fun _ _ => True := by
  have access (f : Nat) (fs : FS) : Ensures (setAccess f flags) fs (fun _ => SameOffsets fs) fun _ _ => True := by
    unfold setAccess
    split
    · exact modifyFile_offsets (fun _ => by rfl) fs
    split
    · exact modifyFile_offsets (fun _ => by rfl) fs
    split
    · exact modifyFile_offsets (fun _ => by rfl) fs
    · exact modifyFile_offsets (fun _ => by rfl) fs
  unfold openHandle
  refine Ensures.bind (filealloc_gives size) fun f first given => ?_
  refine Ensures.bind (modifyFile_offsets (fun _ => by rfl) first) fun _ second same => ?_
  refine Ensures.bind (access f second) fun _ third same' => Ensures.bind (iunlock_files.offsets third) fun _ fourth same'' => ?_
  refine Ensures.bind (endOp_files.offsets fourth) fun _ after last => (ensures_pure _).mpr ?_
  exact given.trans (((same.trans same').trans same'').trans last)

/-- What a call that may hand out an entry does. -/
def MayGive (fs : FS) (handle : Option Nat) (after : FS) : Prop :=
  match handle with
  | none => SameOffsets fs after
  | some f => GivenOut fs f after

/-- A call that works without the table, and then opens a handle or not. -/
theorem TableKept.gives {α : Type} {first : M α} {next : α → M (Int × FuseFileInfo)} (head : TableKept first)
    (tail : ∀ value (middle : FS), 0 < middle.nfile → Ensures (next value) middle (fun value after => MayGive middle (FuseCall.handed value).2 after) fun _ _ => True)
    (size : 0 < fs.nfile) : Ensures (first >>= next) fs (fun value after => MayGive fs (FuseCall.handed value).2 after) fun _ _ => True := by
  refine Ensures.bind (head fs) fun value middle same => (tail value middle (by rw [same.2]; exact size)).weaken fun out after given => ?_
  cases handle : (FuseCall.handed out).2 with
  | none =>
    rw [handle] at given
    exact ⟨given.size.trans same.2, fun f => by rw [given.off, same.1]⟩
  | some f =>
    rw [handle] at given
    exact given.after_kept same

theorem gives_none (fi : FuseFileInfo) (fs : FS) : Ensures (pure (-ENOENT, fi) : M (Int × FuseFileInfo)) fs
    (fun value after => MayGive fs (FuseCall.handed value).2 after) fun _ _ => True := by
  rw [ensures_pure, FuseCall.handed, if_neg (show (-ENOENT, fi).1 ≠ 0 from (by decide : -ENOENT ≠ (0 : Int)))]
  exact ⟨rfl, fun _ => rfl⟩

theorem gives_handle (size : 0 < fs.nfile) (ip flags : Nat) (fi : FuseFileInfo) :
    Ensures (do let file ← openHandle ip flags; pure ((0 : Int), { fi with fh := some file })) fs
      (fun value after => MayGive fs (FuseCall.handed value).2 after) fun _ _ => True :=
  Ensures.bind (openHandle_gives size ip flags) fun _ _ given => (ensures_pure _).mpr given

theorem myfuseOpen_gives (size : 0 < fs.nfile) (path : List Byte) (fi : FuseFileInfo) :
    Ensures (myfuseOpen path fi) fs (fun value after => MayGive fs (FuseCall.handed value).2 after) fun _ _ => True := by
  have opens (ip : Nat) : ∀ fs : FS, 0 < fs.nfile → Ensures (do ilock ip; let file ← openHandle ip fi.flags; pure ((0 : Int), { fi with fh := some file })) fs
      (fun value after => MayGive fs (FuseCall.handed value).2 after) fun _ _ => True :=
    fun fs size => ilock_files.gives (fun _ _ size => gives_handle size ip fi.flags fi) size
  unfold myfuseOpen
  refine beginOp_files.gives (fun _ _ size => (path2inode_files path).gives (fun found middle size => ?_) size) size
  split
  · exact opens _ middle size
  · refine ensures_ite.mpr ⟨fun _ => gives_none fi middle, fun _ => ?_⟩
    refine (path2parentinode_files path).gives (fun found middle size => ?_) size
    split
    · exact endOp_files.gives (fun _ middle _ => gives_none fi middle) size
    · refine (ialloc_files _).gives (fun _ _ size => (modifyCopy_files _).gives (fun _ _ size => iupdate_files.gives (fun _ _ size => ?_) size) size) size
      refine ilock_files.gives (fun _ _ size => ensures_bind.mpr (ensures_get.mpr ((dirlink_files _ _ _).gives (fun _ _ size => ?_) size))) size
      exact iunlockput_files.gives (fun _ middle size => opens _ middle size) size

theorem myfuseCreate_gives (size : 0 < fs.nfile) (path : List Byte) (mode : Nat) (fi : FuseFileInfo) :
    Ensures (myfuseCreate path mode fi) fs (fun value after => MayGive fs (FuseCall.handed value).2 after) fun _ _ => True := by
  unfold myfuseCreate
  refine ensures_ite.mpr ⟨fun _ => (ensures_stop _).mpr trivial, fun _ => ?_⟩
  refine beginOp_files.gives (fun _ _ size => (path2parentinode_files path).gives (fun found middle size => ?_) size) size
  split
  · exact endOp_files.gives (fun _ middle _ => gives_none fi middle) size
  · refine (ialloc_files _).gives (fun _ _ size => ilock_files.gives (fun _ _ size => (modifyCopy_files _).gives (fun _ _ size => ?_) size) size) size
    refine getCurrentTimespec_files.gives (fun _ _ size => (modifyCopy_files _).gives (fun _ _ size => iupdate_files.gives (fun _ _ size => ?_) size) size) size
    refine ilock_files.gives (fun _ _ size => ensures_bind.mpr (ensures_get.mpr ((dirlink_files _ _ _).gives (fun _ _ size => ?_) size))) size
    exact iunlockput_files.gives (fun _ _ size => gives_handle size _ mode fi) size

/-! Seeks. -/

theorem ilock_size (ip : Nat) (fs : FS) :
    Ensures (ilock ip) fs (fun _ after => (after.files = fs.files ∧ after.nfile = fs.nfile) ∧ (after.inode ip).copy.size = fs.lockedSize ip)
      fun reason _ => reason ≠ .undefined := by
  have size : Ensures (ilock ip) fs (fun _ after => (after.inode ip).copy.size = fs.lockedSize ip) fun reason _ => reason ≠ .undefined := by
    unfold ilock loggedRead modifyInode lockedSize
    rw [ensures_bind, ensures_get, ensures_ite]
    refine ⟨fun _ => (ensures_stop _).mpr (by decide), fun _ => ensures_ite.mpr ⟨fun _ => (ensures_stop _).mpr (by decide), fun _ => ?_⟩⟩
    rw [ensures_bind, ensures_modify, ensures_ite]
    refine ⟨fun valid => (ensures_pure _).mpr ?_, fun invalid => ?_⟩
    · dsimp only
      rw [if_pos valid, assign_self]
    · rw [if_neg invalid, ensures_bind, ensures_bind, ensures_get, ensures_pure, ensures_bind, ensures_modify]
      refine ensures_ite.mpr ⟨fun _ => (ensures_stop _).mpr (by decide), fun _ => ensures_ite.mpr ⟨fun _ => (ensures_stop _).mpr (by decide), fun _ => ?_⟩⟩
      rw [ensures_pure]
      simp only [assign_self]
  exact ((ilock_files fs).and size).mono (fun _ _ both => both) fun _ _ both => both.2

/-- What a seek does with the offset; `stored` is what it makes of its goal. -/
structure Sought (fs : FS) (f ip : Nat) (off whence result : Int) (after : FS) : Prop where
  size : after.nfile = fs.nfile
  others : ∀ other, other ≠ f → (after.files other).off = (fs.files other).off
  noGoal : fs.seekGoal f ip off whence = none → (after.files f).off = (fs.files f).off
  stored : ∀ goal, fs.seekGoal f ip off whence = some goal → (after.files f).off = result ∧ (Within goal → result = goal)

theorem toOffT_within {n : Int} (within : Within n) : toOffT n = n := by
  obtain ⟨low, high⟩ := within
  unfold toOffT
  rw [BitVec.toInt_ofInt]
  exact Int.bmod_eq_of_le (by omega) (by omega)

theorem myfuseLseek_spec {fi : FuseFileInfo} (off : OffT) (whence : Int) (handle : fi.fh = some f) (pointer : (fs.files f).ip = some ip) :
    Ensures (myfuseLseek off whence fi) fs (fun result after => Sought fs f ip off.1 whence result after)
      fun reason _ => reason = .undefined → ∃ goal, fs.seekGoal f ip off.1 whence = some goal ∧ ¬ Within goal := by
  unfold myfuseLseek
  rw [handle]
  dsimp only
  rw [ensures_bind, ensures_get, pointer]
  dsimp only
  refine Ensures.bind ((ilock_size ip fs).mono (fun _ _ locked => locked) fun _ _ defined undefined => absurd undefined defined) ?_
  rintro _ locked ⟨⟨files, nfile⟩, size⟩
  -- Every branch but the last stores what it returns.
  have seeks : ∀ stored goal, fs.seekGoal f ip off.1 whence = some goal → (Within goal → stored = goal) →
      Ensures (seekTo f ip stored) locked (fun result after => Sought fs f ip off.1 whence result after)
        fun reason _ => reason = .undefined → ∃ goal, fs.seekGoal f ip off.1 whence = some goal ∧ ¬ Within goal := by
    intro stored goal goalIs kept
    unfold seekTo modifyFile iunlock modifyInode
    rw [ensures_bind, ensures_modify, ensures_bind, ensures_modify, ensures_pure]
    refine ⟨nfile, fun other apart => ?_, fun none => ?_, fun other goalIs' => ⟨?_, fun within => ?_⟩⟩
    · dsimp only
      rw [assign_of_ne apart, files]
    · rw [goalIs] at none
      cases none
    · dsimp only
      rw [assign_self]
    · obtain rfl := Option.some.inj (goalIs.symm.trans goalIs')
      exact kept within
  rw [ensures_bind, ensures_get]
  refine ensures_ite.mpr ⟨fun set => seeks _ off.1 (if_pos set) fun _ => rfl, fun notSet => ensures_ite.mpr ⟨fun cur => ?_, fun notCur => ?_⟩⟩
  · have goalIs : fs.seekGoal f ip off.1 whence = some ((fs.files f).off + off.1) := by rw [seekGoal, if_neg notSet, if_pos cur]
    rw [files]
    refine ensures_ite.mpr ⟨fun overflow => (ensures_stop _).mpr fun _ => ⟨_, goalIs, fun within => ?_⟩, fun _ => seeks _ _ goalIs fun _ => rfl⟩
    obtain ⟨low, high⟩ := within
    omega
  · refine ensures_ite.mpr ⟨fun toEnd => ?_, fun notEnd => ?_⟩
    · rw [size]
      exact seeks _ _ (by rw [seekGoal, if_neg notSet, if_neg notCur, if_pos toEnd]) toOffT_within
    · have noGoal : fs.seekGoal f ip off.1 whence = none := by rw [seekGoal, if_neg notSet, if_neg notCur, if_neg notEnd]
      unfold iunlock modifyInode
      rw [ensures_bind, ensures_modify, ensures_pure]
      refine ⟨nfile, fun _ _ => by dsimp only; rw [files], fun _ => by dsimp only; rw [files], fun goal goalIs => ?_⟩
      rw [noGoal] at goalIs
      cases goalIs

theorem myfuseRelease_offsets (fi : Option FuseFileInfo) (fs : FS) : Ensures (myfuseRelease fi) fs (fun _ => SameOffsets fs) fun _ _ => True := by
  have same : SameOffsets fs fs := ⟨rfl, fun _ => rfl⟩
  unfold myfuseRelease
  split
  · exact (ensures_pure _).mpr same
  split
  · exact (ensures_pure _).mpr same
  next file _ =>
    unfold fileclose
    refine Ensures.bind (ensures_bind.mpr (ensures_get.mpr ?_)) fun _ _ same => (ensures_pure _).mpr same
    refine ensures_ite.mpr ⟨fun _ => (ensures_stop _).mpr trivial, fun _ => ?_⟩
    refine Ensures.bind (modifyFile_offsets (fun _ => by rfl) fs) fun _ counted first => ?_
    refine ensures_ite.mpr ⟨fun _ => (ensures_pure _).mpr first, fun _ => ?_⟩
    refine Ensures.bind (beginOp_files.offsets counted) fun _ opened second => ?_
    have puts : TableKept (iputPtr (fs.files file).ip) := by
      unfold iputPtr
      split
      · exact .stop _
      · exact iput_files
    refine Ensures.bind (puts.offsets opened) fun _ put third => (endOp_files.offsets put).weaken fun _ _ last => ?_
    exact ((first.trans second).trans third).trans last

theorem MayGive.within {handle : Option Nat} (gives : MayGive fs handle after) (within : fs.OffsetsWithin) : after.OffsetsWithin := by
  cases handle with
  | none => exact SameOffsets.within gives within
  | some f => exact GivenOut.within gives within

theorem lseek_handle {fi : FuseFileInfo} {off : OffT} {whence result : Int} (ran : myfuseLseek off whence fi fs = (.ok result, after)) :
    ∃ f ip, fi.fh = some f ∧ (fs.files f).ip = some ip := by
  unfold myfuseLseek at ran
  cases handle : fi.fh with
  | none =>
    rw [handle] at ran
    cases ran
  | some f =>
    rw [handle] at ran
    dsimp only at ran
    rw [bind_ok get_apply] at ran
    cases pointer : (fs.files f).ip with
    | none =>
      rw [pointer] at ran
      cases ran
    | some ip => exact ⟨f, ip, rfl, pointer⟩

end FS

namespace HandleCall
open FS
variable {start fs after : FS} {call : HandleCall}

/-- The entry that is free starts at 0, and a seek stays in range. -/
def Suits (fs : FS) : HandleCall → Prop
  | openFile _ _ | create _ _ _ => ∀ f, fs.freeFile = some f → (fs.files f).off = 0
  | lseek off whence fi => ∀ f ip goal, fi.fh = some f → (fs.files f).ip = some ip → fs.seekGoal f ip off.1 whence = some goal → Within goal
  | release _ => True

/-- What a call is to do: a new handle starts at 0, and a seek out of range is refused. -/
def Lawful (fs after : FS) : HandleCall → Except Exit (Int × Option Nat) → Prop
  | openFile _ _, .ok (_, handle) | create _ _ _, .ok (_, handle) => ∀ f, handle = some f → (after.files f).off = 0
  | lseek off whence fi, .ok (result, _) => ∀ f ip, fi.fh = some f → (fs.files f).ip = some ip →
    Within (after.files f).off ∧
      ∀ goal, fs.seekGoal f ip off.1 whence = some goal → ¬ Within goal → result < 0 ∧ (after.files f).off = (fs.files f).off
  | lseek _ _ fi, .error reason => ∀ f ip, fi.fh = some f → (fs.files f).ip = some ip → reason ≠ .undefined
  | _, _ => True

/-- A handle is given out, or a seek gets as far as the offset. -/
def Reaches : HandleCall → Except Exit (Int × Option Nat) → Prop
  | openFile _ _, .ok (_, some _) | create _ _ _, .ok (_, some _) | lseek _ _ _, .ok _ | lseek _ _ _, .error .undefined => True
  | _, _ => False

/-- Calls that all meet a rule, and return. -/
inductive Run (rule : FS → HandleCall → Prop) (start : FS) : FS → Prop where
  | start : Run rule start start
  | call {fs after : FS} {value : Int × Option Nat} (run : Run rule start fs) (call : HandleCall) (allowed : rule fs call)
      (ran : call.run fs = (.ok value, after)) : Run rule start after

theorem gives_of_run {first : M (Int × FuseFileInfo)} {value : Int × Option Nat}
    (gives : Ensures first fs (fun value after => MayGive fs (FuseCall.handed value).2 after) fun _ _ => True)
    (ran : (do let value ← first; pure (FuseCall.handed value) : M (Int × Option Nat)) fs = (.ok value, after)) : MayGive fs value.2 after := by
  obtain ⟨value', middle, opened, rest⟩ := bind_returns ran
  cases rest
  exact gives.returned opened

theorem Run.within (run : Run (fun fs call => call.Suits fs) start fs) (begins : start.OffsetsWithin) : fs.OffsetsWithin := by
  induction run with
  | start => exact begins
  | @call fs after value _ call suits ran ih =>
    cases call with
    | openFile path fi => exact MayGive.within (gives_of_run (myfuseOpen_gives ih.size path fi) ran) ih
    | create path mode fi => exact MayGive.within (gives_of_run (myfuseCreate_gives ih.size path mode fi) ran) ih
    | lseek off whence fi =>
      obtain ⟨result, _, sought, rest⟩ := bind_returns ran
      cases rest
      obtain ⟨f, ip, handle, pointer⟩ := lseek_handle sought
      have done := (myfuseLseek_spec off whence handle pointer).returned sought
      refine ⟨by rw [done.size]; exact ih.size, fun other => ?_⟩
      by_cases here : other = f
      · rw [here]
        cases goalIs : fs.seekGoal f ip off.1 whence with
        | none =>
          rw [done.noGoal goalIs]
          exact ih.within f
        | some goal =>
          obtain ⟨stored, kept⟩ := done.stored goal goalIs
          have inside := suits f ip goal handle pointer goalIs
          rw [stored, kept inside]
          exact inside
      · rw [done.others other here]
        exact ih.within other
    | release fi =>
      obtain ⟨_, _, released, rest⟩ := bind_returns ran
      cases rest
      exact ((myfuseRelease_offsets fi fs).returned released).within ih

/-- A handle given out starts at 0 if and only if the entry that was free did. -/
theorem given_lawful_iff {f : Nat} (given : GivenOut fs f after) : (after.files f).off = 0 ↔ ∀ f, fs.freeFile = some f → (fs.files f).off = 0 := by
  obtain ⟨free, same⟩ | ⟨full, zero⟩ := given.entry
  · rw [same]
    refine ⟨fun zero other found => ?_, fun suits => suits f free⟩
    obtain rfl := Option.some.inj (free.symm.trans found)
    exact zero
  · refine iff_of_true zero fun other found => ?_
    rw [full] at found
    cases found

theorem sought_lawful_iff {f ip : Nat} {off whence result : Int} (within : fs.OffsetsWithin) (done : Sought fs f ip off whence result after) :
    (Within (after.files f).off ∧
      ∀ goal, fs.seekGoal f ip off whence = some goal → ¬ Within goal → result < 0 ∧ (after.files f).off = (fs.files f).off) ↔
      ∀ goal, fs.seekGoal f ip off whence = some goal → Within goal := by
  cases goalIs : fs.seekGoal f ip off whence with
  | none =>
    rw [done.noGoal goalIs]
    exact iff_of_true ⟨within.within f, nofun⟩ nofun
  | some goal =>
    obtain ⟨stored, kept⟩ := done.stored goal goalIs
    rw [stored]
    constructor
    · rintro ⟨⟨low, -⟩, refused⟩ other same
      by_contra outside
      have negative := (refused other same outside).1
      omega
    · intro suits
      have inside := suits goal rfl
      refine ⟨by rw [kept inside]; exact inside, fun other same outside => ?_⟩
      cases same
      exact absurd inside outside

/-- In any run of calls that suit their states, a call that suits its state is lawful; and a call that gives a
handle out, or seeks, is lawful only then. -/
theorem offsets_lawful_iff {result : Except Exit (Int × Option Nat)} (begins : start.OffsetsWithin) (run : Run (fun fs call => call.Suits fs) start fs)
    (ran : call.run fs = (result, after)) :
    (call.Suits fs → call.Lawful fs after result) ∧ (call.Reaches result → (call.Lawful fs after result ↔ call.Suits fs)) := by
  have within := run.within begins
  have opened : ∀ {first : M (Int × FuseFileInfo)} {value : Int × Option Nat},
      Ensures first fs (fun value after => MayGive fs (FuseCall.handed value).2 after) (fun _ _ => True) →
      (do let value ← first; pure (FuseCall.handed value) : M (Int × Option Nat)) fs = (.ok value, after) →
      ∀ f, value.2 = some f → ((after.files f).off = 0 ↔ ∀ f, fs.freeFile = some f → (fs.files f).off = 0) := fun gives ran f handle => by
    have given := gives_of_run gives ran
    rw [handle] at given
    exact given_lawful_iff given
  cases call with
  | openFile path fi =>
    match result with
    | .error _ => exact ⟨fun _ => trivial, False.elim⟩
    | .ok (value, none) => exact ⟨fun _ => nofun, False.elim⟩
    | .ok (value, some f) =>
      have same := opened (myfuseOpen_gives within.size path fi) ran f rfl
      have lawful : (∀ g, some f = some g → (after.files g).off = 0) ↔ (after.files f).off = 0 := by simp
      exact ⟨fun suits => lawful.mpr (same.mpr suits), fun _ => lawful.trans same⟩
  | create path mode fi =>
    match result with
    | .error _ => exact ⟨fun _ => trivial, False.elim⟩
    | .ok (value, none) => exact ⟨fun _ => nofun, False.elim⟩
    | .ok (value, some f) =>
      have same := opened (myfuseCreate_gives within.size path mode fi) ran f rfl
      have lawful : (∀ g, some f = some g → (after.files g).off = 0) ↔ (after.files f).off = 0 := by simp
      exact ⟨fun suits => lawful.mpr (same.mpr suits), fun _ => lawful.trans same⟩
  | lseek off whence fi =>
    have spec : ∀ f ip, fi.fh = some f → (fs.files f).ip = some ip → Ensures (do let result ← myfuseLseek off whence fi; pure (result, (none : Option Nat))) fs
        (fun value after => Sought fs f ip off.1 whence value.1 after)
        fun reason _ => reason = .undefined → ∃ goal, fs.seekGoal f ip off.1 whence = some goal ∧ ¬ Within goal := fun f ip handle pointer =>
      Ensures.bind (myfuseLseek_spec off whence handle pointer) fun _ _ done => (ensures_pure _).mpr done
    match result with
    | .ok (result, handle) =>
      have same : (lseek off whence fi).Lawful fs after (.ok (result, handle)) ↔ (lseek off whence fi).Suits fs := by
        constructor
        · intro lawful f ip goal handle pointer
          exact (sought_lawful_iff within ((spec f ip handle pointer).returned ran)).mp (lawful f ip handle pointer) goal
        · intro suits f ip handle pointer
          exact (sought_lawful_iff within ((spec f ip handle pointer).returned ran)).mpr fun goal => suits f ip goal handle pointer
      exact ⟨same.mpr, fun _ => same⟩
    | .error reason =>
      have enough : (lseek off whence fi).Suits fs → (lseek off whence fi).Lawful fs after (.error reason) := fun suits f ip handle pointer undefined => by
        obtain ⟨goal, goalIs, outside⟩ := (spec f ip handle pointer).stopped ran undefined
        exact outside (suits f ip goal handle pointer goalIs)
      refine ⟨enough, fun reaches => ⟨fun lawful => ?_, enough⟩⟩
      cases reason with
      | undefined => exact fun f ip _ handle pointer _ => absurd rfl (lawful f ip handle pointer)
      | _ => exact reaches.elim
  | release fi => exact ⟨fun _ => by cases result <;> trivial, fun reaches => by cases result <;> exact reaches.elim⟩

/-- The file system of a small image, where `/` can be opened. -/
def smallRoot : FS := fresh (initSuperBlock 2000) (smallImage (initSuperBlock 2000) ROOTINO) fun _ => Inode.zero

theorem smallRoot_within : smallRoot.OffsetsWithin := ⟨by decide, fun _ => within_zero⟩

/-- The first handle on `/`. -/
def firstHandle : FuseFileInfo := ⟨0, some 0⟩

theorem offsets_lawful_iff_first : ∃ after, (openFile [47] ⟨0, none⟩).run smallRoot = (.ok (0, some 0), after) ∧
    (openFile [47] ⟨0, none⟩).Lawful smallRoot after (.ok (0, some 0)) := by
  have value : valueOf (openFile [47] ⟨0, none⟩).run smallRoot = some (0, some 0) := by decide +kernel
  have suits : (openFile [47] ⟨0, none⟩).Suits smallRoot := fun _ _ => rfl
  exact ⟨_, returns_of_valueOf value, (offsets_lawful_iff smallRoot_within .start (returns_of_valueOf value)).1 suits⟩

/-- A handle starts where the one before it was released, and -1 is stored as an offset. -/
theorem offsets_carried_and_stored :
    (∃ fs after, Run (fun _ _ => True) smallRoot fs ∧ (openFile [47] ⟨0, none⟩).run fs = (.ok (0, some 0), after) ∧ (after.files 0).off = 5) ∧
    ∃ fs after, Run (fun _ _ => True) smallRoot fs ∧ (lseek ⟨-1, by decide⟩ SEEK_SET firstHandle).run fs = (.ok (-1, none), after) ∧
      (after.files 0).off = -1 := by
  constructor
  · have computed : valueOf (do
        let _ ← (openFile [47] ⟨0, none⟩).run
        let _ ← (lseek ⟨5, by decide⟩ SEEK_SET firstHandle).run
        let _ ← (release (some firstHandle)).run
        let again ← (openFile [47] ⟨0, none⟩).run
        let after : FS ← get
        pure (again, (after.files 0).off)) smallRoot = some ((0, some 0), 5) := by decide +kernel
    obtain ⟨_, fs₁, opens, rest⟩ := bind_returns (returns_of_valueOf computed)
    obtain ⟨_, fs₂, seeks, rest⟩ := bind_returns rest
    obtain ⟨_, fs₃, releases, rest⟩ := bind_returns rest
    obtain ⟨again, after, opensAgain, rest⟩ := bind_returns rest
    rw [bind_ok get_apply] at rest
    obtain ⟨rfl, off⟩ : again = (0, some 0) ∧ (after.files 0).off = 5 := by simpa using congrArg Prod.fst rest
    exact ⟨fs₃, after, .call (.call (.call .start _ trivial opens) _ trivial seeks) _ trivial releases, opensAgain, off⟩
  · have computed : valueOf (do
        let _ ← (openFile [47] ⟨0, none⟩).run
        let result ← (lseek ⟨-1, by decide⟩ SEEK_SET firstHandle).run
        let after : FS ← get
        pure (result, (after.files 0).off)) smallRoot = some ((-1, none), -1) := by decide +kernel
    obtain ⟨_, fs₁, opens, rest⟩ := bind_returns (returns_of_valueOf computed)
    obtain ⟨result, after, seeks, rest⟩ := bind_returns rest
    rw [bind_ok get_apply] at rest
    obtain ⟨rfl, off⟩ : result = (-1, none) ∧ (after.files 0).off = -1 := by simpa using congrArg Prod.fst rest
    exact ⟨fs₁, after, .call .start _ trivial opens, seeks, off⟩

end HandleCall
end Myfuse
