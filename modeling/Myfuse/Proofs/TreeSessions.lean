import Myfuse.Proofs.TreeRemount

/-! Calls on paths and losses of power: after a loss the disk is mounted again, and the tree is
the one before the call that was under way or the one after it. -/

namespace Myfuse
open Library Library.Exec

/-- Calls that answer from the tree, and losses of power. A call that is lost may have changed the tree unanswered. -/
def FileTree.sessions : System FileTree (FuseCall × Int) where
  step tree event after := FileTree.system.step tree event after ∨
    event = none ∧ (after = tree ∨ ∃ call result, tree.Answers call result after)

namespace FS
variable {fs last after : FS} {tree : FileTree} {trace : List (FuseCall × Int)}

/-- The state whose blocks the device has when the power goes: that before a call, or that behind its last commit. -/
def LeftBy (fs last : FS) : Prop :=
  last = fs ∨ ∃ (call : FuseCall) (value : Int × Option Nat), call.OnPaths ∧ call.run fs = (.ok value, last) ∧ last.log.outstanding = 0

/-- The power goes, and the disk is mounted, whose log recovers to what the device had. Its first bitmap block has a clear bit. -/
def PowerLoss (fs after : FS) : Prop :=
  ∃ last disk recycled clock, LeftBy fs last ∧ Mountable last.sb last.device disk ∧ myfuseInit recycled disk clock = .ok after ∧
    ∃ j < BPB, (last.device last.sb.bmapstart).bit j = false

/-- Calls on paths that return and end their operation, and losses of power at any time. -/
def sessions : System FS (FuseCall × Int) where
  step fs event after := pathCalls.step fs event after ∨ event = none ∧ PowerLoss fs after

/-- Between two calls with this tree, all of which is on the device. -/
structure Stores (fs : FS) (tree : FileTree) : Prop where
  bears : fs.Bears tree
  onDevice : fs.OnDevice

namespace Stores

theorem call {call : FuseCall} {value : Int × Option Nat} (stores : fs.Stores tree) (onPaths : call.OnPaths) (returned : call.run fs = (.ok value, after))
    (closed : after.log.outstanding = 0) : ∃ tree', after.Stores tree' ∧ tree.Answers call value.1 tree' := by
  obtain ⟨tree', bears, answered⟩ := (FuseCall.answers onPaths stores.bears).returned returned closed
  have between := stores.bears.between
  exact ⟨tree', ⟨bears, stores.onDevice.call between.mounted between.idle returned closed⟩, answered⟩

/-- Any disk that recovers to what is on the device mounts, with the same tree. -/
theorem reopens (stores : fs.Stores tree) {disk : Nat → Block} (mountable : Mountable fs.sb fs.device disk) (recycled : Nat → Nat → Bool)
    (clock : Nat → Timespec) : ∃ after, myfuseInit recycled disk clock = .ok after ∧ Reopened fs after := by
  obtain ⟨after, mounts, mounted⟩ := myfuseInit_mounts mountable stores.bears.between.ready.volume.layout.log_size recycled clock
  exact ⟨after, mounts, stores.bears.reopens stores.onDevice.device mounted⟩

theorem remounts (stores : fs.Stores tree) {disk : Nat → Block} (mountable : Mountable fs.sb fs.device disk) {recycled : Nat → Nat → Bool}
    {clock : Nat → Timespec} (mounts : myfuseInit recycled disk clock = .ok after) (serves : ∃ j < BPB, (fs.device fs.sb.bmapstart).bit j = false) :
    after.Stores tree := by
  obtain ⟨other, again, reopened⟩ := stores.reopens mountable recycled clock
  obtain rfl : after = other := Except.ok.inj (mounts.symm.trans again)
  rw [stores.onDevice.device] at serves
  have nonempty : 0 < fs.sb.nbitmap := Nat.lt_of_le_of_lt (Nat.zero_le _) stores.bears.between.ready.volume.free.1
  exact ⟨stores.bears.remounts reopened serves nonempty, reopened.onDevice⟩

/-- The tree is the one of the call that was lost, or the one before it. -/
theorem leftBy (stores : fs.Stores tree) (left : LeftBy fs last) :
    ∃ tree', last.Stores tree' ∧ (tree' = tree ∨ ∃ call result, tree.Answers call result tree') := by
  cases left with
  | inl same =>
    rw [same]
    exact ⟨tree, stores, .inl rfl⟩
  | inr committed =>
    obtain ⟨call, value, onPaths, returned, closed⟩ := committed
    obtain ⟨tree', stores, answered⟩ := stores.call onPaths returned closed
    exact ⟨tree', stores, .inr ⟨call, value.1, answered⟩⟩

end Stores

/-- The code simulates the tree, losses of power included. -/
def storing : Simulation sessions FileTree.sessions where
  related fs tree := fs.Stores tree
  matched := by
    intro fs event after tree stores stepped
    cases stepped with
    | inl called =>
      obtain ⟨call, result, handle, rfl, onPaths, returned, closed⟩ := called
      obtain ⟨tree', still, answered⟩ := stores.call onPaths returned closed
      exact ⟨tree', .one (.inl ⟨call, result, rfl, answered⟩), still⟩
    | inr lost =>
      obtain ⟨rfl, last, disk, recycled, clock, left, mountable, mounts, serves⟩ := lost
      obtain ⟨tree', stores, kept⟩ := stores.leftBy left
      exact ⟨tree', .one (.inr ⟨rfl, kept⟩), stores.remounts mountable mounts serves⟩

/-- Whatever calls are made and whenever the power goes, what is answered is what a tree answers that loses nothing but
calls under way. What a run ends with mounts again, with the same tree. -/
theorem sessions_refine (bears : fs.Bears tree) (onDevice : fs.OnDevice) (runs : sessions.Runs fs trace after) :
    ∃ tree', FileTree.sessions.Runs tree trace tree' ∧ after.Bears tree' ∧ (∀ path, after.resolve path = tree'.resolve path) ∧
      ∀ disk, Mountable after.sb after.device disk → ∀ recycled clock, ∃ again, myfuseInit recycled disk clock = .ok again ∧ again.Carries tree' := by
  obtain ⟨tree', shown, stores⟩ := storing.runs (⟨bears, onDevice⟩ : fs.Stores tree) runs
  refine ⟨tree', shown, stores.bears, stores.bears.resolve, fun disk mountable recycled clock => ?_⟩
  obtain ⟨again, mounts, reopened⟩ := stores.reopens mountable recycled clock
  exact ⟨again, mounts, stores.bears.carries.unchanged reopened.unchanged⟩

theorem sessions_refine_lost : ∃ (middle after : FS) (tree : FileTree), sessions.Runs labelledDisk [(.mkdir [47, 97] 0, 0)] middle ∧ PowerLoss middle after ∧
    FileTree.sessions.Runs emptyTree [(.mkdir [47, 97] 0, 0)] tree ∧ after.Bears tree ∧ (∀ path, after.resolve path = tree.resolve path) ∧
      ∀ disk, Mountable after.sb after.device disk → ∀ recycled clock, ∃ again, myfuseInit recycled disk clock = .ok again ∧ again.Carries tree := by
  have computed : valueOf (do
      let result ← (FuseCall.mkdir [47, 97] 0).run
      let fs : FS ← get
      pure (result.1, fs.log.outstanding, decide (Superblock.read (fs.device SUPERBLOCK_ID) = fs.sb ∧ fs.sb.magic = FSMAGIC ∧ fs.sb.nlog = NLOG ∧
        headerN (fs.device fs.sb.logstart) = 0 ∧ (fs.device fs.sb.bmapstart).bit 1999 = false))) labelledDisk = some (0, 0, true) := by decide +kernel
  obtain ⟨value, middle, returned, rest⟩ := bind_returns (returns_of_valueOf computed)
  rw [bind_ok get_apply] at rest
  obtain ⟨result, closed, superblock, magic, size, empty, serves⟩ : value.1 = 0 ∧ middle.log.outstanding = 0 ∧
      Superblock.read (middle.device SUPERBLOCK_ID) = middle.sb ∧ middle.sb.magic = FSMAGIC ∧ middle.sb.nlog = NLOG ∧
      headerN (middle.device middle.sb.logstart) = 0 ∧ (middle.device middle.sb.bmapstart).bit 1999 = false := by
    simpa using congrArg Prod.fst rest
  have mountable : Mountable middle.sb middle.device middle.device :=
    ⟨superblock, magic, recoverable_of_empty (Int.le_of_eq empty) fun _ _ => rfl⟩
  obtain ⟨after, mounts, -⟩ := myfuseInit_mounts mountable size (fun _ _ => false) fun _ => ⟨0, 0⟩
  have called : sessions.step labelledDisk (some (.mkdir [47, 97] 0, 0)) middle :=
    .inl ⟨.mkdir [47, 97] 0, 0, value.2, rfl, trivial, by rw [returned, ← result], closed⟩
  have lost : PowerLoss middle after := ⟨middle, middle.device, _, _, .inl rfl, mountable, mounts, 1999, by decide, serves⟩
  have runs : sessions.Runs labelledDisk [(.mkdir [47, 97] 0, 0)] middle := .one called
  have runs' : sessions.Runs labelledDisk [(.mkdir [47, 97] 0, 0)] after := .step runs (.inr ⟨rfl, lost⟩)
  obtain ⟨tree, refined⟩ := sessions_refine labelledDisk_bears ⟨rfl, rfl⟩ runs'
  exact ⟨middle, after, tree, runs, lost, refined⟩

/-! From mkfs on. -/

/-- A disk that was just made and mounted has the empty tree. -/
theorem Formatted.stores {sb : Superblock} {image : Nat → Block} (formatted : Formatted sb fs.store) (mounted : Recovered sb image fs)
    (arranged : Arranged sb) (few : sb.ninodes ≤ 2 ^ 32) (data : sb.nmeta < sb.size) (first : sb.nmeta < BPB) : fs.Stores emptyTree := by
  have wellFormed := (mounted.wellFormed_iff arranged.valid formatted.toBlockless data).mpr first
  have layout := mounted.layout
  subst layout
  have root := mounted.current ROOTINO
  have carries : fs.Carries emptyTree := by
    apply emptyTree_carries arranged.root
    · rw [root]
      exact formatted.rootType
    · rw [root]
      exact formatted.rootLinks
    · rw [root]
      exact formatted.rootSize
  exact ⟨mounted.bears wellFormed few carries, mounted.flushed, mounted.idle.block⟩

/-- mkfs, mounting, calls on paths and losses of power, in a row: a tree that was empty at first has answered. -/
theorem mkfs_sessions {disk_size : Nat} (room : 1041 ≤ disk_size) (uint : disk_size < 2 ^ 32) (first : (initSuperBlock disk_size).nmeta < BPB)
    (disk : Nat → Block) (clock : Nat → Timespec) :
    Ensures mkfs (unformatted disk_size disk clock)
      (fun _ image => ∀ device, headerN (device (initSuperBlock disk_size).logstart) = 0 →
        (∀ blockno, OutsideLog (initSuperBlock disk_size).logstart NLOG blockno → device blockno = image.device blockno) →
        ∀ recycled later, ∃ fs, myfuseInit recycled device later = .ok fs ∧ ∀ trace after, sessions.Runs fs trace after →
          ∃ tree, FileTree.sessions.Runs emptyTree trace tree ∧ after.Bears tree ∧ after.OnDevice)
      fun _ _ => False := by
  have arranged := initSuperBlock_arranged room uint
  have few : (initSuperBlock disk_size).ninodes ≤ 2 ^ 32 := by
    simp only [initSuperBlock, IPB, BSIZE, dinodeSize]
    omega
  apply (mkfs_spec arranged disk clock).weaken
  intro _ image made device empty agrees recycled later
  obtain ⟨fs, mounts, mounted, formatted⟩ := made.mounts arranged rfl empty agrees recycled later
  have stores := formatted.stores mounted arranged few (initSuperBlock_room room uint) first
  refine ⟨fs, mounts, fun trace after runs => ?_⟩
  obtain ⟨tree, shown, still⟩ := storing.runs stores runs
  exact ⟨tree, shown, still.bears, still.onDevice⟩

theorem mkfs_sessions_smallDisk : Ensures mkfs (unformatted 2000 (fun _ => Bytes.zero) fun _ => ⟨0, 0⟩)
    (fun _ image => ∀ device, headerN (device (initSuperBlock 2000).logstart) = 0 →
      (∀ blockno, OutsideLog (initSuperBlock 2000).logstart NLOG blockno → device blockno = image.device blockno) →
      ∀ recycled later, ∃ fs, myfuseInit recycled device later = .ok fs ∧ ∀ trace after, sessions.Runs fs trace after →
        ∃ tree, FileTree.sessions.Runs emptyTree trace tree ∧ after.Bears tree ∧ after.OnDevice)
    fun _ _ => False :=
  mkfs_sessions (by decide) (by decide) (by decide) _ _

end FS
end Myfuse
