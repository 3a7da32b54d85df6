import Myfuse.Format
import Myfuse.Proofs.TreeCalls

/-! Runs of calls on paths: what they answer is what the tree of names and bytes answers. -/

namespace Myfuse
open Library Library.Exec

namespace FuseCall
open FS

/-- The calls that look at names, make them or take them away. With `O_CREAT`, `open` makes an inode without links. -/
def OnPaths : FuseCall → Prop
  | getattr _ => True
  | opendir _ _ => True
  | openFile _ fi => fi.flags &&& O_CREAT = 0
  | create _ _ _ => True
  | mkdir _ _ => True
  | unlink _ => True
  | rmdir _ => True
  | access _ => True
  | chmod _ _ => True
  | _ => False

variable {fs : FS} {tree : FileTree} {call : FuseCall}

/-- A call answers from the tree, unless it leaves its operation open. -/
theorem answers (onPaths : call.OnPaths) (bears : fs.Bears tree) :
    Ensures call.run fs (fun value after => after.log.outstanding = 0 → ∃ tree', after.Bears tree' ∧ tree.Answers call value.1 tree') fun _ _ => True := by
  cases call with
  | getattr path =>
    apply Ensures.bind (bears.getattr path)
    exact fun _ _ answered => (ensures_pure _).mpr fun _ => ⟨tree, answered⟩
  | opendir path fi =>
    apply Ensures.bind (bears.opendir path fi)
    exact fun _ _ answered => (ensures_pure _).mpr fun _ => ⟨tree, answered⟩
  | openFile path fi =>
    apply Ensures.bind (bears.openFile path fi onPaths)
    exact fun _ _ answered => (ensures_pure _).mpr fun closed => ⟨tree, answered closed⟩
  | create path mode fi =>
    apply Ensures.bind (bears.create path mode fi)
    exact fun _ _ answered => (ensures_pure _).mpr fun _ => answered
  | mkdir path mode =>
    apply Ensures.bind (bears.mkdir path mode)
    exact fun _ _ answered => (ensures_pure _).mpr fun _ => answered
  | unlink path =>
    apply Ensures.bind (bears.unlink path)
    exact fun _ _ answered => (ensures_pure _).mpr fun _ => answered
  | rmdir path =>
    apply Ensures.bind (bears.rmdir path)
    exact fun _ _ answered => (ensures_pure _).mpr fun _ => answered
  | access path =>
    apply Ensures.bind (bears.access path)
    exact fun _ _ answered => (ensures_pure _).mpr fun closed => ⟨tree, answered closed⟩
  | chmod path mode =>
    apply Ensures.bind (bears.chmod path mode)
    exact fun _ _ answered => (ensures_pure _).mpr fun closed => ⟨tree, answered closed⟩
  | readdir full fi => exact onPaths.elim
  | release fi => exact onPaths.elim
  | read size offset fi => exact onPaths.elim
  | write data offset fi => exact onPaths.elim
  | truncate path size => exact onPaths.elim
  | rename source target flags => exact onPaths.elim

end FuseCall

namespace FS
variable {fs after : FS} {tree : FileTree} {trace : List (FuseCall × Int)}

/-- The file system under calls on paths that return and end their operation. -/
def pathCalls : System FS (FuseCall × Int) where
  step fs event after := ∃ call result handle, event = some (call, result) ∧ call.OnPaths ∧ call.run fs = (.ok (result, handle), after) ∧
    after.log.outstanding = 0

/-- The code simulates the tree. -/
def bearing : Simulation pathCalls FileTree.system where
  related fs tree := fs.Bears tree
  matched := by
    intro fs event after tree bears stepped
    obtain ⟨call, result, handle, rfl, onPaths, ran, closed⟩ := stepped
    obtain ⟨tree', still, answered⟩ := (FuseCall.answers onPaths bears).returned ran closed
    exact ⟨tree', .one ⟨call, result, rfl, answered⟩, still⟩

theorem Bears.resolve (bears : fs.Bears tree) (path : List Byte) : fs.resolve path = tree.resolve path :=
  bears.carries.covers.walk Relation.ReflTransGen.refl _

theorem Bears.resolveParent (bears : fs.Bears tree) (path : List Byte) : fs.resolveParent path = tree.resolveParent path :=
  bears.carries.covers.parent Relation.ReflTransGen.refl _

/-- Whatever calls on paths are made, they answer as the tree of names and bytes does, and the file system has the tree that comes of it. -/
theorem pathCalls_refine (bears : fs.Bears tree) (runs : pathCalls.Runs fs trace after) :
    ∃ tree', FileTree.system.Runs tree trace tree' ∧ after.Bears tree' ∧
      ∀ path, after.resolve path = tree'.resolve path ∧ after.resolveParent path = tree'.resolveParent path := by
  obtain ⟨tree', shown, still⟩ := bearing.runs bears runs
  exact ⟨tree', shown, still, fun path => ⟨still.resolve path, still.resolveParent path⟩⟩

/-- Calls one after the other, what they answer, and the operations open after each. -/
def runAll : List FuseCall → M (List (Int × Int))
  | [] => pure []
  | call :: rest => do
    let value ← call.run
    let fs ← get
    let values ← runAll rest
    pure ((value.1, fs.log.outstanding) :: values)

theorem runAll_runs {calls : List FuseCall} {values : List (Int × Int)} (onPaths : calls.Forall FuseCall.OnPaths)
    (ran : runAll calls fs = (.ok values, after)) (closed : ∀ value ∈ values, value.2 = 0) :
    pathCalls.Runs fs (calls.zip (values.map Prod.fst)) after := by
  induction calls generalizing fs values with
  | nil =>
    cases ran
    exact .nil
  | cons call rest ih =>
    obtain ⟨first, others⟩ := (List.forall_cons ..).mp onPaths
    obtain ⟨value, middle, called, ran⟩ := bind_returns ran
    rw [bind_ok get_apply] at ran
    obtain ⟨_, _, ran, last⟩ := bind_returns ran
    cases last
    have stepped : pathCalls.step fs (some (call, value.1)) middle := ⟨call, value.1, value.2, rfl, first, called, closed _ (.head _)⟩
    have runs := System.Runs.one stepped
    exact runs.trans (ih others ran fun value within => closed value (.tail _ within))

/-- Nothing but the root. -/
def emptyTree : FileTree := ⟨emptyRoot, fun _ => []⟩

theorem emptyTree_reached {inum : Nat} (reached : emptyTree.Reached inum) : inum = ROOTINO := by
  induction reached with
  | refl => rfl
  | tail _ edge _ =>
    obtain ⟨name, found⟩ := edge
    cases (emptyRoot_child _ name).symm.trans found

/-- An empty root directory is the whole of the tree, whatever other inodes there are. -/
theorem emptyTree_carries (inside : ROOTINO < fs.sb.ninodes) (isDir : (fs.current ROOTINO).type = T_DIR_INODE_MYFUSE)
    (linked : (fs.current ROOTINO).nlink = 1) (empty : (fs.current ROOTINO).size = 0) : fs.Carries emptyTree := by
  refine ⟨⟨?_, ?_, ?_, ?_⟩, ⟨?_, ?_⟩, ?_, ?_⟩
  · intro inum reached
    rw [emptyTree_reached reached]
    exact inside
  · intro inum reached
    rw [emptyTree_reached reached, linked]
    decide
  · intro inum reached
    rw [emptyTree_reached reached]
    exact ⟨isDir, [], ⟨empty, rfl, by decide⟩, List.nodup_nil, rfl⟩
  · intro inum reached other edge
    exact reached.tail edge
  · intro first second other key key' _ _ found
    cases (emptyRoot_child first key).symm.trans found
  · intro node key _ found
    cases (emptyRoot_child node key).symm.trans found
  · intro inum reached
    rw [emptyTree_reached reached]
    exact linked
  · intro inum reached leaf
    rw [emptyTree_reached reached] at leaf
    cases leaf

/-- A disk with its super block, the root directory and a file without a name. -/
def labelled : Nat → Block :=
  assign (smallImage (initSuperBlock 2000) 17) SUPERBLOCK_ID (Superblock.write Bytes.zero (initSuperBlock 2000))

def labelledDisk : FS := fresh (initSuperBlock 2000) labelled fun _ => Inode.zero

theorem labelled_blockless : Blockless (initSuperBlock 2000) labelled := by
  have blockless := smallDisk_blockless
  have apart : ∀ blockno, (initSuperBlock 2000).inodestart ≤ blockno → labelled blockno = smallImage (initSuperBlock 2000) 17 blockno := by
    intro blockno behind
    apply assign_of_ne
    have start : SUPERBLOCK_ID < (initSuperBlock 2000).inodestart := by decide
    omega
  have dinodes : ∀ inum, labelled ((initSuperBlock 2000).iblock inum) = smallImage (initSuperBlock 2000) 17 ((initSuperBlock 2000).iblock inum) :=
    fun inum => apart _ (Nat.le_add_left _ _)
  constructor
  · intro blockno inside
    rw [← blockless.bits blockno inside]
    apply bitOf_congr
    have before : (initSuperBlock 2000).inodestart ≤ (initSuperBlock 2000).bmapstart := by decide
    exact apart _ (Nat.le_trans before (Nat.le_add_left _ _))
  · intro inum inside
    rw [dinodes]
    exact blockless.addrs inum inside

theorem labelledDisk_bears : labelledDisk.Bears emptyTree := by
  have known : (labelledDisk.current ROOTINO).type = T_DIR_INODE_MYFUSE ∧ (labelledDisk.current ROOTINO).nlink = 1 ∧ (labelledDisk.current ROOTINO).size = 0 ∧
      labelledDisk.sb.ninodes = 656 := by decide +kernel
  obtain ⟨isDir, linked, empty, ninodes⟩ := known
  have wellFormed : labelledDisk.WellFormed := by
    apply labelled_blockless.fresh_wellFormed smallDisk_layout (by decide) (by decide) (by decide)
    · exact fun _ => rfl
    · exact fun _ _ referenced => absurd referenced (by decide)
    · exact fun _ _ _ _ referenced => absurd referenced (by decide)
  have mounted : Mounted labelledDisk := ⟨by decide +kernel, fun _ _ => ⟨rfl, rfl⟩, fun _ _ pointer => by cases pointer⟩
  have between : labelledDisk.Between := ⟨wellFormed.ready, mounted, by decide +kernel, fun _ => Int.le_refl 0⟩
  refine ⟨between, ?_, ?_, ?_, emptyTree_carries ?_ isDir linked empty⟩
  · rw [ninodes]
    decide
  · intro ip loaded
    cases loaded.2
  · intro ip held
    exact absurd held (Int.lt_irrefl 0)
  · rw [ninodes]
    decide

/-- A directory and a file in it are made and taken away. -/
def makeAndTake : List FuseCall :=
  [.mkdir [47, 97] 0, .create [47, 97, 47, 98] S_IFREG ⟨0, none⟩, .getattr [47, 97, 47, 98], .rmdir [47, 97], .unlink [47, 97, 47, 98], .rmdir [47, 97],
    .getattr [47, 97]]

theorem pathCalls_refine_seven : ∃ (after : FS) (tree : FileTree), FileTree.system.Runs emptyTree (makeAndTake.zip [0, 0, 0, -ENOTEMPTY, 0, 0, -ENOENT]) tree ∧
    after.Bears tree ∧ ∀ path, after.resolve path = tree.resolve path ∧ after.resolveParent path = tree.resolveParent path := by
  have computed : valueOf (runAll makeAndTake) labelledDisk = some ([0, 0, 0, -ENOTEMPTY, 0, 0, -ENOENT].map fun result => (result, 0)) := by decide +kernel
  have onPaths : makeAndTake.Forall FuseCall.OnPaths := ⟨trivial, trivial, trivial, trivial, trivial, trivial, trivial⟩
  have runs := runAll_runs onPaths (returns_of_valueOf computed) (by decide)
  exact ⟨_, pathCalls_refine labelledDisk_bears runs⟩

end FS
end Myfuse
