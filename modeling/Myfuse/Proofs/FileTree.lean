import Myfuse.FuseCall
import Myfuse.Library.Simulation
import Myfuse.Proofs.DirectoryTree
import Myfuse.Proofs.InodeSteps

/-! What the file system is for: a tree of names with the bytes of the files, and what calls on
paths answer there. A state between two calls has such a tree. -/

namespace Myfuse
open Library Library.Exec

/-- The names, and the bytes of the files. -/
structure FileTree where
  names : NameTree Nat DirName
  bytes : Nat → List Byte

namespace FileTree

/-- A new inode comes under a name. -/
def attach (tree : FileTree) (dir : Nat) (name : DirName) (inum : Nat) (entries : Option (PartialMap DirName Nat)) : FileTree where
  names := tree.names.attach dir name inum entries
  bytes := assign tree.bytes inum []

def unlink (tree : FileTree) (dir : Nat) (name : DirName) : FileTree := { tree with names := tree.names.unlink dir name }

variable (tree : FileTree)

/-- Where a path leads. -/
def resolve (path : List Byte) : Option Nat := tree.names.walk ROOTINO (FS.keysOf path)

/-- The directory of the last name of a path, and that name. -/
def resolveParent (path : List Byte) : Option (Nat × DirName) := tree.names.parent ROOTINO (FS.keysOf path)

def Reached (inum : Nat) : Prop := tree.names.Reached ROOTINO inum

/-- What a call answers, and the tree after it. The number of a new inode is one that is not in the
tree. A file may be taken by `rmdir`, and a `create` that finds the name leaves it. -/
inductive Answers : FuseCall → Int → FileTree → Prop where
  | getattr {path : List Byte} {inum : Nat} (found : tree.resolve path = some inum) : Answers (.getattr path) 0 tree
  | getattrMissing {path : List Byte} (missing : tree.resolve path = none) : Answers (.getattr path) (-ENOENT) tree
  | opendir {path : List Byte} {fi : FuseFileInfo} {inum : Nat} (found : tree.resolve path = some inum) (directory : (tree.names inum).isSome) :
      Answers (.opendir path fi) 0 tree
  | opendirFile {path : List Byte} {fi : FuseFileInfo} {inum : Nat} (found : tree.resolve path = some inum) (file : tree.names inum = none) :
      Answers (.opendir path fi) (-ENOTDIR) tree
  | opendirMissing {path : List Byte} {fi : FuseFileInfo} (missing : tree.resolve path = none) : Answers (.opendir path fi) (-ENOENT) tree
  | openFile {path : List Byte} {fi : FuseFileInfo} {inum : Nat} (found : tree.resolve path = some inum) : Answers (.openFile path fi) 0 tree
  | access {path : List Byte} {inum : Nat} (found : tree.resolve path = some inum) : Answers (.access path) 0 tree
  | chmod {path : List Byte} {mode inum : Nat} (found : tree.resolve path = some inum) : Answers (.chmod path mode) 0 tree
  | mkdir {path : List Byte} {mode dir inum : Nat} {name : DirName} (parent : tree.resolveParent path = some (dir, name))
      (free : tree.names.child dir name = none) (fresh : ¬ tree.Reached inum) :
      Answers (.mkdir path mode) 0 (tree.attach dir name inum (some PartialMap.empty))
  | mkdirTaken {path : List Byte} {mode dir : Nat} {name : DirName} (parent : tree.resolveParent path = some (dir, name))
      (taken : tree.names.child dir name ≠ none) : Answers (.mkdir path mode) (-EEXIST) tree
  | create {path : List Byte} {mode dir inum : Nat} {fi : FuseFileInfo} {name : DirName} (parent : tree.resolveParent path = some (dir, name))
      (free : tree.names.child dir name = none) (fresh : ¬ tree.Reached inum) : Answers (.create path mode fi) 0 (tree.attach dir name inum none)
  | createTaken {path : List Byte} {mode dir : Nat} {fi : FuseFileInfo} {name : DirName} (parent : tree.resolveParent path = some (dir, name))
      (taken : tree.names.child dir name ≠ none) : Answers (.create path mode fi) 0 tree
  | createMissing {path : List Byte} {mode : Nat} {fi : FuseFileInfo} (missing : tree.resolveParent path = none) :
      Answers (.create path mode fi) (-ENOENT) tree
  | unlink {path : List Byte} {dir inum : Nat} {name : DirName} (parent : tree.resolveParent path = some (dir, name))
      (found : tree.names.child dir name = some inum) : Answers (.unlink path) 0 (tree.unlink dir name)
  | unlinkMissing {path : List Byte} (missing : tree.resolve path = none) : Answers (.unlink path) (-ENOENT) tree
  | rmdir {path : List Byte} {dir inum : Nat} {name : DirName} (parent : tree.resolveParent path = some (dir, name))
      (found : tree.names.child dir name = some inum) (bare : NameTree.Bare (tree.names inum)) : Answers (.rmdir path) 0 (tree.unlink dir name)
  | rmdirKept {path : List Byte} {inum : Nat} (found : tree.resolve path = some inum)
      (kept : ∀ entries, tree.names inum = some entries → ∃ name, entries name ≠ none) : Answers (.rmdir path) (-ENOTEMPTY) tree
  | rmdirMissing {path : List Byte} (missing : tree.resolve path = none) : Answers (.rmdir path) (-ENOENT) tree

/-- Calls that answer from the tree. -/
def system : System FileTree (FuseCall × Int) where
  step tree event after := ∃ call result, event = some (call, result) ∧ tree.Answers call result after

end FileTree

namespace FS
variable {α : Type} {origin : Origin} {base floor refs : Nat → Int} {gone : Nat → Prop} {fs middle after : FS} {ip dp inum dir : Nat} {slots : Dirents}
  {tree : FileTree} {nodes : Set Nat} {names : NameTree Nat DirName}

/-- The bytes of a file. -/
def fileBytes (fs : FS) (inum : Nat) : List Byte := bytesFrom (fs.content inum) 0 (fs.current inum).size

/-- What is reached from the root is the tree: every inode has one name, one link, and its entries or bytes. -/
structure Carries (fs : FS) (tree : FileTree) : Prop where
  covers : fs.Covers { inum | tree.Reached inum } tree.names
  single : tree.names.Single ROOTINO
  once : ∀ inum, tree.Reached inum → (fs.current inum).nlink = 1
  files : ∀ inum, tree.Reached inum → tree.names inum = none → (fs.current inum).type = T_FILE_INODE_MYFUSE ∧ fs.fileBytes inum = tree.bytes inum

/-- Between two calls with this tree. All entries are saved, and those that are held are for inodes in use. -/
structure Bears (fs : FS) (tree : FileTree) : Prop where
  between : fs.Between
  small : fs.sb.ninodes ≤ 2 ^ 32
  saved : ∀ ip, fs.Loaded ip → fs.Saved ip
  occupied : Occupied fs.refsOf fs
  carries : fs.Carries tree

/-- In the only operation, with these references. -/
structure Working (origin : Origin) (refs : Nat → Int) (tree : FileTree) (fs : FS) : Prop where
  tended : Tended origin allSaved refs fs
  alone : fs.log.outstanding = 1
  small : fs.sb.ninodes ≤ 2 ^ 32
  occupied : Occupied refs fs
  carries : fs.Carries tree

theorem fileBytes_congr (attrs : SameAttrs (fs.current inum) (after.current inum)) (content : after.content inum = fs.content inum) :
    after.fileBytes inum = fs.fileBytes inum := by
  unfold fileBytes
  rw [attrs.size, content]

theorem Presents.used {listed : Option (PartialMap DirName Nat)} (presents : fs.Presents inum listed) : (fs.current inum).type ≠ T_UNUSE_INODE_MYFUSE := by
  cases listed with
  | none =>
    cases presents with
    | inl file =>
      rw [file]
      decide
    | inr device =>
      rw [device]
      decide
  | some entries =>
    rw [presents.1]
    decide

namespace Covers

/-- What changed is not in the set. -/
theorem spared (covers : fs.Covers nodes names) (files : SameFiles gone fs after) (apart : ∀ inum ∈ nodes, ¬ gone inum) : after.Covers nodes names where
  inside inum node := files.sb ▸ covers.inside inum node
  linked inum node := by
    rw [(files.attrs inum (covers.inside inum node) (apart inum node)).nlink]
    exact covers.linked inum node
  presents inum node := (covers.presents inum node).congr (files.attrs inum (covers.inside inum node) (apart inum node)) (files.content inum (apart inum node))
  closed := covers.closed

/-- Inodes of the set are in use. -/
theorem used (covers : fs.Covers nodes names) (node : inum ∈ nodes) : (fs.current inum).type ≠ T_UNUSE_INODE_MYFUSE := (covers.presents inum node).used

end Covers

namespace Carries
variable (carries : fs.Carries tree)
include carries

/-- What changed is not reached. -/
theorem spared (files : SameFiles gone fs after) (apart : ∀ inum, tree.Reached inum → ¬ gone inum) : after.Carries tree where
  covers := carries.covers.spared files apart
  single := carries.single
  once inum reached := by
    rw [(files.attrs inum (carries.covers.inside inum reached) (apart inum reached)).nlink]
    exact carries.once inum reached
  files inum reached leaf := by
    have attrs := files.attrs inum (carries.covers.inside inum reached) (apart inum reached)
    rw [attrs.type, fileBytes_congr attrs (files.content inum (apart inum reached))]
    exact carries.files inum reached leaf

theorem unchanged (same : Unchanged fs after) : after.Carries tree where
  covers := carries.covers.unchanged same
  single := carries.single
  once inum reached := by
    rw [(same.attrs inum (carries.covers.inside inum reached)).nlink]
    exact carries.once inum reached
  files inum reached leaf := by
    have attrs := same.attrs inum (carries.covers.inside inum reached)
    rw [attrs.type, fileBytes_congr attrs (same.content inum)]
    exact carries.files inum reached leaf

/-- An unused inode is not in the tree. -/
theorem fresh (unused : (fs.current inum).type = T_UNUSE_INODE_MYFUSE) : ¬ tree.Reached inum :=
  fun reached => carries.covers.used reached unused

end Carries

/-! Changes of the tree. -/

/-- At most two inodes changed, and one of them is a directory with these entries. -/
structure Relisted (origin : Origin) (base floor refs : Nat → Int) (dir other : Nat) (entries : PartialMap DirName Nat) (fs after : FS) : Prop where
  goes : Goes origin base floor refs (fun inum => inum = dir ∨ inum = other) fs after
  presents : after.Presents dir (some entries)
  nlink : (after.current dir).nlink = (fs.current dir).nlink

/-- Later steps leave the directory alone. -/
theorem Relisted.follow {base' refs' : Nat → Int} {entries : PartialMap DirName Nat} {other : Nat}
    (relisted : Relisted origin base' floor refs dir other entries fs middle) (goes : Goes origin base floor refs' (· = other) middle after)
    (inside : dir < fs.sb.ninodes) (apart : dir ≠ other) : Relisted origin base floor refs' dir other entries fs after := by
  have attrs := goes.files.attrs dir (relisted.goes.files.sb ▸ inside) apart
  exact ⟨(goes.mono (fun _ => Int.le_refl _) fun _ => .inr).follow relisted.goes, relisted.presents.congr attrs (goes.files.content dir apart),
    attrs.nlink.trans relisted.nlink⟩

/-- So do earlier ones. -/
theorem Relisted.precede {base' refs' : Nat → Int} {entries : PartialMap DirName Nat} {other : Nat}
    (relisted : Relisted origin base floor refs dir other entries middle after) (goes : Goes origin base' floor refs' (· = other) fs middle)
    (inside : dir < fs.sb.ninodes) (apart : dir ≠ other) : Relisted origin base floor refs dir other entries fs after :=
  ⟨relisted.goes.follow (goes.mono (fun _ => Int.le_refl _) fun _ => .inr), relisted.presents, relisted.nlink.trans (goes.files.attrs dir inside apart).nlink⟩

theorem Relisted.mono {floor' : Nat → Int} {entries : PartialMap DirName Nat} {other : Nat}
    (relisted : Relisted origin base floor refs dir other entries fs after) (fewer : ∀ ip, floor' ip ≤ floor ip) :
    Relisted origin base floor' refs dir other entries fs after :=
  ⟨relisted.goes.mono fewer fun _ => id, relisted.presents, relisted.nlink⟩

theorem Rewrote.relisted {slots' : Dirents} (wrote : Rewrote origin base floor refs dp slots' fs after) (table : fs.TableOk)
    (loaded : fs.Loaded dp) (distinct : slots'.Distinct) (other : Nat) : Relisted origin base floor refs (fs.inode dp).inum other (entriesOf slots') fs after := by
  have copy := current_loaded wrote.goes.tended.table wrote.hand.loaded
  have bytes := wrote.hand.directory.bytes
  rw [wrote.inum] at copy bytes
  refine ⟨wrote.goes.mono (fun _ => Int.le_refl _) fun _ => .inl, ⟨?_, slots', ⟨?_, bytes, wrote.hand.directory.few⟩, distinct, rfl⟩, ?_⟩
  · rw [copy]
    exact wrote.hand.isDir
  · rw [copy]
    exact wrote.hand.directory.size
  · rw [copy, current_loaded table loaded, wrote.nlink]

/-- A new inode has its name now. -/
theorem Carries.attaches {name : DirName} {entries : PartialMap DirName Nat} {kind : Option (PartialMap DirName Nat)} (carries : fs.Carries tree)
    (files : SameFiles (fun other => other = dir ∨ other = inum) fs after) (reached : tree.Reached dir) (directory : tree.names dir = some entries)
    (free : entries name = none) (fresh : ¬ tree.Reached inum) (inside : inum < fs.sb.ninodes) (bare : NameTree.Bare kind)
    (listed : after.Presents dir (some (entries.insert name inum))) (nlink : (after.current dir).nlink = (fs.current dir).nlink)
    {type : BitVec 16} (presents : after.Presents inum kind) (blank : after.Blank inum type 1) (file : kind = none → type = T_FILE_INODE_MYFUSE) :
    after.Carries (tree.attach dir name inum kind) := by
  have free : tree.names.child dir name = none := (NameTree.child_some directory).trans free
  have isSome : (tree.names dir).isSome := by
    rw [directory]
    rfl
  have reached_iff : ∀ other, (tree.attach dir name inum kind).Reached other ↔ tree.Reached other ∨ other = inum :=
    NameTree.reached_attach reached isSome free bare fresh
  have apart : dir ≠ inum := fun same => fresh (same ▸ reached)
  have self : (tree.attach dir name inum kind).names inum = kind := assign_self ..
  have parent : (tree.attach dir name inum kind).names dir = some (entries.insert name inum) := NameTree.attach_parent directory apart
  have others : ∀ other, other ≠ dir → other ≠ inum → (tree.attach dir name inum kind).names other = tree.names other :=
    fun other apart apart' => NameTree.attach_of_ne apart apart'
  have once : ∀ other, (tree.attach dir name inum kind).Reached other → (after.current other).nlink = 1 := by
    intro other there
    by_cases new : other = inum
    · rw [new]
      exact blank.nlink
    · have there := ((reached_iff other).mp there).resolve_right new
      by_cases here : other = dir
      · rw [here, nlink]
        exact carries.once dir reached
      · rw [(files.attrs other (carries.covers.inside other there) fun either => either.elim here new).nlink]
        exact carries.once other there
  refine ⟨⟨fun other there => ?_, fun other there => ?_, fun other there => ?_, fun other there next edge => ?_⟩,
    carries.single.attach reached isSome free bare fresh, once, fun other there leaf => ?_⟩
  · rw [files.sb]
    cases (reached_iff other).mp there with
    | inl there => exact carries.covers.inside other there
    | inr here => exact here ▸ inside
  · rw [once other there]
    decide
  · by_cases new : other = inum
    · rw [new, self]
      exact presents
    · by_cases here : other = dir
      · rw [here, parent]
        exact listed
      · have there := ((reached_iff other).mp there).resolve_right new
        have kept : ¬ (other = dir ∨ other = inum) := fun either => either.elim here new
        rw [others other here new]
        exact (carries.covers.presents other there).congr (files.attrs other (carries.covers.inside other there) kept) (files.content other kept)
  · exact Relation.ReflTransGen.tail there edge
  · by_cases new : other = inum
    · rw [new] at leaf ⊢
      refine ⟨blank.type.trans (file (self.symm.trans leaf)), ?_⟩
      rw [fileBytes, blank.size]
      exact (assign_self ..).symm
    · have here : other ≠ dir := by
        intro here
        rw [here, parent] at leaf
        cases leaf
      have there := ((reached_iff other).mp there).resolve_right new
      have kept : ¬ (other = dir ∨ other = inum) := fun either => either.elim here new
      have attrs := files.attrs other (carries.covers.inside other there) kept
      have bytes : (tree.attach dir name inum kind).bytes other = tree.bytes other := assign_of_ne new ..
      rw [others other here new] at leaf
      rw [attrs.type, fileBytes_congr attrs (files.content other kept), bytes]
      exact carries.files other there leaf

/-- A name is gone, and the inode with it. -/
theorem Carries.unlinks {name : DirName} {entries : PartialMap DirName Nat} (carries : fs.Carries tree)
    (files : SameFiles (fun other => other = dir ∨ other = inum) fs after) (reached : tree.Reached dir) (directory : tree.names dir = some entries)
    (found : entries name = some inum) (listed : after.Presents dir (some (entries.erase name)))
    (nlink : (after.current dir).nlink = (fs.current dir).nlink) : after.Carries (tree.unlink dir name) := by
  have child : tree.names.child dir name = some inum := (NameTree.child_some directory).trans found
  have still : ∀ other, (tree.unlink dir name).Reached other → tree.Reached other := fun _ => NameTree.reached_of_unlink
  have lost : ∀ other, (tree.unlink dir name).Reached other → other ≠ inum := by
    intro other there same
    exact carries.single.unlinked reached child (same ▸ there)
  have parent : (tree.unlink dir name).names dir = some (entries.erase name) := by
    show assign tree.names dir _ dir = _
    rw [assign_self, directory]
    rfl
  have others : ∀ other, other ≠ dir → (tree.unlink dir name).names other = tree.names other := fun other apart => assign_of_ne apart ..
  have once : ∀ other, (tree.unlink dir name).Reached other → (after.current other).nlink = 1 := by
    intro other there
    by_cases here : other = dir
    · rw [here, nlink]
      exact carries.once dir reached
    · rw [(files.attrs other (carries.covers.inside other (still other there)) fun either => either.elim here (lost other there)).nlink]
      exact carries.once other (still other there)
  refine ⟨⟨fun other there => ?_, fun other there => ?_, fun other there => ?_, fun other there next edge => ?_⟩, carries.single.unlink, once, fun other there leaf => ?_⟩
  · rw [files.sb]
    exact carries.covers.inside other (still other there)
  · rw [once other there]
    decide
  · by_cases here : other = dir
    · rw [here, parent]
      exact listed
    · have kept : ¬ (other = dir ∨ other = inum) := fun either => either.elim here (lost other there)
      rw [others other here]
      exact (carries.covers.presents other (still other there)).congr (files.attrs other (carries.covers.inside other (still other there)) kept) (files.content other kept)
  · exact Relation.ReflTransGen.tail there edge
  · have here : other ≠ dir := by
      intro here
      rw [here, parent] at leaf
      cases leaf
    have kept : ¬ (other = dir ∨ other = inum) := fun either => either.elim here (lost other there)
    have attrs := files.attrs other (carries.covers.inside other (still other there)) kept
    rw [others other here] at leaf
    rw [attrs.type, fileBytes_congr attrs (files.content other kept)]
    exact carries.files other (still other there) leaf

end FS
end Myfuse
