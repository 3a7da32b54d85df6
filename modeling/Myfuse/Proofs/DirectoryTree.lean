import Myfuse.Proofs.LinkedTree
import Myfuse.Proofs.RenameOutcome

/-! The tree of names of a state between two calls, and the start and the walks of a call on it. -/

namespace Myfuse
open Library Library.Exec

namespace FS
variable {origin : Origin} {base refs : Nat → Int} {fs middle after : FS} {ip inum : Nat} {slots : Dirents} {nodes : Set Nat} {tree : NameTree Nat DirName}

open Classical in
/-- The entries of the directories of a state. -/
noncomputable def names (fs : FS) : NameTree Nat DirName := fun inum =>
  if found : (fs.current inum).type = T_DIR_INODE_MYFUSE ∧ ∃ slots : Dirents, fs.DirectoryOf inum slots then some (entriesOf found.2.choose) else none

/-- A directory has one list of slots. -/
theorem DirectoryOf.unique {slots' : Dirents} (first : fs.DirectoryOf inum slots) (second : fs.DirectoryOf inum slots') : slots = slots' := by
  have lengths : slots.length = slots'.length := Nat.eq_of_mul_eq_mul_left (by decide) (first.size.symm.trans second.size)
  have bytes := second.bytes
  rw [← lengths, first.bytes] at bytes
  exact direntsBytes_injective bytes

theorem Presents.names {listed : Option (PartialMap DirName Nat)} (presents : fs.Presents inum listed) : fs.names inum = listed := by
  cases listed with
  | none =>
    apply dif_neg
    intro found
    cases presents with
    | inl file => exact absurd (file.symm.trans found.1) (by decide)
    | inr device => exact absurd (device.symm.trans found.1) (by decide)
  | some entries =>
    obtain ⟨isDir, slots, directory, -, rfl⟩ := presents
    have found : (fs.current inum).type = T_DIR_INODE_MYFUSE ∧ ∃ slots : Dirents, fs.DirectoryOf inum slots := ⟨isDir, slots, directory⟩
    rw [FS.names, dif_pos found, found.2.choose_spec.unique directory]

theorem Covers.names (covers : fs.Covers nodes tree) (node : inum ∈ nodes) : fs.names inum = tree inum := (covers.presents inum node).names

/-- Paths resolve in the state as they do in a tree that covers the root. -/
theorem Covers.walk (covers : fs.Covers nodes tree) {start : Nat} (node : start ∈ nodes) (keys : List DirName) : fs.names.walk start keys = tree.walk start keys :=
  NameTree.walk_agree (fun _ => covers.names) covers.closed keys node

theorem Covers.walk_inside (covers : fs.Covers nodes tree) {start : Nat} (node : start ∈ nodes) {keys : List DirName} (walked : tree.walk start keys = some inum) :
    inum ∈ nodes := by
  induction keys generalizing start with
  | nil => exact Option.some.inj walked ▸ node
  | cons key rest ih =>
    rw [NameTree.walk_cons] at walked
    obtain ⟨next, found, walked⟩ := Option.bind_eq_some_iff.mp walked
    exact ih (covers.closed start node next ⟨key, found⟩) walked

theorem Covers.parent (covers : fs.Covers nodes tree) {start : Nat} (node : start ∈ nodes) (keys : List DirName) : fs.names.parent start keys = tree.parent start keys := by
  unfold NameTree.parent
  rw [covers.walk node]
  cases keys.getLast? with
  | none => rfl
  | some last =>
    cases walked : tree.walk start keys.dropLast with
    | none => rfl
    | some dir =>
      show (if (fs.names dir).isSome then _ else _) = if (tree dir).isSome then _ else _
      rw [covers.names (covers.walk_inside node walked)]

/-- What is reached from the root by names. -/
def reachedNodes (fs : FS) : Set Nat := { inum | fs.names.Reached ROOTINO inum }

/-- What is reached from the root is a tree of linked inodes, whose directories have no name twice. -/
structure DirTree (fs : FS) : Prop where
  covers : fs.Covers fs.reachedNodes fs.names
  single : fs.names.Single ROOTINO

theorem root_reached (fs : FS) : ROOTINO ∈ fs.reachedNodes := .refl

/-- The inode a path leads to. -/
noncomputable def resolve (fs : FS) (path : List Byte) : Option Nat := fs.names.walk ROOTINO (keysOf path)

/-- The directory with the last name of a path, and that name. -/
noncomputable def resolveParent (fs : FS) (path : List Byte) : Option (Nat × DirName) := fs.names.parent ROOTINO (keysOf path)

/-- Every inode has the same type, links, size and contents. -/
structure Unchanged (fs after : FS) : Prop where
  sb : after.sb = fs.sb
  attrs : ∀ inum < fs.sb.ninodes, SameAttrs (fs.current inum) (after.current inum)
  content : ∀ inum, after.content inum = fs.content inum

theorem Unchanged.trans (first : Unchanged fs middle) (second : Unchanged middle after) : Unchanged fs after where
  sb := second.sb.trans first.sb
  attrs inum inside := (first.attrs inum inside).trans (second.attrs inum (first.sb ▸ inside))
  content inum := (second.content inum).trans (first.content inum)

theorem SameFiles.unchanged (files : SameFiles (fun _ => False) fs after) : Unchanged fs after :=
  ⟨files.sb, fun inum inside => files.attrs inum inside id, fun inum => files.content inum id⟩

theorem Unmoved.unchanged (same : Unmoved fs after) : Unchanged fs after where
  sb := same.sb
  attrs inum _ := by
    rw [same.current]
    exact .refl _
  content inum := by rw [same.content]

/-- Between two calls. -/
structure Between (fs : FS) : Prop where
  ready : fs.Ready
  mounted : Mounted fs
  idle : fs.log.outstanding = 0
  counts : ∀ ip, 0 ≤ (fs.inode ip).ref

/-- The references between calls. -/
def refsOf (fs : FS) : Nat → Int := fun ip => (fs.inode ip).ref

theorem Covers.unchanged (covers : fs.Covers nodes tree) (same : Unchanged fs after) : after.Covers nodes tree where
  inside inum node := same.sb ▸ covers.inside inum node
  linked inum node := by
    rw [(same.attrs inum (covers.inside inum node)).nlink]
    exact covers.linked inum node
  presents inum node := (covers.presents inum node).congr (same.attrs inum (covers.inside inum node)) (same.content inum)
  closed := covers.closed

/-- A call begins with the references that are there. -/
theorem Between.begins (between : fs.Between) (covers : fs.Covers nodes tree) :
    Ensures beginOp fs (fun _ after => OnTree (fs.here False False False) fs.refsOf fs.refsOf nodes tree after ∧ Unchanged fs after) fun _ _ => True := by
  apply (between.ready.begins.and (beginOp_leaves between.mounted.books)).mono
  · intro _ after both
    obtain ⟨⟨usable, same, -, outstanding⟩, books⟩ := both
    have refs : ∀ ip, (after.inode ip).ref = fs.refsOf ip := fun ip => by rw [same.inode]; rfl
    refine ⟨⟨⟨usable, ?_, ⟨_, books, rfl⟩, between.counts, fun _ => Int.le_refl _, fun ip loaded => .inl ?_⟩, covers.unchanged same.unchanged, fun ip ours => ?_⟩,
      same.unchanged⟩
    · rw [outstanding, between.idle]
      decide
    · have held := loaded.1.2
      rw [refs] at held
      exact held
    · exact absurd ours (Int.lt_irrefl _)
  · exact fun _ _ _ => trivial

/-- A path is walked to its inode. -/
theorem OnTree.walks (on : OnTree origin base refs nodes tree fs) (plain : origin.Plain) (root : ROOTINO ∈ nodes) (path : List Byte) :
    Ensures (path2inode path) fs
      (fun found after => OnTree origin base (plusPtr refs found) nodes tree after ∧ Stays refs fs after ∧ Unchanged fs after ∧
        found.map (fun ip => (after.inode ip).inum) = tree.walk ROOTINO (keysOf path))
      fun _ _ => True := by
  apply (path2inode_goes plain on.tended on.covers root path).weaken
  intro found after walked
  obtain ⟨goes, reached⟩ := walked
  refine ⟨on.finds goes fun ip here => ?_, goes.stays, goes.files.unchanged, reached⟩
  rw [here] at reached
  exact on.covers.walk_inside root reached.symm

/-- A path is walked to its parent directory. -/
theorem OnTree.walksParent (on : OnTree origin base refs nodes tree fs) (plain : origin.Plain) (root : ROOTINO ∈ nodes) (path : List Byte) :
    Ensures (path2parentinode path) fs
      (fun found after => OnTree origin base (plusPtr refs (found.map Prod.fst)) nodes tree after ∧ Stays refs fs after ∧ Unchanged fs after ∧
        found.map (fun place => ((after.inode place.1).inum, DirName.of place.2)) = tree.parent ROOTINO (keysOf path))
      fun _ _ => True := by
  apply (path2parentinode_goes plain on.tended on.covers root path).weaken
  intro found after walked
  obtain ⟨goes, reached⟩ := walked
  refine ⟨on.finds goes fun ip here => ?_, goes.stays, goes.files.unchanged, reached⟩
  obtain ⟨place, rfl, rfl⟩ := Option.map_eq_some_iff.mp here
  unfold NameTree.parent at reached
  obtain ⟨last, -, rest⟩ := Option.bind_eq_some_iff.mp reached.symm
  obtain ⟨node, walked, chosen⟩ := Option.bind_eq_some_iff.mp rest
  split at chosen
  next =>
    obtain ⟨rfl, -⟩ := Prod.mk.inj (Option.some.inj chosen)
    exact on.covers.walk_inside root walked
  next => cases chosen

theorem Covers.reached_iff (covers : fs.Covers nodes tree) (root : ROOTINO ∈ nodes) : fs.names.Reached ROOTINO inum ↔ tree.Reached ROOTINO inum := by
  constructor
  · intro reached
    obtain ⟨keys, walked⟩ := NameTree.walk_of_reached reached
    rw [covers.walk root] at walked
    exact NameTree.reached_of_walk walked
  · intro reached
    obtain ⟨keys, walked⟩ := NameTree.walk_of_reached reached
    rw [← covers.walk root] at walked
    exact NameTree.reached_of_walk walked

/-- A tree with one way to every inode, that covers the root. -/
theorem DirTree.of_covers (covers : fs.Covers nodes tree) (root : ROOTINO ∈ nodes) (single : tree.Single ROOTINO) : fs.DirTree := by
  have inside : ∀ inum ∈ fs.reachedNodes, inum ∈ nodes := by
    intro inum reached
    obtain ⟨keys, walked⟩ := NameTree.walk_of_reached reached
    exact covers.walk_inside root ((covers.walk root keys).symm.trans walked)
  have child : ∀ {inum : Nat} {name : DirName}, fs.names.Reached ROOTINO inum → fs.names.child inum name = tree.child inum name := by
    intro inum name reached
    rw [NameTree.child, covers.names (inside inum reached), ← NameTree.child]
  refine ⟨⟨?_, ?_, ?_, ?_⟩, ⟨?_, ?_⟩⟩
  · exact fun inum reached => covers.inside inum (inside inum reached)
  · exact fun inum reached => covers.linked inum (inside inum reached)
  · intro inum reached
    rw [covers.names (inside inum reached)]
    exact covers.presents inum (inside inum reached)
  · exact fun inum reached other edge => Relation.ReflTransGen.tail reached edge
  · intro first second other key key' reached reached' found found'
    rw [child reached] at found
    rw [child reached'] at found'
    exact single.once ((covers.reached_iff root).mp reached) ((covers.reached_iff root).mp reached') found found'
  · intro node key reached found
    rw [child reached] at found
    exact single.root ((covers.reached_iff root).mp reached) found

/-- A call ends with the references it began with. -/
theorem OnTree.ends (on : OnTree origin base base nodes tree fs) :
    Ensures endOp fs (fun _ after => after.log.outstanding = 0 → after.Between ∧ after.Covers nodes tree) fun _ _ => True := by
  obtain ⟨account, books, refs⟩ := on.tended.books
  apply (on.tended.usable.ends.and (endOp_leaves books)).mono
  · intro _ after both idle
    obtain ⟨⟨usable, same, -, -⟩, books'⟩ := both
    refine ⟨⟨usable.ready, books'.1.mounted, idle, fun ip => ?_⟩, on.covers.unchanged same.unchanged⟩
    rw [same.inode, books.ref, refs]
    exact on.tended.unsigned ip
  · exact fun _ _ _ => trivial

/-! A disk with two files in the root directory. -/

/-- The names `/a` and `/b` are linked. -/
def linkTwo : M Int := do
  beginOp
  let ip ← iget ROOTINO
  ilock ip
  let _ ← dirlink ip [97] 17
  let _ ← dirlink ip [98] 33
  iunlock ip
  iput ip
  endOp
  let fs ← get
  pure fs.log.outstanding

def unnamedFiles : FS :=
  fresh (initSuperBlock 2000) (withFile (initSuperBlock 2000) 33 (smallImage (initSuperBlock 2000) 17)) fun _ => Inode.zero

def twoFiles : FS := (linkTwo unnamedFiles).2

def emptyRoot : NameTree Nat DirName := fun inum => if inum = ROOTINO then some fun _ => none else none

theorem emptyRoot_child (inum : Nat) (name : DirName) : emptyRoot.child inum name = none := by
  rw [NameTree.child, emptyRoot]
  split
  next => rfl
  next => rfl

def twoNames : NameTree Nat DirName := (emptyRoot.linkNew ROOTINO (.of [97]) 17).linkNew ROOTINO (.of [98]) 33

theorem unnamedFiles_between : unnamedFiles.Between := by
  have wellFormed : unnamedFiles.WellFormed := by
    apply (smallDisk_blockless.withFile smallDisk_layout (by decide)).fresh_wellFormed smallDisk_layout (by decide) (by decide) (by decide)
    · exact fun _ => rfl
    · exact fun _ _ referenced => absurd referenced (by decide)
    · exact fun _ _ _ _ referenced => absurd referenced (by decide)
  refine ⟨wellFormed.ready, ⟨by decide +kernel, fun _ _ => ⟨rfl, rfl⟩, fun _ _ pointer => by cases pointer⟩, by decide +kernel, fun _ => Int.le_refl 0⟩

/-- The root and the files. -/
def threeNodes : Set Nat := { inum | inum = ROOTINO ∨ inum = 17 ∨ inum = 33 }

theorem unnamedFiles_covers : unnamedFiles.Covers threeNodes emptyRoot := by
  have known : (unnamedFiles.current ROOTINO).type = T_DIR_INODE_MYFUSE ∧ (unnamedFiles.current ROOTINO).nlink = 1 ∧ (unnamedFiles.current ROOTINO).size = 0 ∧
      (unnamedFiles.current 17).type = T_FILE_INODE_MYFUSE ∧ (unnamedFiles.current 17).nlink = 1 ∧
      (unnamedFiles.current 33).type = T_FILE_INODE_MYFUSE ∧ (unnamedFiles.current 33).nlink = 1 ∧ unnamedFiles.sb.ninodes = 656 := by decide +kernel
  obtain ⟨isDir, linked, empty, file, linked', file', linked'', ninodes⟩ := known
  constructor
  · intro inum node
    rw [ninodes]
    obtain rfl | rfl | rfl := node
    · decide
    · decide
    · decide
  · intro inum node
    obtain rfl | rfl | rfl := node
    · rw [linked]
      decide
    · rw [linked']
      decide
    · rw [linked'']
      decide
  · intro inum node
    obtain rfl | rfl | rfl := node
    · exact ⟨isDir, [], ⟨empty, rfl, by decide⟩, List.nodup_nil, rfl⟩
    · exact .inl file
    · exact .inl file'
  · intro inum _ other edge
    obtain ⟨name, found⟩ := edge
    rw [emptyRoot_child] at found
    cases found

theorem twoNames_child (inum : Nat) (name : DirName) : twoNames.child inum name =
    if inum = ROOTINO ∧ name = .of [98] then some 33 else if inum = ROOTINO ∧ name = .of [97] then some 17 else none := by
  have directory : (emptyRoot ROOTINO).isSome := rfl
  have first : ∀ inum name, (emptyRoot.linkNew ROOTINO (.of [97]) 17).child inum name = if inum = ROOTINO ∧ name = .of [97] then some 17 else none := by
    intro inum name
    rw [NameTree.child_linkNew directory, emptyRoot_child, emptyRoot_child]
    simp only [and_true]
  have missing : (emptyRoot.linkNew ROOTINO (.of [97]) 17).child ROOTINO (.of [98]) = none := by
    rw [first]
    decide
  rw [twoNames, NameTree.child_linkNew (by rw [NameTree.isSome_linkNew]; exact directory), missing, first]
  simp only [and_true]

theorem twoNames_edge {inum other : Nat} {name : DirName} (found : twoNames.child inum name = some other) :
    inum = ROOTINO ∧ (name = .of [98] ∧ other = 33 ∨ name = .of [97] ∧ other = 17) := by
  rw [twoNames_child] at found
  split at found
  next last =>
    cases found
    exact ⟨last.1, .inl ⟨last.2, rfl⟩⟩
  next =>
    split at found
    next last =>
      cases found
      exact ⟨last.1, .inr ⟨last.2, rfl⟩⟩
    next => cases found

theorem twoNames_single : twoNames.Single ROOTINO := by
  constructor
  · intro first second other key key' _ _ found found'
    obtain ⟨rfl, ⟨rfl, rfl⟩ | ⟨rfl, rfl⟩⟩ := twoNames_edge found
    · obtain ⟨rfl, ⟨rfl, -⟩ | ⟨-, other⟩⟩ := twoNames_edge found'
      · exact ⟨rfl, rfl⟩
      · exact absurd other (by decide)
    · obtain ⟨rfl, ⟨-, other⟩ | ⟨rfl, -⟩⟩ := twoNames_edge found'
      · exact absurd other (by decide)
      · exact ⟨rfl, rfl⟩
  · intro node key _ found
    obtain ⟨-, ⟨-, other⟩ | ⟨-, other⟩⟩ := twoNames_edge found
    · exact absurd other (by decide)
    · exact absurd other (by decide)

/-- The two links, in a tree that has the root and the inodes. -/
theorem linkTwo_covers (between : fs.Between) (covers : fs.Covers nodes tree) (root : ROOTINO ∈ nodes) (directory : (tree ROOTINO).isSome)
    (first : 17 ∈ nodes) (second : 33 ∈ nodes) :
    Ensures linkTwo fs (fun outstanding after => outstanding = 0 → after.Between ∧
      after.Covers nodes ((tree.linkNew ROOTINO (.of [97]) 17).linkNew ROOTINO (.of [98]) 33)) fun _ _ => True := by
  have plain := fs.here_plain
  apply Ensures.bind (between.begins covers)
  intro _ _ began
  apply Ensures.bind ((iget_goes began.1.tended (fun _ => Int.le_refl _) (began.1.covers.inside _ root)).mono (fun _ _ got => got) fun _ _ => False.elim)
  intro ip started got
  obtain ⟨goes, names⟩ := got
  have ours := ours_own rfl (Int.le_refl (fs.refsOf ip))
  have goes : Goes _ _ fs.refsOf (plusPtr fs.refsOf (some ip)) (fun _ => False) _ started := goes
  have on := began.1.finds goes fun other here => by
    obtain rfl := Option.some.inj here
    exact names ▸ root
  have held := on.held ours
  apply Ensures.bind (on.locks ours)
  intro _ _ locked
  obtain ⟨turns, loaded⟩ := locked
  have at_root := (turns.names held).trans names
  obtain ⟨entries, found⟩ := Option.isSome_iff_exists.mp directory
  rw [← at_root] at found
  apply Ensures.bind (turns.on.links plain ours loaded found [97] ⟨17, by decide⟩ first)
  intro _ linked turns'
  rw [at_root] at turns'
  have loaded := turns'.loaded held loaded
  have at_root := (turns'.names held).trans at_root
  rw [← NameTree.isSome_linkNew tree ROOTINO 17 ROOTINO (.of [97])] at directory
  obtain ⟨entries, found⟩ := Option.isSome_iff_exists.mp directory
  have found : (tree.linkNew ROOTINO (.of [97]) 17) (linked.inode ip).inum = some entries := by
    rw [at_root]
    exact found
  apply Ensures.bind (turns'.on.links plain ours loaded found [98] ⟨33, by decide⟩ second)
  intro _ _ turns
  rw [at_root] at turns
  apply Ensures.bind (turns.on.unlocks ip)
  intro _ _ turns
  have on : OnTree _ _ (plus fs.refsOf ip) nodes _ _ := turns.on
  apply Ensures.bind ((on.puts fun _ => Int.le_refl _).mono (fun _ _ on => on) fun _ _ => False.elim)
  intro _ _ on
  apply Ensures.bind on.ends
  intro _ _ ended
  rw [ensures_bind, ensures_get, ensures_pure]
  exact ended

/-- The files have their names, between two calls. -/
theorem twoFiles_between : twoFiles.Between ∧ twoFiles.Covers threeNodes twoNames := by
  have computed : valueOf linkTwo unnamedFiles = some 0 := by decide +kernel
  exact (linkTwo_covers unnamedFiles_between unnamedFiles_covers (.inl rfl) rfl (.inr (.inl rfl)) (.inr (.inr rfl))).returned (returns_of_valueOf computed) rfl

theorem twoFiles_tree : twoFiles.DirTree := .of_covers twoFiles_between.2 (.inl rfl) twoNames_single

theorem twoFiles_types : (twoFiles.current 17).type = T_FILE_INODE_MYFUSE ∧ (twoFiles.current 33).type = T_FILE_INODE_MYFUSE := by decide +kernel

theorem twoFiles_resolve (path : List Byte) : twoFiles.resolve path = twoNames.walk ROOTINO (keysOf path) :=
  twoFiles_between.2.walk (.inl rfl) _

theorem twoFiles_a : twoFiles.resolve [47, 97] = some 17 := by
  rw [twoFiles_resolve]
  decide

theorem twoFiles_b : twoFiles.resolve [47, 98] = some 33 := by
  rw [twoFiles_resolve]
  decide

theorem twoFiles_parent (path : List Byte) : twoFiles.resolveParent path = twoNames.parent ROOTINO (keysOf path) :=
  twoFiles_between.2.parent (.inl rfl) _

end FS
end Myfuse
