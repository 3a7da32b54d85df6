import Myfuse.Proofs.Namespace

/-! A tree of names all of whose inodes have links: walks leave it alone, and setting or
clearing an entry changes it at one directory. -/

namespace Myfuse
open Library Library.Exec

namespace FS
variable {α : Type} {origin : Origin} {base floor refs : Nat → Int} {gone : Nat → Prop} {fs now middle after : FS} {ip dp inum : Nat} {slots : Dirents}
  {nodes : Set Nat} {tree : NameTree Nat DirName} {entries : PartialMap DirName Nat}

/-- The entries of a directory with these slots. -/
def entriesOf (slots : Dirents) : PartialMap DirName Nat := fun name => (slots.toMap name).map Subtype.val

/-- The inode is a file, or a directory with these entries and no name twice. -/
def Presents (fs : FS) (inum : Nat) : Option (PartialMap DirName Nat) → Prop
  | none => (fs.current inum).type = T_FILE_INODE_MYFUSE ∨ (fs.current inum).type = T_DEVICE_INODE_MYFUSE
  | some entries => (fs.current inum).type = T_DIR_INODE_MYFUSE ∧ ∃ slots : Dirents, fs.DirectoryOf inum slots ∧ slots.Distinct ∧ entries = entriesOf slots

/-- These inodes have links, and the tree has their entries, which do not lead out of them. -/
structure Covers (fs : FS) (nodes : Set Nat) (tree : NameTree Nat DirName) : Prop where
  inside : ∀ inum ∈ nodes, inum < fs.sb.ninodes
  linked : ∀ inum ∈ nodes, (fs.current inum).nlink ≠ 0
  presents : ∀ inum ∈ nodes, fs.Presents inum (tree inum)
  closed : ∀ inum ∈ nodes, ∀ other, tree.Edge inum other → other ∈ nodes

theorem Presents.congr {listed : Option (PartialMap DirName Nat)} (lists : fs.Presents inum listed) (attrs : SameAttrs (fs.current inum) (after.current inum))
    (content : after.content inum = fs.content inum) : after.Presents inum listed := by
  cases listed with
  | none => exact lists.imp attrs.type.trans attrs.type.trans
  | some entries =>
    obtain ⟨isDir, slots, directory, distinct, map⟩ := lists
    exact ⟨attrs.type.trans isDir, slots, ⟨attrs.size.trans directory.size, by rw [content, directory.bytes], directory.few⟩, distinct, map⟩

theorem Presents.directory_iff {listed : Option (PartialMap DirName Nat)} (lists : fs.Presents inum listed) :
    (fs.current inum).type = T_DIR_INODE_MYFUSE ↔ listed.isSome := by
  cases listed with
  | none =>
    apply iff_of_false
    · intro isDir
      cases lists with
      | inl file => exact absurd (file.symm.trans isDir) (by decide)
      | inr device => exact absurd (device.symm.trans isDir) (by decide)
    · simp
  | some entries => exact iff_of_true lists.1 rfl

namespace Covers

/-- Nothing changed. -/
theorem same (covers : fs.Covers nodes tree) (files : SameFiles (fun _ => False) fs after) : after.Covers nodes tree where
  inside inum node := files.sb ▸ covers.inside inum node
  linked inum node := by
    rw [(files.attrs inum (covers.inside inum node) id).nlink]
    exact covers.linked inum node
  presents inum node := (covers.presents inum node).congr (files.attrs inum (covers.inside inum node) id) (files.content inum id)
  closed := covers.closed

/-- One inode changed, and names inodes of the set. -/
theorem change {tree' : NameTree Nat DirName} (covers : fs.Covers nodes tree) (files : SameFiles (· = inum) fs after)
    (linked : (after.current inum).nlink ≠ 0) (elsewhere : ∀ other, other ≠ inum → tree' other = tree other) (lists : after.Presents inum (tree' inum))
    (closed : ∀ other, tree'.Edge inum other → other ∈ nodes) : after.Covers nodes tree' where
  inside other member := files.sb ▸ covers.inside other member
  linked other member := by
    by_cases here : other = inum
    · exact here ▸ linked
    · rw [(files.attrs other (covers.inside other member) here).nlink]
      exact covers.linked other member
  presents other member := by
    by_cases here : other = inum
    · rw [here]
      exact lists
    · rw [elsewhere other here]
      exact (covers.presents other member).congr (files.attrs other (covers.inside other member) here) (files.content other here)
  closed other member next edge := by
    by_cases here : other = inum
    · exact closed next (here ▸ edge)
    · apply covers.closed other member next
      obtain ⟨name, found⟩ := edge
      refine ⟨name, ?_⟩
      rw [NameTree.child, elsewhere other here] at found
      exact found

/-- One directory changed. -/
theorem update (covers : fs.Covers nodes tree) (files : SameFiles (· = inum) fs after) (linked : (after.current inum).nlink ≠ 0)
    (lists : after.Presents inum (some entries)) (closed : ∀ name other, entries name = some other → other ∈ nodes) :
    after.Covers nodes (assign tree inum (some entries)) := by
  apply covers.change files linked
  · exact fun other apart => assign_of_ne apart ..
  · rw [assign_self]
    exact lists
  · intro other edge
    obtain ⟨name, found⟩ := edge
    rw [NameTree.child_some (assign_self ..)] at found
    exact closed name other found

/-- The inodes that a directory names. -/
theorem named (covers : fs.Covers nodes tree) (node : inum ∈ nodes) (directory : tree inum = some (entriesOf slots)) (distinct : slots.Distinct) : fs.Named slots := by
  have member : ∀ other ∈ slots.values, other.1 ∈ nodes := by
    intro other value
    obtain ⟨name, inside⟩ := Slots.mem_values.mp value
    apply covers.closed inum node
    refine ⟨name, ?_⟩
    rw [NameTree.child_some directory, entriesOf, Slots.toMap_of_mem distinct inside]
    rfl
  exact ⟨fun other value => covers.inside _ (member other value), fun other value => covers.linked _ (member other value)⟩

/-- An entry has a number that fits. -/
theorem inum_of (covers : fs.Covers nodes tree) (node : inum ∈ nodes) {name : DirName} {other : Nat} (child : tree.child inum name = some other) :
    ∃ value : Inum, value.1 = other := by
  have lists := covers.presents inum node
  cases directory : tree inum with
  | none =>
    rw [NameTree.child_leaf directory] at child
    cases child
  | some entries =>
    rw [directory] at lists
    obtain ⟨-, slots, -, -, rfl⟩ := lists
    rw [NameTree.child_some directory] at child
    obtain ⟨value, -, same⟩ := Option.map_eq_some_iff.mp child
    exact ⟨value, same⟩

/-- A directory of the tree that is held and read. -/
theorem hand (covers : fs.Covers nodes tree) (table : fs.TableOk) (held : 0 < refs dp) (loaded : fs.Loaded dp) (node : (fs.inode dp).inum ∈ nodes)
    (directory : tree (fs.inode dp).inum = some entries) : ∃ slots, InHand refs fs dp slots ∧ slots.Distinct ∧ entries = entriesOf slots ∧ fs.Named slots := by
  have lists := covers.presents _ node
  rw [directory] at lists
  obtain ⟨isDir, slots, bytes, distinct, rfl⟩ := lists
  rw [current_loaded table loaded] at isDir
  exact ⟨slots, ⟨held, loaded, isDir, bytes.loaded table loaded⟩, distinct, rfl, covers.named node directory distinct⟩

end Covers

/-! Walks. -/

theorem plus_comm (refs : Nat → Int) (first second : Nat) : plus (plus refs first) second = plus (plus refs second) first := by
  funext other
  unfold plus
  omega

/-- One reference more, if something was found. -/
def plusPtr (refs : Nat → Int) : Option Nat → Nat → Int
  | none => refs
  | some ip => plus refs ip

theorem le_plusPtr (refs : Nat → Int) (found : Option Nat) (ip : Nat) : refs ip ≤ plusPtr refs found ip := by
  cases found with
  | none => exact Int.le_refl _
  | some other => exact le_plus refs other ip

theorem plusPtr_own (refs : Nat → Int) (ip : Nat) : refs ip < plusPtr refs (some ip) ip := by
  show refs ip < plus refs ip ip
  rw [plus_self]
  omega

theorem plusPtr_comm (refs : Nat → Int) (first second : Option Nat) : plusPtr (plusPtr refs first) second = plusPtr (plusPtr refs second) first := by
  cases first with
  | none => rfl
  | some ip =>
    cases second with
    | none => rfl
    | some other => exact plus_comm refs ip other

theorem ours_plusPtr (ours : base ip < refs ip) (found : Option Nat) : base ip < plusPtr refs found ip :=
  Int.lt_of_lt_of_le ours (le_plusPtr refs found ip)

theorem ours_own {found : Option Nat} (here : found = some ip) (more : base ip ≤ refs ip) : base ip < plusPtr refs found ip :=
  here ▸ Int.lt_of_le_of_lt more (plusPtr_own refs ip)

theorem more_plusPtr (more : ∀ ip, base ip ≤ refs ip) (found : Option Nat) (ip : Nat) : base ip ≤ plusPtr refs found ip :=
  (more ip).trans (le_plusPtr refs found ip)

theorem entriesOf_put {name : DirName} {inum : Inum} (absent : name ∉ slots.keys) : entriesOf (slots.put (name, inum)) = (entriesOf slots).insert name inum.1 := by
  funext other
  unfold entriesOf
  rw [Slots.toMap_put absent]
  by_cases here : other = name
  · rw [here, PartialMap.insert_self, PartialMap.insert_self]
    rfl
  · rw [PartialMap.insert_of_ne _ _ here, PartialMap.insert_of_ne _ _ here]

theorem entriesOf_clear (distinct : slots.Distinct) (name : DirName) : entriesOf (slots.clear name) = (entriesOf slots).erase name := by
  funext other
  unfold entriesOf
  rw [Slots.toMap_clear distinct]
  by_cases here : other = name
  · rw [here, PartialMap.erase_self, PartialMap.erase_self]
    rfl
  · rw [PartialMap.erase_of_ne _ here, PartialMap.erase_of_ne _ here]

theorem entriesOf_none {name : DirName} : entriesOf slots name = none ↔ name ∉ slots.keys := by
  rw [entriesOf, Option.map_eq_none_iff, Slots.toMap_eq_none]

/-- An inode of the tree is unlocked and given back. -/
theorem iunlockput_goes (tended : Tended origin base (plus refs ip) fs) (more : ∀ ip, base ip ≤ refs ip) (covers : fs.Covers nodes tree)
    (node : (fs.inode ip).inum ∈ nodes) : Ensures (iunlockput ip) fs (fun _ after => Goes origin base refs refs (fun _ => False) fs after) fun _ _ => True := by
  have goes : Goes origin base (plus refs ip) (plus refs ip) (fun _ => False) fs (fs.setLocked ip false) := iunlock_goes tended
  have names : ((fs.setLocked ip false).inode ip).inum = (fs.inode ip).inum := by rw [setLocked_self]
  have linked := (covers.same goes.files).linked _ (names ▸ node)
  unfold iunlockput
  rw [ensures_bind, ensures_of_ok (iunlock_eq ip fs)]
  apply (iput_goes goes.tended more linked).mono
  · exact fun _ _ put => (goes.mono (le_plus refs ip) fun _ => id).trans put
  · exact fun _ _ => False.elim

/-- The loop of a walk over linked inodes. -/
theorem namexFrom_goes (plain : origin.Plain) (nameiparent : Bool) (names : List Name) (tended : Tended origin base (plus refs ip) fs)
    (more : ∀ ip, base ip ≤ refs ip) (covers : fs.Covers nodes tree) (node : (fs.inode ip).inum ∈ nodes) :
    Ensures (namexFrom nameiparent names ip) fs
      (fun found after => Goes origin base refs (plusPtr refs (found.map Prod.fst)) (fun _ => False) fs after ∧
        found.map (fun place => ((after.inode place.1).inum, place.2)) = target (tree.comap DirName.of) nameiparent (fs.inode ip).inum names)
      fun _ _ => True := by
  induction names generalizing ip fs with
  | nil =>
    unfold namexFrom target
    cases nameiparent with
    | true =>
      apply Ensures.bind ((iput_goes tended more (covers.linked _ node)).mono (fun _ _ put => put) fun _ _ => False.elim)
      exact fun _ _ put => (ensures_pure _).mpr ⟨put, rfl⟩
    | false => exact (ensures_pure _).mpr ⟨(Goes.refl tended).mono (le_plus refs ip) fun _ => id, rfl⟩
  | cons name rest ih =>
    have held : 0 < plus refs ip ip := by
      have := tended.unsigned ip
      have := more ip
      rw [plus_self]
      omega
    unfold namexFrom
    apply Ensures.bind (ilock_goes tended held)
    intro _ now locked
    obtain ⟨goes, loaded⟩ := locked
    have goes : Goes origin base (plus refs ip) (plus refs ip) (fun _ => False) fs now := goes
    have so := goes.mono (le_plus refs ip) fun _ => id
    have names := goes.stays.inum ip held
    have covers := covers.same goes.files
    have table := goes.tended.table
    rw [← names] at node ⊢
    have kind := (covers.presents _ node).directory_iff
    rw [current_loaded table loaded] at kind
    rw [ensures_bind, ensures_get]
    cases directory : tree (now.inode ip).inum with
    | none =>
      have leaf : tree.comap DirName.of (now.inode ip).inum = none := by
        rw [NameTree.comap, directory]
        rfl
      rw [directory] at kind
      rw [if_pos fun isDir => Bool.false_ne_true (kind.mp isDir), target_leaf leaf]
      apply Ensures.bind (iunlockput_goes goes.tended more covers node)
      exact fun _ _ left => (ensures_pure _).mpr ⟨so.trans left, rfl⟩
    | some entries =>
      rw [directory] at kind
      rw [if_neg (not_not.mpr (kind.mpr rfl))]
      by_cases last : nameiparent = true ∧ rest = []
      · obtain ⟨rfl, rfl⟩ := last
        have branch : (tree.comap DirName.of (now.inode ip).inum).isSome := by
          rw [NameTree.comap, directory]
          rfl
        have unlocked : Goes origin base refs (plus refs ip) (fun _ => False) now (now.setLocked ip false) := iunlock_goes goes.tended
        rw [if_pos ⟨rfl, rfl⟩, ensures_bind, ensures_of_ok (iunlock_eq ip now), ensures_pure, target, if_pos rfl, NameTree.parent_singleton, if_pos branch]
        refine ⟨so.trans unlocked, ?_⟩
        rw [Option.map_some, setLocked_self]
      · rw [if_neg last, target_step last, NameTree.child_comap]
        obtain ⟨slots, hand, -, rfl, named⟩ := covers.hand table held loaded node directory
        apply Ensures.bind (hand.looksUp plain goes.tended (fun _ => Int.le_refl _) named.inside name)
        intro answer looked either
        have child : tree.child (now.inode ip).inum (.of name) = entriesOf slots (.of name) := NameTree.child_some directory
        obtain ⟨missing, rfl, goes'⟩ | ⟨inum, place, np, found, rfl, goes', other⟩ := either
        · have none : entriesOf slots (.of name) = none := by
            rw [entriesOf, Slots.toMap, missing]
            rfl
          rw [child, none]
          have same := goes'.stays.inum ip held
          apply Ensures.bind (iunlockput_goes goes'.tended more (covers.same goes'.files) (same ▸ node))
          exact fun _ _ left => (ensures_pure _).mpr ⟨(so.trans (goes'.mono (le_plus refs ip) fun _ => id)).trans left, rfl⟩
        · have there : entriesOf slots (.of name) = some inum.1 := by
            rw [entriesOf, Slots.toMap, found]
            rfl
          have same := goes'.stays.inum ip held
          have covers := covers.same goes'.files
          have next : inum.1 ∈ nodes := covers.closed _ node inum.1 ⟨.of name, child.trans there⟩
          rw [child, there]
          have exchanged := goes'.tended
          rw [plus_comm] at exchanged
          apply Ensures.bind (iunlockput_goes exchanged (fun other => Int.le_trans (more other) (le_plus refs np other)) covers (same ▸ node))
          intro _ left put
          have np_held : 0 < plus refs np np := by
            have := tended.unsigned np
            have := more np
            rw [plus_self]
            omega
          have named' := put.stays.inum np np_held
          rw [other] at named'
          have walked := so.trans ((goes'.mono (le_plus refs ip) fun _ => id).trans (put.mono (le_plus refs np) fun _ => id))
          have rest := ih put.tended (covers.same put.files) (named' ▸ next)
          rw [named'] at rest
          exact rest.weaken fun _ _ reached => ⟨walked.trans reached.1, reached.2⟩

theorem namex_goes (plain : origin.Plain) (tended : Tended origin base refs fs) (covers : fs.Covers nodes tree) (root : ROOTINO ∈ nodes) (path : List Byte)
    (nameiparent : Bool) : Ensures (namex path nameiparent) fs
      (fun found after => Goes origin base refs (plusPtr refs (found.map Prod.fst)) (fun _ => False) fs after ∧
        found.map (fun place => ((after.inode place.1).inum, place.2)) = target (tree.comap DirName.of) nameiparent ROOTINO (components path))
      fun _ _ => True := by
  unfold namex
  split
  next =>
    rw [elements_components]
    apply Ensures.bind ((iget_goes tended (fun _ => Int.le_refl _) (covers.inside _ root)).mono (fun _ _ got => got) fun _ _ => False.elim)
    intro ip now got
    obtain ⟨goes, names⟩ := got
    have goes : Goes origin base refs (plus refs ip) (fun _ => False) fs now := goes
    have walks := namexFrom_goes plain nameiparent (components path) goes.tended tended.more (covers.same goes.files) (names ▸ root)
    rw [names] at walks
    exact walks.weaken fun _ _ reached => ⟨goes.trans reached.1, reached.2⟩
  next => exact (ensures_stop _).mpr trivial

/-- The components of a path, as they are stored. -/
def keysOf (path : List Byte) : List DirName := (components path).map DirName.of

theorem path2inode_goes (plain : origin.Plain) (tended : Tended origin base refs fs) (covers : fs.Covers nodes tree) (root : ROOTINO ∈ nodes) (path : List Byte) :
    Ensures (path2inode path) fs
      (fun found after => Goes origin base refs (plusPtr refs found) (fun _ => False) fs after ∧
        found.map (fun ip => (after.inode ip).inum) = tree.walk ROOTINO (keysOf path))
      fun _ _ => True := by
  apply Ensures.bind (namex_goes plain tended covers root path false)
  intro found after walked
  obtain ⟨goes, reached⟩ := walked
  refine (ensures_pure _).mpr ⟨goes, ?_⟩
  rw [keysOf, ← NameTree.walk_comap, ← target_walk, ← reached, Option.map_map, Option.map_map]
  rfl

theorem path2parentinode_goes (plain : origin.Plain) (tended : Tended origin base refs fs) (covers : fs.Covers nodes tree) (root : ROOTINO ∈ nodes)
    (path : List Byte) : Ensures (path2parentinode path) fs
      (fun found after => Goes origin base refs (plusPtr refs (found.map Prod.fst)) (fun _ => False) fs after ∧
        found.map (fun place => ((after.inode place.1).inum, DirName.of place.2)) = tree.parent ROOTINO (keysOf path))
      fun _ _ => True := by
  apply (namex_goes plain tended covers root path true).weaken
  intro found after walked
  obtain ⟨goes, reached⟩ := walked
  refine ⟨goes, ?_⟩
  rw [target, if_pos rfl] at reached
  rw [keysOf, ← NameTree.parent_comap, ← reached, Option.map_map]
  rfl

/-! Calls on the tree. -/

/-- The call holds entries of inodes of the tree. -/
structure OnTree (origin : Origin) (base refs : Nat → Int) (nodes : Set Nat) (tree : NameTree Nat DirName) (fs : FS) : Prop where
  tended : Tended origin base refs fs
  covers : fs.Covers nodes tree
  points : ∀ ip, base ip < refs ip → (fs.inode ip).inum ∈ nodes

/-- The call goes on with the same entries, and with this tree. -/
structure Turns (origin : Origin) (base refs : Nat → Int) (nodes : Set Nat) (tree : NameTree Nat DirName) (fs after : FS) : Prop where
  on : OnTree origin base refs nodes tree after
  stays : Stays refs fs after

theorem Turns.trans {tree' : NameTree Nat DirName} (first : Turns origin base refs nodes tree fs middle) (second : Turns origin base refs nodes tree' middle after) :
    Turns origin base refs nodes tree' fs after := ⟨second.on, first.stays.trans second.stays⟩

theorem Turns.names (turns : Turns origin base refs nodes tree fs after) (held : 0 < refs ip) : (after.inode ip).inum = (fs.inode ip).inum :=
  turns.stays.inum ip held

theorem Turns.loaded (turns : Turns origin base refs nodes tree fs after) (held : 0 < refs ip) (loaded : fs.Loaded ip) : after.Loaded ip :=
  ⟨turns.on.tended.live_iff.mpr held, turns.stays.valid ip held loaded.2⟩

namespace OnTree
variable (on : OnTree origin base refs nodes tree fs)
include on

theorem held (ours : base ip < refs ip) : 0 < refs ip := Int.lt_of_le_of_lt (on.tended.unsigned ip) ours

/-- Steps that change nothing. -/
theorem turns (goes : Goes origin base refs refs (fun _ => False) fs after) : Turns origin base refs nodes tree fs after := by
  refine ⟨⟨goes.tended, on.covers.same goes.files, fun ip ours => ?_⟩, goes.stays⟩
  rw [goes.stays.inum ip (on.held ours)]
  exact on.points ip ours

/-- A walk ends at an inode of the tree. -/
theorem finds {found : Option Nat} (goes : Goes origin base refs (plusPtr refs found) (fun _ => False) fs after)
    (member : ∀ ip, found = some ip → (after.inode ip).inum ∈ nodes) : OnTree origin base (plusPtr refs found) nodes tree after := by
  refine ⟨goes.tended, on.covers.same goes.files, fun ip ours => ?_⟩
  by_cases here : found = some ip
  · exact member ip here
  · have same : plusPtr refs found ip = refs ip := by
      cases found with
      | none => rfl
      | some other => exact plus_of_ne fun equal => here (congrArg some equal.symm)
    rw [same] at ours
    rw [goes.stays.inum ip (on.held ours)]
    exact on.points ip ours

theorem locks (ours : base ip < refs ip) :
    Ensures (ilock ip) fs (fun _ after => Turns origin base refs nodes tree fs after ∧ after.Loaded ip) fun _ _ => True :=
  (ilock_goes on.tended (on.held ours)).weaken fun _ _ locked => ⟨on.turns locked.1, locked.2⟩

theorem unlocks (ip : Nat) : Ensures (iunlock ip) fs (fun _ after => Turns origin base refs nodes tree fs after) fun _ _ => True := by
  rw [ensures_of_ok (iunlock_eq ip fs)]
  exact on.turns (iunlock_goes on.tended)

/-- A directory of the tree that is held and read. -/
theorem takes (ours : base dp < refs dp) (loaded : fs.Loaded dp) (directory : tree (fs.inode dp).inum = some entries) :
    ∃ slots, InHand refs fs dp slots ∧ slots.Distinct ∧ entries = entriesOf slots ∧ fs.Named slots :=
  on.covers.hand on.tended.table (on.held ours) loaded (on.points dp ours) directory

/-- The directory is rewritten. -/
theorem rewrites {slots' : Dirents} (ours : base dp < refs dp) (hand : InHand refs fs dp slots) (wrote : Rewrote origin base refs refs dp slots' fs after)
    (distinct : slots'.Distinct) (closed : ∀ name other, entriesOf slots' name = some other → other ∈ nodes) :
    Turns origin base refs nodes (assign tree (fs.inode dp).inum (some (entriesOf slots'))) fs after := by
  have table := wrote.goes.tended.table
  have copy := current_loaded table wrote.hand.loaded
  rw [wrote.inum] at copy
  have linked := on.covers.linked _ (on.points dp ours)
  rw [current_loaded on.tended.table hand.loaded] at linked
  have bytes := wrote.hand.directory.bytes
  rw [wrote.inum] at bytes
  refine ⟨⟨wrote.goes.tended, on.covers.update wrote.goes.files ?_ ⟨?_, slots', ⟨?_, bytes, wrote.hand.directory.few⟩, distinct, rfl⟩ closed, fun ip ours => ?_⟩,
    wrote.goes.stays⟩
  · rw [copy, wrote.nlink]
    exact linked
  · rw [copy]
    exact wrote.hand.isDir
  · rw [copy]
    exact wrote.hand.directory.size
  · rw [wrote.goes.stays.inum ip (on.held ours)]
    exact on.points ip ours

theorem named (ours : base dp < refs dp) (directory : tree (fs.inode dp).inum = some entries) {name : DirName} {other : Nat} (found : entries name = some other) :
    other ∈ nodes := by
  apply on.covers.closed _ (on.points dp ours)
  exact ⟨name, (NameTree.child_some directory).trans found⟩

/-- An entry is cleared. -/
theorem drops (plain : origin.Plain) (ours : base dp < refs dp) (loaded : fs.Loaded dp) (directory : tree (fs.inode dp).inum = some entries) (name : Name) :
    Ensures (dropDirent dp name) fs
      (fun _ after => tree.child (fs.inode dp).inum (.of name) ≠ none ∧
        Turns origin base refs nodes (tree.unlink (fs.inode dp).inum (.of name)) fs after)
      fun _ _ => True := by
  obtain ⟨slots, hand, distinct, rfl, named⟩ := on.takes ours loaded directory
  apply (hand.drops plain on.tended named name).weaken
  intro _ after dropped
  obtain ⟨present, wrote⟩ := dropped
  have cleared := entriesOf_clear distinct (.of name)
  rw [NameTree.child_some directory, NameTree.unlink, directory, Option.map_some, ← cleared]
  refine ⟨fun none => entriesOf_none.mp none present, ?_⟩
  apply on.rewrites ours hand wrote (distinct.clear _)
  intro other next found
  rw [cleared] at found
  by_cases here : other = .of name
  · rw [here, PartialMap.erase_self] at found
    cases found
  · rw [PartialMap.erase_of_ne _ here] at found
    exact on.named ours directory found

/-- A missing name is linked to an inode of the tree. -/
theorem links (plain : origin.Plain) (ours : base dp < refs dp) (loaded : fs.Loaded dp) (directory : tree (fs.inode dp).inum = some entries) (name : Name)
    (inum : Inum) (node : inum.1 ∈ nodes) :
    Ensures (dirlink dp name inum.1) fs
      (fun _ after => Turns origin base refs nodes (tree.linkNew (fs.inode dp).inum (.of name) inum.1) fs after) fun _ _ => True := by
  obtain ⟨slots, hand, distinct, rfl, named⟩ := on.takes ours loaded directory
  apply (hand.links plain on.tended named name inum).weaken
  intro _ after linked
  unfold NameTree.linkNew
  rw [NameTree.child_some directory]
  obtain ⟨present, -, goes⟩ | ⟨absent, -, wrote⟩ := linked
  · rw [if_neg fun none => entriesOf_none.mp (Option.isNone_iff_eq_none.mp none) present]
    exact on.turns goes
  · have put : entriesOf (slots.put (.of name, inum)) = (entriesOf slots).insert (.of name) inum.1 := entriesOf_put absent
    rw [if_pos (Option.isNone_iff_eq_none.mpr (entriesOf_none.mpr absent)), NameTree.link, directory, Option.map_some, ← put]
    apply on.rewrites ours hand wrote (distinct.put absent)
    intro other next found
    rw [put] at found
    by_cases here : other = .of name
    · rw [here, PartialMap.insert_self] at found
      exact Option.some.inj found ▸ node
    · rw [PartialMap.insert_of_ne _ _ here] at found
      exact on.named ours directory found

end OnTree

/-! A file that is taken for a directory. -/

/-- An inode of some type, held and read. -/
structure Grips (refs : Nat → Int) (fs : FS) (ip : Nat) : Prop where
  held : 0 < refs ip
  loaded : fs.Loaded ip
  used : (fs.inode ip).copy.type ≠ T_UNUSE_INODE_MYFUSE

namespace Grips
variable (grips : Grips refs fs ip)
include grips

theorem goes (table : fs.TableOk) (goes : Goes origin base refs refs (fun _ => False) fs after) : Grips refs after ip := by
  have loaded := goes.loaded grips.held (Int.le_refl _) grips.loaded
  have attrs := goes.files.attrs _ (table.inside ip grips.loaded.1) id
  have copy := current_loaded goes.tended.table loaded
  rw [goes.stays.inum ip grips.held] at copy
  rw [current_loaded table grips.loaded, copy] at attrs
  exact ⟨grips.held, loaded, attrs.type ▸ grips.used⟩

/-- `dirlookup` may find anything in the bytes of a file. -/
theorem looksUp (plain : origin.Plain) (tended : Tended origin base refs fs) (name : Name) :
    Ensures (dirlookup ip name) fs
      (fun answer after => (answer = none ∧ Goes origin base refs refs (fun _ => False) fs after) ∨
        ∃ np off other middle, ∃ account : Account, answer = some (np, off) ∧ Goes origin base refs refs (fun _ => False) fs middle ∧ Got other middle np after ∧
          Books (account.hold np) after ∧ account.refs = refs)
      fun _ _ => True := by
  unfold dirlookup
  rw [ensures_bind, ensures_get]
  dsimp only
  apply Ensures.bind (tended.reads plain grips.held grips.loaded grips.used _ 0)
  intro data middle goes
  split
  next => exact (ensures_stop _).mpr trivial
  next =>
    split
    next => exact (ensures_stop _).mpr trivial
    next => exact (ensures_pure _).mpr (.inl ⟨rfl, goes⟩)
    next other off _ =>
      obtain ⟨account, books, rfl⟩ := goes.tended.books
      apply Ensures.bind (((iget_spec books.initialized other).and (iget_leaves books other)).mono (fun _ _ both => both) fun _ _ both => both.1.elim)
      intro np after both
      exact (ensures_pure _).mpr (.inr ⟨np, off, other, middle, account, rfl, goes, both.1, both.2, rfl⟩)

theorem placed (plain : origin.Plain) (tended : Tended origin base refs fs) :
    Ensures (dirlinkOffset ip) fs (fun _ after => Goes origin base refs refs (fun _ => False) fs after) fun _ _ => True := by
  unfold dirlinkOffset
  rw [ensures_bind, ensures_get]
  dsimp only
  split
  next =>
    apply Ensures.bind (tended.reads plain grips.held grips.loaded grips.used _ 0)
    intro data middle goes
    split
    next => exact (ensures_stop _).mpr trivial
    next =>
      split
      next => exact (ensures_stop _).mpr trivial
      next =>
        split
        next => exact (ensures_stop _).mpr trivial
        next => exact (ensures_pure _).mpr goes
  next => exact (ensures_pure _).mpr (.refl tended)

/-- `dirlink` changes this inode only, and not its type or its links. -/
theorem links (plain : origin.Plain) (tended : Tended origin base refs fs) (name : Name) (inum : Nat) :
    Ensures (dirlink ip name inum) fs
      (fun _ after => Goes origin base refs refs (· = (fs.inode ip).inum) fs after ∧ (after.current (fs.inode ip).inum).type = (fs.inode ip).copy.type ∧
        (after.current (fs.inode ip).inum).nlink = (fs.inode ip).copy.nlink)
      fun _ _ => True := by
  have table := tended.table
  have copy := current_loaded table grips.loaded
  have inside := table.inside ip grips.loaded.1
  unfold dirlink
  apply Ensures.bind (grips.looksUp plain tended name)
  intro answer looked either
  obtain ⟨rfl, goes⟩ | ⟨np, off, other, middle, account, rfl, goes, got, books, rfl⟩ := either
  · have grips' := grips.goes table goes
    apply Ensures.bind (grips'.placed plain goes.tended)
    intro off current placed
    have goes := goes.trans placed
    have grips' := grips.goes table goes
    have same := goes.files.attrs _ inside id
    have names := goes.stays.inum ip grips.held
    have copy' := current_loaded goes.tended.table grips'.loaded
    rw [names] at copy'
    rw [copy, copy'] at same
    have memory : (direntBytes inum name).length < 2 ^ 63 := by
      rw [length_direntBytes]
      decide
    apply Ensures.bind (goes.tended.writes plain grips.held grips'.loaded grips'.used memory off)
    intro count after wrote
    split
    next => exact (ensures_stop _).mpr trivial
    next =>
      obtain ⟨wrote, type, nlink⟩ := wrote
      rw [names] at wrote
      have last := current_loaded wrote.tended.table (wrote.loaded grips.held (Int.le_refl _) grips'.loaded)
      rw [wrote.stays.inum ip grips.held, names] at last
      refine (ensures_pure _).mpr ⟨(goes.mono (fun _ => Int.le_refl _) fun _ => False.elim).trans wrote, ?_, ?_⟩
      · rw [last, type, same.type]
      · rw [last, nlink, same.nlink]
  · apply Ensures.bind ((got.puts.and (iput_back books)).mono (fun _ _ both => both) fun _ _ both => both.1.elim)
    intro _ after both
    obtain ⟨same, books⟩ := both
    have goes := goes.trans (same.goes goes.tended (fun _ => Int.le_refl _) ⟨account, books, rfl⟩)
    have attrs := goes.files.attrs _ inside id
    rw [copy] at attrs
    exact (ensures_pure _).mpr ⟨goes.mono (fun _ => Int.le_refl _) fun _ => False.elim, attrs.type, attrs.nlink⟩

end Grips

/-- A link that goes into a file leaves the tree. -/
theorem OnTree.scrawls (on : OnTree origin base refs nodes tree fs) (plain : origin.Plain) (ours : base ip < refs ip) (loaded : fs.Loaded ip)
    (leaf : tree (fs.inode ip).inum = none) (name : Name) (inum : Nat) :
    Ensures (dirlink ip name inum) fs (fun _ after => Turns origin base refs nodes tree fs after) fun _ _ => True := by
  have node := on.points ip ours
  have copy := current_loaded on.tended.table loaded
  have kind := on.covers.presents _ node
  have linked := on.covers.linked _ node
  rw [leaf] at kind
  have grips : Grips refs fs ip := by
    refine ⟨on.held ours, loaded, ?_⟩
    rw [← copy]
    cases kind with
    | inl file =>
      rw [file]
      decide
    | inr device =>
      rw [device]
      decide
  apply (grips.links plain on.tended name inum).weaken
  intro _ after wrote
  obtain ⟨goes, type, nlink⟩ := wrote
  rw [← copy] at type nlink
  refine ⟨⟨goes.tended, ?_, fun other ours => ?_⟩, goes.stays⟩
  · apply on.covers.change goes.files
    · rw [nlink]
      exact linked
    · exact fun _ _ => rfl
    · rw [leaf]
      exact kind.imp type.trans type.trans
    · exact on.covers.closed _ node
  · rw [goes.stays.inum other (on.held ours)]
    exact on.points other ours

/-- A directory is locked for a link. -/
theorem OnTree.linksIn (on : OnTree origin base refs nodes tree fs) (plain : origin.Plain) (ours : base dp < refs dp)
    (directory : (tree (fs.inode dp).inum).isSome) (name : Name) (inum : Inum) (node : inum.1 ∈ nodes) :
    Ensures (do
      ilock dp
      let _ ← dirlink dp name inum.1
      iunlock dp
      pure (0 : Int)) fs
      (fun _ after => Turns origin base refs nodes (tree.linkNew (fs.inode dp).inum (.of name) inum.1) fs after) fun _ _ => True := by
  obtain ⟨entries, directory⟩ := Option.isSome_iff_exists.mp directory
  apply Ensures.bind (on.locks ours)
  intro _ first locked
  obtain ⟨turns, loaded⟩ := locked
  have names := turns.names (on.held ours)
  rw [← names] at directory ⊢
  apply Ensures.bind (turns.on.links plain ours loaded directory name inum node)
  intro _ second linked
  have turns := turns.trans linked
  apply Ensures.bind (turns.on.unlocks dp)
  exact fun _ _ left => (ensures_pure _).mpr (turns.trans left)

/-- A file is locked for a link. -/
theorem OnTree.scrawlsIn (on : OnTree origin base refs nodes tree fs) (plain : origin.Plain) (ours : base ip < refs ip)
    (leaf : tree (fs.inode ip).inum = none) (name : Name) (inum : Nat) :
    Ensures (do
      ilock ip
      let _ ← dirlink ip name inum
      iunlock ip
      pure (0 : Int)) fs (fun _ after => Turns origin base refs nodes tree fs after) fun _ _ => True := by
  apply Ensures.bind (on.locks ours)
  intro _ first locked
  obtain ⟨turns, loaded⟩ := locked
  rw [← turns.names (on.held ours)] at leaf
  apply Ensures.bind (turns.on.scrawls plain ours loaded leaf name inum)
  intro _ second scrawled
  have turns := turns.trans scrawled
  apply Ensures.bind (turns.on.unlocks ip)
  exact fun _ _ left => (ensures_pure _).mpr (turns.trans left)

/-! References given back. -/

/-- The tree stays while references are given back. -/
theorem OnTree.puts (on : OnTree origin base (plus refs ip) nodes tree fs) (more : ∀ ip, base ip ≤ refs ip) :
    Ensures (iput ip) fs (fun _ after => OnTree origin base refs nodes tree after) fun _ _ => False := by
  have ours : base ip < plus refs ip ip := by
    have := more ip
    rw [plus_self]
    omega
  apply (iput_goes on.tended more (on.covers.linked _ (on.points ip ours))).mono
  · intro _ after goes
    have goes : Goes origin base refs refs (fun _ => False) fs after := goes
    refine ⟨goes.tended, on.covers.same goes.files, fun other ours => ?_⟩
    rw [goes.stays.inum other (Int.lt_of_le_of_lt (on.tended.unsigned other) ours)]
    exact on.points other (Int.lt_of_lt_of_le ours (le_plus refs ip other))
  · exact fun _ _ => False.elim

theorem OnTree.putsSome {found : Option Nat} (on : OnTree origin base (plusPtr refs found) nodes tree fs) (more : ∀ ip, base ip ≤ refs ip) :
    Ensures (iputSome found) fs (fun _ after => OnTree origin base refs nodes tree after) fun _ _ => False := by
  cases found with
  | none => exact (ensures_pure _).mpr on
  | some ip => exact on.puts more

end FS
end Myfuse
