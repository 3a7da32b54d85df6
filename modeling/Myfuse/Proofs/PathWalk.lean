import Mathlib.Data.List.TakeWhile
import Myfuse.Library.NameTree
import Myfuse.Proofs.CallBalance
import Myfuse.Proofs.DirectoryMap
import Myfuse.Proofs.References

/-! Path resolution: the scanner finds the components of a path, and the walk looks them up
in turn in the tree of names, with one reference to the inode it is at. -/

namespace Myfuse
open Library Library.Exec

/-- The non-empty parts of a path between its slashes, each cut to `DIRSIZE` bytes. -/
def components (path : List Byte) : List Name := ((path.splitOn slash).filter (· ≠ [])).map (List.take DIRSIZE)

theorem components_slash (path : List Byte) : components (slash :: path) = components path := by
  unfold components
  rw [List.splitOn_cons_eq_if_modifyHead, if_pos (beq_self_eq_true slash)]
  rfl

theorem components_dropWhile (path : List Byte) : components (path.dropWhile (· = slash)) = components path := by
  induction path with
  | nil => rfl
  | cons char rest ih =>
    by_cases here : char = slash
    · rw [here, components_slash, ← ih, List.dropWhile_cons, if_pos (decide_eq_true rfl)]
    · rw [List.dropWhile_cons, if_neg (by simpa using here)]

/-- A part without slashes, up to the end or the next slash. -/
theorem components_chars {chars rest : List Byte} (plain : slash ∉ chars) (some : chars ≠ []) (ends : ∀ char, rest.head? = Option.some char → char = slash) :
    components (chars ++ rest) = chars.take DIRSIZE :: components rest := by
  have first : ∀ parts, ((chars :: parts).filter (· ≠ [])).map (List.take DIRSIZE) = chars.take DIRSIZE :: (parts.filter (· ≠ [])).map (List.take DIRSIZE) := by
    intro parts
    rw [List.filter_cons, if_pos (by simpa using some), List.map_cons]
  cases rest with
  | nil =>
    rw [List.append_nil]
    unfold components
    rw [List.splitOn_eq_singleton plain, first]
    rfl
  | cons char rest =>
    obtain rfl : char = slash := ends char rfl
    rw [components_slash]
    unfold components
    rw [List.splitOn_append_cons_self_of_not_mem plain, first]

/-- One round of the scanner takes the first component. -/
theorem skipelem_components (path : List Byte) :
    (skipelem path = none ∧ components path = []) ∨
      ∃ name rest, skipelem path = some (name, rest) ∧ components path = name :: components rest ∧ rest.length < path.length := by
  have shorter := (path.dropWhile_suffix (· = slash)).length_le
  have notSlash := path.head?_dropWhile_not (· = slash)
  unfold skipelem
  rw [← components_dropWhile path]
  cases starts : path.dropWhile (· = slash) with
  | nil => exact .inl ⟨rfl, rfl⟩
  | cons char rest =>
    rw [starts] at shorter notSlash
    have other : decide (char ≠ slash) = true := by simpa using notSlash
    have ends := rest.head?_dropWhile_not (· ≠ slash)
    have left := (rest.dropWhile_suffix (· ≠ slash)).length_le
    have past := ((rest.dropWhile (· ≠ slash)).dropWhile_suffix (· = slash)).length_le
    refine .inr ⟨_, _, rfl, ?_, ?_⟩
    · rw [List.takeWhile_cons, if_pos other, List.dropWhile_cons, if_pos other, components_dropWhile]
      rw [← components_chars ?plain (List.cons_ne_nil _ _) ?next, List.cons_append, List.takeWhile_append_dropWhile]
      case plain =>
        intro inside
        rcases List.mem_cons.mp inside with rfl | inside
        · exact absurd other (by decide)
        · exact absurd (List.mem_takeWhile_imp inside) (by decide)
      case next =>
        intro next found
        rw [found] at ends
        simpa using ends
    · rw [List.dropWhile_cons, if_pos other]
      exact Nat.lt_of_le_of_lt (past.trans left) shorter

theorem elementsFrom_components (count : Nat) (path : List Byte) (enough : path.length ≤ count) : elementsFrom count path = components path := by
  induction count generalizing path with
  | zero =>
    rw [List.eq_nil_of_length_eq_zero (Nat.le_zero.mp enough)]
    rfl
  | succ count ih =>
    rw [elementsFrom]
    obtain ⟨ended, empty⟩ | ⟨name, rest, found, first, shorter⟩ := skipelem_components path
    · rw [ended, empty]
    · rw [found, first]
      exact congrArg (name :: ·) (ih rest (by omega))

/-- The scanner finds the components of a path. -/
theorem elements_components (path : List Byte) : elements path = components path := elementsFrom_components _ path (Nat.le_refl _)

namespace FS
variable {origin : Origin} {tree : NameTree Nat Name} {account : Account} {start fs now middle after : FS} {ip inum : Nat} {name : Name}

/-! The tree of names in a state. -/

/-- The bytes of the inode are these slots. -/
structure DirectoryOf (fs : FS) (inum : Nat) (slots : Dirents) : Prop where
  size : (fs.current inum).size = direntSize * slots.length
  bytes : bytesFrom (fs.content inum) 0 (direntSize * slots.length) = direntsBytes slots
  few : slots.length ≤ MAXDIRENTS

/-- The inode is a file, or a directory with these entries. -/
def Shows (fs : FS) (inum : Nat) : Option (PartialMap Name Nat) → Prop
  | none => (fs.current inum).type = T_FILE_INODE_MYFUSE ∨ (fs.current inum).type = T_DEVICE_INODE_MYFUSE
  | some entries => (fs.current inum).type = T_DIR_INODE_MYFUSE ∧
      ∃ slots : Dirents, fs.DirectoryOf inum slots ∧ entries = fun name => (slots.toMap (.of name)).map Subtype.val

/-- What is reached from the root is the tree. -/
structure HasTree (fs : FS) (tree : NameTree Nat Name) : Prop where
  inside : ∀ inum, tree.Reached ROOTINO inum → inum < fs.sb.ninodes
  shows : ∀ inum, tree.Reached ROOTINO inum → fs.Shows inum (tree inum)

theorem Shows.congr {entries : Option (PartialMap Name Nat)} (shows : fs.Shows inum entries) (attrs : SameAttrs (fs.current inum) (after.current inum))
    (content : after.content inum = fs.content inum) : after.Shows inum entries := by
  cases entries with
  | none => exact shows.imp attrs.type.trans attrs.type.trans
  | some entries =>
    obtain ⟨isDir, slots, directory, map⟩ := shows
    exact ⟨attrs.type.trans isDir, slots, ⟨attrs.size.trans directory.size, by rw [content, directory.bytes], directory.few⟩, map⟩

theorem Shows.directory_iff {entries : Option (PartialMap Name Nat)} (shows : fs.Shows inum entries) :
    (fs.current inum).type = T_DIR_INODE_MYFUSE ↔ entries.isSome := by
  cases entries with
  | none =>
    refine iff_of_false (fun isDir => ?_) (by simp)
    cases shows with
    | inl file => rw [isDir] at file; exact absurd file (by decide)
    | inr device => rw [isDir] at device; exact absurd device (by decide)
  | some entries => exact iff_of_true shows.1 rfl

theorem Shows.known {entries : Option (PartialMap Name Nat)} (shows : fs.Shows inum entries) :
    (fs.current inum).type = T_FILE_INODE_MYFUSE ∨ (fs.current inum).type = T_DIR_INODE_MYFUSE ∨ (fs.current inum).type = T_DEVICE_INODE_MYFUSE := by
  cases entries with
  | none => exact shows.imp_right .inr
  | some entries => exact .inr (.inl shows.1)

theorem DirectoryOf.loaded {slots : Dirents} (directory : fs.DirectoryOf (fs.inode ip).inum slots) (table : fs.TableOk) (loaded : fs.Loaded ip) :
    fs.Directory ip slots := by
  have size := directory.size
  rw [current_loaded table loaded] at size
  exact ⟨size, directory.bytes, directory.few⟩

/-! One step of a walk. -/

/-- Why a walk stops: the read of a directory on it does, an entry was locked before, or an inode without
links is freed on the way. -/
inductive WalkStops (tree : NameTree Nat Name) (start : FS) : Exit → FS → Prop where
  | read {reason : Exit} {after middle : FS} {dp : Nat} (loaded : middle.Loaded dp) (reached : tree.Reached ROOTINO (middle.inode dp).inum)
      (directory : (tree (middle.inode dp).inum).isSome)
      (stopped : inodeReadNbytesLocked dp (middle.inode dp).copy.size 0 middle = (.error reason, after)) : WalkStops tree start reason after
  | waits {after : FS} {ip : Nat} (locked : (start.inode ip).locked = true) : WalkStops tree start .blocked after
  | frees {reason : Exit} {after middle : FS} {ip : Nat} (loaded : middle.Loaded ip) (reached : tree.Reached ROOTINO (middle.inode ip).inum)
      (unlinked : (start.current (middle.inode ip).inum).nlink = 0) (stopped : iput ip middle = (.error reason, after)) : WalkStops tree start reason after

/-- The walk is at `inum`: all inodes are as they were, but for those above that were freed. -/
structure Walking (origin : Origin) (tree : NameTree Nat Name) (start : FS) (inum ip : Nat) (now : FS) : Prop where
  usable : now.Usable origin
  inOp : 1 ≤ now.log.outstanding
  reached : tree.Reached ROOTINO inum
  files : SameFiles (fun other => tree.Above other inum) start now
  own : now.Own ip 1
  names : (now.inode ip).inum = inum

namespace Walking
variable (walking : Walking origin tree start inum ip now)
include walking

theorem shows (acyclic : tree.Acyclic) (holds : start.HasTree tree) : now.Shows inum (tree inum) :=
  (holds.shows inum walking.reached).congr (walking.files.attrs inum (holds.inside inum walking.reached) (acyclic inum))
    (walking.files.content inum (acyclic inum))

theorem nlink (acyclic : tree.Acyclic) (holds : start.HasTree tree) : (now.current inum).nlink = (start.current inum).nlink :=
  (walking.files.attrs inum (holds.inside inum walking.reached) (acyclic inum)).nlink

theorem relock (locked : Bool) : Walking origin tree start inum ip (now.setLocked ip locked) := by
  have table := walking.usable.volume.table
  have same := setLocked_same table ip locked
  refine ⟨same.usable walking.usable, ?_, walking.reached, (walking.files.trans (same.files table)).mono fun _ => (Or.elim · id id),
    walking.own.relock locked, ?_⟩
  · rw [same.log]
    exact walking.inOp
  · rw [setLocked_self]
    exact walking.names

theorem fetched (fetched : Fetched ip now after) : Walking origin tree start inum ip after := by
  have table := walking.usable.volume.table
  refine ⟨fetched.usable walking.usable walking.own.live, ?_, walking.reached,
    (walking.files.trans (fetched.files table walking.own.live)).mono fun _ => (Or.elim · id id), fetched.own table walking.own, fetched.inum.trans walking.names⟩
  rw [fetched.log]
  exact walking.inOp

end Walking

/-- An inode of a known type is locked, unless it is locked already. -/
theorem ilock_takes (table : fs.TableOk) (live : fs.Live ip)
    (known : (fs.current (fs.inode ip).inum).type = T_FILE_INODE_MYFUSE ∨ (fs.current (fs.inode ip).inum).type = T_DIR_INODE_MYFUSE ∨
      (fs.current (fs.inode ip).inum).type = T_DEVICE_INODE_MYFUSE) :
    Ensures (ilock ip) fs (fun _ => Fetched ip fs) fun reason _ => reason = .blocked ∧ (fs.inode ip).locked = true := by
  have waits : Ensures (ilock ip) fs (fun _ _ => True) fun reason _ => (fs.inode ip).locked = true → reason = .blocked := by
    have used := live.2
    unfold ilock modifyInode
    rw [ensures_bind, ensures_get, if_neg (by omega), ensures_ite]
    exact ⟨fun _ => (ensures_stop _).mpr fun _ => rfl, fun free => ensures_true.mono (fun _ _ _ => trivial) fun _ _ _ locked => absurd locked free⟩
  apply ((ilock_fetches table live).and waits).mono
  · exact fun _ _ both => both.1
  · intro reason _ both
    obtain ⟨⟨notLockable, -⟩, waits⟩ := both
    have locked : (fs.inode ip).locked = true := by
      by_contra free
      refine notLockable ⟨Bool.eq_false_iff.mpr free, fun invalid => ?_⟩
      rw [current, entryOf_absent table live invalid] at known
      exact known
    exact ⟨waits locked, locked⟩

namespace Walking
variable (walking : Walking origin tree start inum ip now)
include walking

/-- The inode the walk is at is locked, if it was not locked before. -/
theorem locks (acyclic : tree.Acyclic) (holds : start.HasTree tree) (began : Books account start) (books : Books (account.hold ip) now) :
    Ensures (ilock ip) now
      (fun _ after => Walking origin tree start inum ip after ∧ after.Loaded ip ∧ Books ((account.hold ip).lock ip) after ∧ account.locks ip = false)
      (WalkStops tree start) := by
  have known := (walking.shows acyclic holds).known
  rw [← walking.names] at known
  apply ((ilock_takes walking.usable.volume.table walking.own.live known).and (ilock_leaves books ip)).mono
  · intro _ after both
    obtain ⟨fetched, locked⟩ := both
    exact ⟨walking.fetched fetched, fetched.loaded walking.own.live, locked⟩
  · intro reason _ both
    obtain ⟨⟨rfl, locked⟩, -⟩ := both
    exact .waits ((began.locked ip).trans ((books.locked ip).symm.trans locked))

/-- A reference that the walk gives back. -/
theorem iput (plain : origin.Plain) (acyclic : tree.Acyclic) (holds : start.HasTree tree) :
    Ensures (iput ip) now (fun _ => Put origin ip (· = inum) now) (WalkStops tree start) := by
  have given := iput_puts plain walking.usable walking.inOp walking.own
  rw [walking.names] at given
  apply ensures_of_forall
  · exact fun _ _ ran => given.returned ran
  · intro reason after stopped
    obtain ⟨loaded, unlinked, -⟩ := given.stopped stopped
    refine .frees loaded (by rw [walking.names]; exact walking.reached) ?_ stopped
    rw [walking.names, ← walking.nlink acyclic holds, ← walking.names, current_loaded walking.usable.volume.table loaded]
    exact unlinked

/-- The inode is a directory just when the tree has one there. -/
theorem directory_iff (acyclic : tree.Acyclic) (holds : start.HasTree tree) (loaded : now.Loaded ip) :
    (now.inode ip).copy.type = T_DIR_INODE_MYFUSE ↔ (tree inum).isSome := by
  rw [← (walking.shows acyclic holds).directory_iff, ← walking.names, current_loaded walking.usable.volume.table loaded]

/-- Work on the entry that writes its dinode back. -/
theorem steady (steady : Steady origin ip now after) (agrees : after.Agrees ip ∨ after = now) (loaded : now.Loaded ip)
    (used : (now.inode ip).copy.type ≠ T_UNUSE_INODE_MYFUSE) (small : (now.inode ip).copy.size < 2 ^ 64) : Walking origin tree start inum ip after := by
  refine ⟨steady.running.usable, steady.running.op.inOp, walking.reached,
    (walking.files.trans (steady.files walking.usable.volume.table loaded)).mono fun _ => (Or.elim · id id), ?_, steady.keeps.inum.trans walking.names⟩
  exact steady.own agrees loaded used small walking.own

end Walking


/-- A reference taken just now: what was read has others. -/
structure Taken (fs : FS) (inum ip : Nat) : Prop where
  live : fs.Live ip
  names : (fs.inode ip).inum = inum
  shared : (fs.inode ip).valid = true → 1 < (fs.inode ip).ref

theorem Got.taken (got : Got inum fs ip after) : after.Taken inum ip := by
  refine ⟨got.live, got.names, fun valid => ?_⟩
  cases got.entry with
  | inl known =>
    have used := known.1.2
    rw [known.2]
    dsimp only
    omega
  | inr fresh =>
    rw [fresh.2.2.2] at valid
    cases valid

theorem Taken.own (taken : fs.Taken inum ip) : fs.Own ip 1 := by
  have used := taken.live.2
  exact ⟨taken.live, by omega, fun valid => .inl (taken.shared valid)⟩

theorem Taken.congr (taken : fs.Taken inum ip) (ninode : after.ninode = fs.ninode) (entry : after.inode ip = fs.inode ip) : after.Taken inum ip := by
  refine ⟨?_, by rw [entry]; exact taken.names, by rw [entry]; exact taken.shared⟩
  rw [Live, ninode, entry]
  exact taken.live

namespace Walking
variable (walking : Walking origin tree start inum ip now)
include walking

/-- An inode that is looked up in the directory the walk is at. -/
theorem got {next np : Nat} (acyclic : tree.Acyclic) (holds : start.HasTree tree) (edge : tree.Edge inum next) (got : Got next now np after) :
    Walking origin tree start inum ip after ∧ np ≠ ip := by
  have table := walking.usable.volume.table
  have inside : next < now.sb.ninodes := by
    rw [walking.files.sb]
    exact holds.inside next (walking.reached.tail edge)
  have same := got.sameLoaded table inside
  have apart : np ≠ ip := by
    intro here
    have own := got.named (here ▸ walking.own.live)
    rw [here, walking.names] at own
    exact acyclic inum (.single (own ▸ edge))
  have kept := got.keeps_own walking.own
  rw [if_neg (Ne.symm apart)] at kept
  refine ⟨⟨same.usable walking.usable, ?_, walking.reached, (walking.files.trans (same.files table)).mono fun _ => (Or.elim · id id), kept.1, ?_⟩, apart⟩
  · rw [same.log]
    exact walking.inOp
  · rw [kept.2]
    exact walking.names

/-- A name is looked up: there is no such entry, or a reference to the next inode. -/
theorem looks {entries : PartialMap Name Nat} (plain : origin.Plain) (acyclic : tree.Acyclic) (holds : start.HasTree tree) (loaded : now.Loaded ip)
    (directory : tree inum = some entries) (books : Books account now) (locked : account.locks ip = true) (name : Name) :
    Ensures (dirlookup ip name) now
      (fun answer after => Walking origin tree start inum ip after ∧ ((tree.child inum name = none ∧ answer = none ∧ Books account after) ∨
        ∃ next np off, tree.child inum name = some next ∧ answer = some (np, off) ∧ after.Taken next np ∧ np ≠ ip ∧ Books (account.hold np) after))
      (WalkStops tree start) := by
  have table := walking.usable.volume.table
  have shows := walking.shows acyclic holds
  rw [directory] at shows
  obtain ⟨isDir, slots, bytes, map⟩ := shows
  rw [← walking.names, current_loaded table loaded] at isDir
  rw [← walking.names] at bytes
  have slotted := bytes.loaded table loaded
  have child : tree.child inum name = (slots.toMap (.of name)).map Subtype.val := by rw [NameTree.child_some directory, map]
  have running := walking.usable.running plain loaded walking.inOp
  have used : (now.inode ip).copy.type ≠ T_UNUSE_INODE_MYFUSE := by
    rw [isDir]
    decide
  have small : (now.inode ip).copy.size < 2 ^ 64 := Nat.lt_of_le_of_lt slotted.small (by decide)
  apply ((dirlookup_agrees plain running slotted name).and (dirlookup_leaves books locked name)).mono
  · intro answer after both
    obtain ⟨⟨middle, steady, agrees, answered⟩, books⟩ := both
    have walking := walking.steady steady agrees loaded used small
    obtain ⟨missing, rfl, rfl⟩ | ⟨next, place, np, found, rfl, got⟩ := answered
    · refine ⟨walking, .inl ⟨?_, rfl, books⟩⟩
      rw [child, missing]
      rfl
    · have named : tree.child inum name = some next.1 := by
        rw [child, Slots.toMap, found]
        rfl
      obtain ⟨walking, apart⟩ := walking.got acyclic holds ⟨name, named⟩ got
      exact ⟨walking, .inr ⟨next.1, np, _, named, rfl, got.taken, apart, books⟩⟩
  · intro reason after both
    refine .read loaded ?_ ?_ both.1
    · rw [walking.names]
      exact walking.reached
    · rw [walking.names, directory]
      rfl

/-- The reference to the directory is exchanged for the one to the inode found. -/
theorem next {next np : Nat} (edge : tree.Edge inum next) (taken : now.Taken next np) (apart : np ≠ ip)
    (put : Put origin ip (· = inum) (now.setLocked ip false) after) : Walking origin tree start next np after := by
  have unlocked := (walking.relock false).files
  have entry : after.inode np = now.inode np := by rw [put.others np apart, setLocked_of_ne apart]
  have taken := taken.congr put.ninode entry
  refine ⟨put.usable, ?_, walking.reached.tail edge, (unlocked.trans put.files).mono ?_, taken.own, taken.names⟩
  · rw [put.files.outstanding]
    exact walking.inOp
  · intro other lost
    cases lost with
    | inl above => exact above.tail edge
    | inr here => exact here ▸ .single edge

end Walking

theorem Books.exchange {np : Nat} (books : Books (((account.hold ip).lock ip).hold np) fs) : Books (((account.hold np).hold ip).lock ip) fs := by
  refine books.same rfl (fun other => ?_) (fun _ => rfl) rfl (Set.insert_comm ip np _).subset
  show account.refs other + _ + _ = account.refs other + _ + _
  omega

/-! The whole walk. -/

/-- Where the walk ends, holding one more reference to what it found and no more locks. -/
inductive Arrives (origin : Origin) (tree : NameTree Nat Name) (account : Account) (start : FS) : Option (Nat × Name) → Option (Nat × Name) → FS → Prop where
  | nowhere {after : FS} (books : Books account after) : Arrives origin tree account start none none after
  | at {inum ip : Nat} {name : Name} {after : FS} (walking : Walking origin tree start inum ip after) (books : Books (account.hold ip) after) :
      Arrives origin tree account start (some (inum, name)) (some (ip, name)) after

/-- What the names lead to: the last inode, or its parent with the last name. -/
def target (tree : NameTree Nat Name) (nameiparent : Bool) (inum : Nat) (names : List Name) : Option (Nat × Name) :=
  if nameiparent then tree.parent inum names else (tree.walk inum names).map fun node => (node, [])

/-- The directory is unlocked and given back. -/
theorem Walking.leaves (walking : Walking origin tree start inum ip now) (plain : origin.Plain) (acyclic : tree.Acyclic) (holds : start.HasTree tree)
    (books : Books ((account.hold ip).lock ip) now) (free : account.locks ip = false) :
    Ensures (FS.iunlockput ip) now (fun _ after => Put origin ip (· = inum) (now.setLocked ip false) after ∧ Books account after) (WalkStops tree start) := by
  unfold FS.iunlockput
  rw [ensures_bind, ensures_of_ok (iunlock_eq ip now)]
  have books := (iunlock_back books free).returned (iunlock_eq ip now)
  exact (((walking.relock false).iput plain acyclic holds).and (iput_back books)).mono (fun _ _ both => both) fun _ _ both => both.1

theorem target_step {nameiparent : Bool} {rest : List Name} (further : ¬ (nameiparent = true ∧ rest = [])) :
    target tree nameiparent inum (name :: rest) = (tree.child inum name).bind fun next => target tree nameiparent next rest := by
  unfold target
  cases nameiparent with
  | true =>
    rw [if_pos rfl, NameTree.parent_cons fun none => further ⟨rfl, none⟩]
    rfl
  | false =>
    rw [if_neg Bool.false_ne_true, NameTree.walk_cons]
    cases tree.child inum name with
    | none => rfl
    | some next => rfl

theorem target_walk (inum : Nat) (names : List Name) : (target tree false inum names).map Prod.fst = tree.walk inum names := by
  unfold target
  rw [if_neg Bool.false_ne_true, Option.map_map]
  exact Option.map_id_apply

theorem target_leaf {nameiparent : Bool} {rest : List Name} (leaf : tree inum = none) : target tree nameiparent inum (name :: rest) = none := by
  unfold target
  cases nameiparent with
  | true =>
    rw [if_pos rfl]
    cases rest with
    | nil => rw [NameTree.parent_singleton, leaf]; rfl
    | cons other rest => rw [NameTree.parent_cons (List.cons_ne_nil _ _), NameTree.child_leaf leaf]; rfl
  | false =>
    rw [if_neg Bool.false_ne_true, NameTree.walk_cons, NameTree.child_leaf leaf]
    rfl

theorem namexFrom_walks (plain : origin.Plain) (acyclic : tree.Acyclic) (holds : start.HasTree tree) (began : Books account start) (nameiparent : Bool)
    (names : List Name) {inum ip : Nat} {now : FS} (walking : Walking origin tree start inum ip now) (books : Books (account.hold ip) now) :
    Ensures (namexFrom nameiparent names ip) now (Arrives origin tree account start (target tree nameiparent inum names)) (WalkStops tree start) := by
  induction names generalizing inum ip now with
  | nil =>
    unfold namexFrom target
    cases nameiparent with
    | true =>
      apply Ensures.bind (((walking.iput plain acyclic holds).and (iput_back books)).mono (fun _ _ both => both) fun _ _ both => both.1)
      intro _ after both
      exact (ensures_pure _).mpr (.nowhere both.2)
    | false => exact (ensures_pure _).mpr (.at walking books)
  | cons name rest ih =>
    unfold namexFrom
    apply Ensures.bind (walking.locks acyclic holds began books)
    intro _ current locked
    obtain ⟨walking, loaded, books, free⟩ := locked
    rw [ensures_bind, ensures_get]
    have kind := walking.directory_iff acyclic holds loaded
    cases directory : tree inum with
    | none =>
      rw [directory] at kind
      rw [if_pos fun isDir => Bool.false_ne_true (kind.mp isDir), target_leaf directory]
      apply Ensures.bind (walking.leaves plain acyclic holds books free)
      exact fun _ _ left => (ensures_pure _).mpr (.nowhere left.2)
    | some entries =>
      rw [directory] at kind
      rw [if_neg (not_not.mpr (kind.mpr rfl))]
      by_cases last : nameiparent = true ∧ rest = []
      · obtain ⟨rfl, rfl⟩ := last
        rw [if_pos ⟨rfl, rfl⟩, ensures_bind, ensures_of_ok (iunlock_eq ip current), ensures_pure, target, if_pos rfl, NameTree.parent_singleton, directory]
        exact .at (walking.relock false) ((iunlock_back books free).returned (iunlock_eq ip current))
      · rw [if_neg last, target_step last]
        apply Ensures.bind (walking.looks plain acyclic holds loaded directory books (Account.lock_locks _ ip) name)
        intro answer looked either
        obtain ⟨walking, ⟨missing, rfl, books⟩ | ⟨next, np, off, found, rfl, taken, apart, books⟩⟩ := either
        · rw [missing]
          apply Ensures.bind (walking.leaves plain acyclic holds books free)
          exact fun _ _ left => (ensures_pure _).mpr (.nowhere left.2)
        · rw [found]
          apply Ensures.bind (walking.leaves plain acyclic holds books.exchange free)
          intro _ after left
          exact ih (walking.next ⟨name, found⟩ taken apart left.1) left.2

theorem namex_walks {path : List Byte} (plain : origin.Plain) (usable : start.Usable origin) (inOp : 1 ≤ start.log.outstanding) (acyclic : tree.Acyclic)
    (holds : start.HasTree tree) (began : Books account start) (absolute : path.head? = some slash) (nameiparent : Bool) :
    Ensures (namex path nameiparent) start (Arrives origin tree account start (target tree nameiparent ROOTINO (components path))) (WalkStops tree start) := by
  unfold namex
  rw [if_pos absolute, elements_components]
  refine Ensures.bind (((iget_spec began.initialized ROOTINO).and (iget_leaves began ROOTINO)).mono (fun _ _ both => both) fun _ _ both => both.1.elim) ?_
  intro ip now both
  obtain ⟨got, books⟩ := both
  have table := usable.volume.table
  have same := got.sameLoaded table (holds.inside ROOTINO .refl)
  refine namexFrom_walks plain acyclic holds began nameiparent _ ⟨same.usable usable, ?_, .refl, same.files table, got.own, got.names⟩ books
  rw [same.log]
  exact inOp

/-! What the resolvers return. -/

/-- The entry returned is one of the wanted inode, null when there is none; it has one more reference, and
no lock is left or taken away. -/
structure Resolves (start after : FS) (found wanted : Option Nat) : Prop where
  wanted : (found.map fun ip => (after.inode ip).inum) = wanted
  live : ∀ ip, found = some ip → after.Live ip
  refs : ∀ ip, (after.inode ip).ref = (start.inode ip).ref + if found = some ip then 1 else 0
  locks : ∀ ip, (after.inode ip).locked = (start.inode ip).locked

theorem Resolves.missing (began : Books account start) (books : Books account after) : Resolves start after none none := by
  refine ⟨rfl, nofun, fun ip => ?_, fun ip => ?_⟩
  · rw [books.ref, began.ref, if_neg nofun, Int.add_zero]
  · rw [books.locked, began.locked]

theorem Resolves.found (began : Books account start) (books : Books (account.hold ip) after) (live : after.Live ip) (names : (after.inode ip).inum = inum) :
    Resolves start after (some ip) (some inum) := by
  refine ⟨congrArg some names, fun other same => Option.some.inj same ▸ live, fun other => ?_, fun other => ?_⟩
  · rw [books.ref, began.ref, Account.hold_refs]
    simp only [Option.some.injEq, eq_comm]
  · rw [books.locked, began.locked]
    rfl

theorem Arrives.resolves {found wanted : Option (Nat × Name)} (began : Books account start) (arrives : Arrives origin tree account start wanted found after) :
    Resolves start after (found.map Prod.fst) (wanted.map Prod.fst) ∧ found.map Prod.snd = wanted.map Prod.snd := by
  cases arrives with
  | nowhere books => exact ⟨.missing began books, rfl⟩
  | «at» walking books => exact ⟨.found began books walking.own.live walking.names, rfl⟩

/-- The last component is looked up in the parent directory. -/
def lookupInParent (path : List Byte) : M (Option Nat) := do
  match ← path2parentinode path with
  | none => pure none
  | some (dp, name) => do
    ilock dp
    let found ← dirlookup dp name
    iunlockput dp
    pure (found.map Prod.fst)

/-- A directory that the walk has ended at is locked and looked into. -/
theorem Walking.lookup (walking : Walking origin tree start inum ip now) (plain : origin.Plain) (acyclic : tree.Acyclic) (holds : start.HasTree tree)
    (began : Books account start) (books : Books (account.hold ip) now) (directory : (tree inum).isSome) (name : Name) :
    Ensures (do
      ilock ip
      let found ← dirlookup ip name
      FS.iunlockput ip
      pure (found.map Prod.fst)) now (fun found after => Resolves start after found (tree.child inum name)) (WalkStops tree start) := by
  obtain ⟨entries, directory⟩ := Option.isSome_iff_exists.mp directory
  apply Ensures.bind (walking.locks acyclic holds began books)
  intro _ current locked
  obtain ⟨walking, loaded, books, free⟩ := locked
  apply Ensures.bind (walking.looks plain acyclic holds loaded directory books (Account.lock_locks _ ip) name)
  intro answer looked either
  obtain ⟨walking, ⟨missing, rfl, books⟩ | ⟨next, np, off, found, rfl, taken, apart, books⟩⟩ := either
  · rw [missing]
    apply Ensures.bind (walking.leaves plain acyclic holds books free)
    exact fun _ _ left => (ensures_pure _).mpr (.missing began left.2)
  · rw [found]
    apply Ensures.bind (walking.leaves plain acyclic holds books.exchange free)
    intro _ after left
    have walking := walking.next ⟨name, found⟩ taken apart left.1
    exact (ensures_pure _).mpr (.found began left.2 walking.own.live walking.names)

/-- In a tree of names both resolvers look up the components in turn, the second without the last; looking it
up in the directory returned ends where the first does. A walk that does not return was stopped by the
read of a directory, by a lock held before, or when it freed an inode without links. -/
theorem path_resolves {path : List Byte} (ready : fs.Ready) (inOp : 1 ≤ fs.log.outstanding) (mounted : Mounted fs) (acyclic : tree.Acyclic)
    (holds : fs.HasTree tree) (absolute : path.head? = some slash) :
    Ensures (path2inode path) fs (fun found after => Resolves fs after found (tree.walk ROOTINO (components path))) (WalkStops tree fs) ∧
    Ensures (path2parentinode path) fs
      (fun found after => Resolves fs after (found.map Prod.fst) ((tree.parent ROOTINO (components path)).map Prod.fst) ∧
        found.map Prod.snd = (tree.parent ROOTINO (components path)).map Prod.snd) (WalkStops tree fs) ∧
    (components path ≠ [] →
      Ensures (lookupInParent path) fs (fun found after => Resolves fs after found (tree.walk ROOTINO (components path))) (WalkStops tree fs)) := by
  have began := mounted.books
  have walks := namex_walks fs.here_plain ready inOp acyclic holds began absolute
  refine ⟨?_, ?_, ?_⟩
  · refine Ensures.bind ((walks false).mono (fun _ _ arrives => arrives) fun _ _ stops => stops) fun found after arrives => (ensures_pure _).mpr ?_
    rw [← target_walk]
    exact (arrives.resolves began).1
  · exact (walks true).weaken fun _ _ arrives => arrives.resolves began
  · intro some
    rw [← NameTree.child_parent some]
    apply Ensures.bind (walks true)
    intro answer now arrives
    rw [target, if_pos rfl] at arrives
    cases parent : tree.parent ROOTINO (components path) with
    | none =>
      rw [parent] at arrives
      cases arrives with
      | nowhere books => exact (ensures_pure _).mpr (.missing began books)
    | some wanted =>
      obtain ⟨inum, name⟩ := wanted
      rw [parent] at arrives
      cases arrives with
      | «at» walking books => exact walking.lookup fs.here_plain acyclic holds began books (NameTree.parent_directory parent) name

/-- An empty root directory and a file, with a reference to the root. -/
def freshRoot : FS := fresh (initSuperBlock 2000) (smallImage (initSuperBlock 2000) 17) (firstEntry ROOTINO)

theorem freshRoot_wellFormed : freshRoot.WellFormed := by
  refine smallDisk_blockless.fresh_wellFormed smallDisk_layout (by decide) (by decide) (by decide) firstEntry_unread
    (fun ip _ referenced => ?_) fun ip _ ip' _ referenced referenced' _ => ?_
  · rw [firstEntry_ref referenced]
    decide
  · rw [firstEntry_ref referenced, firstEntry_ref referenced']

theorem freshRoot_mounted : Mounted freshRoot := by
  refine ⟨by decide +kernel, fun ip outside => ?_, fun _ _ pointer => by cases pointer⟩
  have apart : ip ≠ 0 := by
    rintro rfl
    exact absurd outside (by decide +kernel)
  show (firstEntry ROOTINO ip).ref = 0 ∧ (firstEntry ROOTINO ip).locked = false
  rw [firstEntry, if_neg apart]
  exact ⟨rfl, rfl⟩

/-- The root with one entry. -/
def oneName : NameTree Nat Name := fun inum =>
  if inum = ROOTINO then some fun name => ((DirCall.mapOf [.link [97] ⟨17, by decide⟩]) (.of name)).map Subtype.val else none

theorem oneName_edge {inum other : Nat} (edge : oneName.Edge inum other) : inum = ROOTINO ∧ other = 17 := by
  obtain ⟨name, found⟩ := edge
  by_cases here : inum = ROOTINO
  · have root : oneName inum = some _ := if_pos here
    rw [NameTree.child_some root] at found
    obtain ⟨number, linked, rfl⟩ := Option.map_eq_some_iff.mp found
    obtain ⟨linkedName, inside⟩ := DirCall.linked_of_mapOf linked
    obtain ⟨-, rfl⟩ := DirCall.link.inj (List.mem_singleton.mp inside)
    exact ⟨here, rfl⟩
  · have leaf : oneName inum = none := if_neg here
    rw [NameTree.child_leaf leaf] at found
    cases found

theorem oneName_reached {inum : Nat} (reached : oneName.Reached ROOTINO inum) : inum = ROOTINO ∨ inum = 17 := by
  cases reached with
  | refl => exact .inl rfl
  | tail _ edge => exact .inr (oneName_edge edge).2

theorem oneName_acyclic : oneName.Acyclic := by
  apply NameTree.acyclic_of_rank id
  intro inum other edge
  obtain ⟨rfl, rfl⟩ := oneName_edge edge
  decide

/-- `//a` names the file that was linked. -/
theorem path_resolves_one : ∃ fs ip after, path2inode [47, 47, 97] fs = (.ok (some ip), after) ∧
    Resolves fs after (some ip) (oneName.walk ROOTINO (components [47, 47, 97])) ∧ oneName.walk ROOTINO (components [47, 47, 97]) = some 17 := by
  have computed : valueOf (do
      beginOp
      ilock 0
      let before : FS ← get
      (DirCall.link [97] ⟨17, by decide⟩).run 0
      iunlock 0
      let fs : FS ← get
      let found ← path2inode [47, 47, 97]
      pure ((before.inode 0).copy.size, (fs.log.outstanding, fs.sb.ninodes),
        decide ((fs.inode 0).inum = ROOTINO ∧ (fs.current ROOTINO).type = T_DIR_INODE_MYFUSE ∧ (fs.current 17).type = T_FILE_INODE_MYFUSE ∧ found.isSome)))
        freshRoot = some (0, (1, 656), true) := by decide +kernel
  obtain ⟨_, began, begins, rest⟩ := bind_returns (returns_of_valueOf computed)
  obtain ⟨_, start, locks, rest⟩ := bind_returns rest
  have opened : (do beginOp; ilock 0; pure ()) freshRoot = (.ok (), start) := by
    rw [bind_ok begins, bind_ok locks]
    rfl
  obtain ⟨_, ready, loaded, inOp, -, same⟩ := freshRoot_wellFormed.opens ⟨by decide +kernel, by decide +kernel⟩ opened
  obtain rfl := (Prod.mk.inj same).2
  rw [bind_ok get_apply] at rest
  obtain ⟨_, linked, links, rest⟩ := bind_returns rest
  obtain ⟨_, fs, unlocks, rest⟩ := bind_returns rest
  rw [bind_ok get_apply] at rest
  obtain ⟨found, after, resolved, last⟩ := bind_returns rest
  obtain ⟨empty, ⟨inOp', ninodes⟩, names, isDir, isFile, some⟩ : _ = 0 ∧ (fs.log.outstanding = 1 ∧ fs.sb.ninodes = 656) ∧ (fs.inode 0).inum = ROOTINO ∧
      (fs.current ROOTINO).type = T_DIR_INODE_MYFUSE ∧ (fs.current 17).type = T_FILE_INODE_MYFUSE ∧ found.isSome := by
    simpa using congrArg Prod.fst last
  -- The directory and the table after the link.
  have run : DirRun 0 _ [.link [97] ⟨17, by decide⟩] fs := .unlocks (.call .start _ inOp links) unlocks
  obtain ⟨usable, loaded', slots, directory, -, map⟩ := run.keeps (FS.here_plain _) ready loaded empty
  have mounted : Mounted fs := by
    have books := ((ilock_leaves ((beginOp_leaves freshRoot_mounted.books).returned begins) 0).returned locks).1
    obtain ⟨_, after, dirlinks, last⟩ := bind_returns links
    obtain rfl := (Prod.mk.inj last).2
    have books := ((dirlink_loose [97] 17).locked books (Account.lock_locks _ 0)).returned dirlinks
    exact ((iunlock_leaves books 0).returned unlocks).mounted
  have holds : fs.HasTree oneName := by
    constructor
    · intro inum reached
      rw [ninodes]
      cases oneName_reached reached with
      | inl root => rw [root]; decide
      | inr file => rw [file]; decide
    · intro inum reached
      cases oneName_reached reached with
      | inl root =>
        subst root
        have current := current_loaded usable.volume.table loaded'
        rw [names] at current
        have bytes := directory.bytes
        rw [names] at bytes
        exact ⟨isDir, slots, ⟨by rw [current, directory.size], bytes, directory.few⟩, by rw [map]⟩
      | inr file =>
        subst file
        exact .inl isFile
  have resolves := (path_resolves usable.ready (by rw [inOp']) mounted oneName_acyclic holds rfl).1.returned resolved
  obtain ⟨ip, rfl⟩ := Option.isSome_iff_exists.mp some
  have walks : oneName.walk ROOTINO (components [47, 47, 97]) = Option.some 17 := by decide
  exact ⟨fs, ip, after, resolved, resolves, walks⟩

end FS
end Myfuse
