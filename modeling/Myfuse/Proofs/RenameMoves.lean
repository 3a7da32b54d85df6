import Myfuse.Proofs.RenameTree

/-! Where a name is after `myfuse_rename`: a plain rename moves it if the target is missing and loses it if the
target is a file, and an exchange works for equal names in two directories. -/

namespace Myfuse
open Library Library.Exec

namespace FS
variable {origin : Origin} {base : Nat → Int} {fs middle late after : FS} {inum : Nat} {nodes : Set Nat} {tree : NameTree Nat DirName}
  {source target : List Byte} {paths : RenamePaths} {from_ip from_dp : Nat} {from_name : Name}

/-- The inode has an entry in a directory of the tree. -/
def Entered (fs : FS) (inum : Nat) : Prop := ∃ dir name, fs.names.Reached ROOTINO dir ∧ fs.names.child dir name = some inum

/-- The target path leads where the source path led, which leads nowhere; other paths are as before, and no
inode but a replaced target has lost its last entry. -/
structure NameMoved (fs after : FS) (source target : List Byte) : Prop where
  moved : after.resolve target = fs.resolve source
  gone : after.resolve source = none
  others : ∀ path, ¬ keysOf source <+: keysOf path → ¬ keysOf target <+: keysOf path → after.resolve path = fs.resolve path
  kept : ∀ inum, fs.Entered inum → fs.resolve target ≠ some inum → after.Entered inum

theorem Entered.of_walk {keys : List DirName} (some : keys ≠ []) (walked : fs.names.walk ROOTINO keys = Option.some inum) : fs.Entered inum := by
  obtain ⟨init, last, rfl⟩ := (List.eq_nil_or_concat' keys).resolve_left some
  obtain ⟨dir, front, found⟩ := NameTree.walk_concat_some walked
  exact ⟨dir, last, NameTree.reached_of_walk front, found⟩

theorem Entered.walk (entered : fs.Entered inum) : ∃ keys, keys ≠ [] ∧ fs.names.walk ROOTINO keys = some inum := by
  obtain ⟨dir, name, reached, found⟩ := entered
  obtain ⟨keys, walked⟩ := NameTree.walk_of_reached reached
  refine ⟨keys ++ [name], by simp, ?_⟩
  rw [NameTree.walk_concat, walked]
  exact found

/-- The source is an entry of a directory. -/
theorem Unlinked.entry (took : Unlinked origin base nodes tree source target paths from_dp from_name fs) (from_ip_is : paths.from_ip = some from_ip)
    (from_dp_is : paths.from_dp = some (from_dp, from_name)) :
    ∃ init, keysOf source = init ++ [DirName.of from_name] ∧ tree.walk ROOTINO init = some (fs.inode from_dp).inum ∧
      tree.child (fs.inode from_dp).inum (.of from_name) = some (fs.inode from_ip).inum := by
  have ip := took.finds.from_ip
  have dp := took.finds.from_dp
  rw [from_ip_is] at ip
  rw [from_dp_is] at dp
  obtain ⟨init, keys, walked⟩ := NameTree.parent_eq_some dp.symm
  have keys : keysOf source = init ++ [DirName.of from_name] := keys
  have walked : tree.walk ROOTINO init = some (fs.inode from_dp).inum := walked
  refine ⟨init, keys, walked, ?_⟩
  rw [keys, NameTree.walk_concat, walked] at ip
  exact ip.symm

/-- An existing file stays where it is without an exchange, with the entry of the source cleared. -/
theorem Unlinked.existing {flags ip : Nat} {result : Int} (took : Unlinked origin base nodes tree source target paths from_dp from_name middle)
    (plain : origin.Plain) (target_ip_is : paths.target_ip = some ip) (leaf : tree (middle.inode ip).inum = none)
    (noExchange : middle.saysDirectory ip ∨ flags &&& RENAME_EXCHANGE = 0)
    (returned : renameTarget from_ip from_dp from_name paths.target_ip paths.target_dp flags middle = (.ok result, late)) :
    OnTree origin base (paths.tally base) nodes (tree.unlink (middle.inode from_dp).inum (.of from_name)) late := by
  rw [target_ip_is] at returned
  unfold renameTarget at returned
  rw [bind_ok get_apply] at returned
  dsimp only at returned
  split at returned
  next =>
    have leaf : (tree.unlink (middle.inode from_dp).inum (.of from_name)) (middle.inode ip).inum = none := by
      rw [← Option.not_isSome_iff_eq_none, NameTree.isSome_unlink, leaf]
      exact Bool.false_ne_true
    exact ((took.on.scrawlsIn plain (RenamePaths.ours_target_ip target_ip_is) leaf from_name _).returned returned).on
  next file =>
    rw [if_neg (not_not.mpr (noExchange.resolve_left file))] at returned
    split at returned
    next =>
      cases returned
      exact took.on
    next =>
      cases returned
      exact took.on

/-- A missing target gets an entry for the source. -/
theorem Unlinked.missing {flags td : Nat} {name : Name} {result : Int} (took : Unlinked origin base nodes tree source target paths from_dp from_name middle)
    (plain : origin.Plain) (target_ip_is : paths.target_ip = none) (target_dp_is : paths.target_dp = some (td, name))
    (directory : (tree (middle.inode td).inum).isSome) {value : Inum} (number : (middle.inode from_ip).inum = value.1) (node : value.1 ∈ nodes)
    (returned : renameTarget from_ip from_dp from_name paths.target_ip paths.target_dp flags middle = (.ok result, late)) :
    OnTree origin base (paths.tally base) nodes
      ((tree.unlink (middle.inode from_dp).inum (.of from_name)).linkNew (middle.inode td).inum (.of name) value.1) late := by
  rw [target_ip_is, target_dp_is] at returned
  unfold renameTarget at returned
  rw [bind_ok get_apply] at returned
  dsimp only at returned
  rw [number] at returned
  rw [← NameTree.isSome_unlink tree (middle.inode from_dp).inum (middle.inode td).inum (.of from_name)] at directory
  exact ((took.on.linksIn plain (RenamePaths.ours_target_dp target_dp_is) directory name value node).returned returned).on

theorem Covers.resolve (covers : after.Covers nodes tree) (root : ROOTINO ∈ nodes) (path : List Byte) :
    after.resolve path = tree.walk ROOTINO (keysOf path) := covers.walk root _

/-- A regular file is a leaf. -/
theorem Covers.leaf (covers : fs.Covers nodes tree) (node : inum ∈ nodes) (file : (fs.current inum).type = T_FILE_INODE_MYFUSE) : tree inum = none := by
  have kind := (covers.presents inum node).directory_iff
  rw [file] at kind
  rw [← Option.not_isSome_iff_eq_none]
  exact fun some => absurd (kind.mpr some) (by decide)

/-- The tree after the move says that the name has moved. -/
theorem NameMoved.of_move {init init' : List DirName} {last last' : DirName} {dir dir' moved : Nat}
    (move : fs.names.Move ROOTINO init last init' last' dir dir' moved) (from_keys : keysOf source = init ++ [last]) (target_keys : keysOf target = init' ++ [last'])
    (covers : after.Covers nodes ((fs.names.unlink dir last).linkNew dir' last' moved)) (root : ROOTINO ∈ nodes) : NameMoved fs after source target where
  moved := by
    rw [covers.resolve root, target_keys, move.walk_target, resolve, from_keys, NameTree.walk_concat, move.source]
    exact move.found.symm
  gone := by rw [covers.resolve root, from_keys, move.walk_source]
  others path avoids avoids' := by
    rw [from_keys] at avoids
    rw [target_keys] at avoids'
    rw [covers.resolve root, move.edits.walk avoids avoids', resolve]
  kept inum entered _ := by
    obtain ⟨keys, some, walked⟩ := entered.walk
    obtain ⟨keys', some', walked'⟩ := move.entered some walked
    rw [← covers.walk root] at walked'
    exact .of_walk some' walked'

/-- A missing target takes the name. -/
theorem rename_missing_moves (between : fs.Between) (holds : fs.DirTree) (apart : ¬ keysOf source <+: keysOf target) (apart' : ¬ keysOf target <+: keysOf source)
    (parent : fs.resolveParent target ≠ none) (missing : fs.resolve target = none) {flags : Nat}
    (returned : myfuseRename source target flags fs = (.ok 0, after)) : NameMoved fs after source target := by
  have root := fs.root_reached
  obtain ⟨-, error, -⟩ | ⟨paths, from_ip, from_dp, from_name, middle, late, from_ip_is, from_dp_is, -, -, took, targeted, ends⟩ :=
    rename_cases between holds.covers root returned
  · exact absurd error (by decide)
  obtain ⟨init, from_keys, walked, found⟩ := took.entry from_ip_is from_dp_is
  have target_ip_is : paths.target_ip = none := Option.map_eq_none_iff.mp (took.finds.target_ip.trans missing)
  have at_dp := took.finds.target_dp
  cases target_dp_is : paths.target_dp with
  | none =>
    rw [target_dp_is] at at_dp
    exact absurd at_dp.symm parent
  | some place =>
    obtain ⟨td, name⟩ := place
    rw [target_dp_is] at at_dp
    obtain ⟨init', target_keys, walked'⟩ := NameTree.parent_eq_some at_dp.symm
    have target_keys : keysOf target = init' ++ [DirName.of name] := target_keys
    have walked' : fs.names.walk ROOTINO init' = some (middle.inode td).inum := walked'
    have directory : (fs.names (middle.inode td).inum).isSome := NameTree.parent_directory at_dp.symm
    have free : fs.names.child (middle.inode td).inum (.of name) = none := by
      rw [resolve, target_keys, NameTree.walk_concat, walked'] at missing
      exact missing
    have dir := holds.covers.walk_inside root walked
    obtain ⟨value, number⟩ := holds.covers.inum_of dir found
    have node : value.1 ∈ fs.reachedNodes := number ▸ holds.covers.closed _ dir _ ⟨_, found⟩
    rw [from_keys, target_keys] at apart apart'
    rw [← number] at found
    have move : fs.names.Move ROOTINO init (.of from_name) init' (.of name) (middle.inode from_dp).inum (middle.inode td).inum value.1 :=
      ⟨holds.single, walked, found, walked', directory, free, apart, apart'⟩
    exact .of_move move from_keys target_keys (ends _ (took.missing fs.here_plain target_ip_is target_dp_is directory number.symm node targeted)) root

/-- An existing file does not give way, and the source is unlinked all the same. -/
theorem rename_existing_loses (between : fs.Between) (holds : fs.DirTree) (apart : ¬ keysOf source <+: keysOf target) (existing : fs.resolve target = some inum)
    (file : (fs.current inum).type = T_FILE_INODE_MYFUSE) (returned : myfuseRename source target 0 fs = (.ok 0, after)) :
    ¬ NameMoved fs after source target := by
  have root := fs.root_reached
  obtain ⟨-, error, -⟩ | ⟨paths, from_ip, from_dp, from_name, middle, late, from_ip_is, from_dp_is, -, -, took, targeted, ends⟩ :=
    rename_cases between holds.covers root returned
  · exact absurd error (by decide)
  obtain ⟨init, from_keys, walked, found⟩ := took.entry from_ip_is from_dp_is
  obtain ⟨ip, target_ip_is, rfl⟩ := Option.map_eq_some_iff.mp (took.finds.target_ip.trans existing)
  have leaf := holds.covers.leaf (holds.covers.walk_inside root existing) file
  have covers := ends _ (took.existing fs.here_plain target_ip_is leaf (.inr (by decide)) targeted)
  intro moved
  have same := moved.moved
  rw [from_keys] at apart
  rw [covers.resolve root, (holds.single.edits_unlink walked).walk apart apart, resolve, from_keys] at same
  have there : fs.names.walk ROOTINO (init ++ [DirName.of from_name]) = some (middle.inode from_ip).inum := by
    rw [NameTree.walk_concat, walked]
    exact found
  rw [there] at same
  exact apart (holds.single.unique there same ▸ List.prefix_rfl)

/-- `myfuse_rename` without flags moves the name just when the target is missing. -/
theorem rename_moves_iff (between : fs.Between) (holds : fs.DirTree) (apart : ¬ keysOf source <+: keysOf target) (apart' : ¬ keysOf target <+: keysOf source)
    (parent : fs.resolveParent target ≠ none)
    (regular : ∀ inum, fs.resolve target = some inum → (fs.current inum).type = T_FILE_INODE_MYFUSE ∧
      ∀ other, fs.resolve source = some other → (fs.current other).type = T_FILE_INODE_MYFUSE)
    (returned : myfuseRename source target 0 fs = (.ok 0, after)) : NameMoved fs after source target ↔ fs.resolve target = none := by
  cases found : fs.resolve target with
  | none => exact iff_of_true (rename_missing_moves between holds apart apart' parent found returned) rfl
  | some inum =>
    apply iff_of_false (rename_existing_loses between holds apart found (regular inum found).1 returned)
    intro none
    cases none

/-- `/a` becomes `/c`. -/
theorem rename_moves_missing : NameMoved twoFiles (myfuseRename [47, 97] [47, 99] 0 twoFiles).2 [47, 97] [47, 99] := by
  have value : valueOf (myfuseRename [47, 97] [47, 99] 0) twoFiles = some 0 := by decide +kernel
  have free : twoFiles.resolve [47, 99] = none := by
    rw [twoFiles_resolve]
    decide
  apply (rename_moves_iff twoFiles_between.1 twoFiles_tree (by decide) (by decide) ?_ ?_ (returns_of_valueOf value)).mpr free
  · rw [twoFiles_parent]
    decide
  · intro inum existing
    rw [free] at existing
    cases existing

/-- `/b` does not give way to `/a`. -/
theorem rename_onto_file_loses : ¬ ∀ (fs : FS) (source target : List Byte) (after : FS), fs.Between → fs.DirTree → ¬ keysOf source <+: keysOf target →
    ¬ keysOf target <+: keysOf source → fs.resolve source ≠ none → fs.resolveParent target ≠ none →
    (∀ inum, fs.resolve target = some inum → (fs.current inum).type = T_FILE_INODE_MYFUSE ∧
      ∀ other, fs.resolve source = some other → (fs.current other).type = T_FILE_INODE_MYFUSE) →
    myfuseRename source target 0 fs = (.ok 0, after) → NameMoved fs after source target := by
  intro claimed
  have value : valueOf (myfuseRename [47, 97] [47, 98] 0) twoFiles = some 0 := by decide +kernel
  have returned := returns_of_valueOf value
  have parent : twoFiles.resolveParent [47, 98] ≠ none := by
    rw [twoFiles_parent]
    decide
  obtain ⟨file, file'⟩ := twoFiles_types
  apply rename_existing_loses twoFiles_between.1 twoFiles_tree (by decide) twoFiles_b file' returned
  apply claimed _ _ _ _ twoFiles_between.1 twoFiles_tree (by decide) (by decide) ?_ parent ?_ returned
  · rw [twoFiles_a]
    exact Option.some_ne_none 17
  · intro inum existing
    rw [twoFiles_b] at existing
    obtain rfl := Option.some.inj existing
    refine ⟨file', fun other found => ?_⟩
    rw [twoFiles_a] at found
    obtain rfl := Option.some.inj found
    exact file

/-! Exchanges. -/

/-- Each of the two paths leads where the other led, and all other entries are as before. -/
structure Exchanged (fs after : FS) (source target : List Byte) : Prop where
  source_leads : after.resolve source = fs.resolve target
  target_leads : after.resolve target = fs.resolve source
  others : ∀ dir name, fs.names.Reached ROOTINO dir → fs.resolveParent source ≠ some (dir, name) → fs.resolveParent target ≠ some (dir, name) →
    after.names.child dir name = fs.names.child dir name

/-- The exchange with both directories at hand. -/
theorem OnTree.exchanges {refs : Nat → Int} {dp ip : Nat} {name : Name} (on : OnTree origin base refs nodes tree fs) (plain : origin.Plain)
    (ours_from : base from_dp < refs from_dp) (loaded : fs.Loaded from_dp) (parent : (tree (fs.inode from_dp).inum).isSome)
    (ours : base dp < refs dp) (directory : (tree (fs.inode dp).inum).isSome) (ours_ip : base ip < refs ip)
    {moved moved' : Inum} (node : moved.1 ∈ nodes) (node' : moved'.1 ∈ nodes) :
    Ensures (do
      ilock dp
      ilock ip
      dropDirent dp name
      let _ ← dirlink dp from_name moved.1
      let _ ← dirlink from_dp from_name moved'.1
      iunlock ip
      iunlock dp
      pure (0 : Int)) fs
      (fun _ after => tree.child (fs.inode dp).inum (.of name) ≠ none ∧
        Turns origin base refs nodes (((tree.unlink (fs.inode dp).inum (.of name)).linkNew (fs.inode dp).inum (.of from_name) moved.1).linkNew
          (fs.inode from_dp).inum (.of from_name) moved'.1) fs after)
      fun _ _ => True := by
  have held := on.held ours
  have held_from := on.held ours_from
  apply Ensures.bind (on.locks ours)
  intro _ first locked
  obtain ⟨turns, loaded_dp⟩ := locked
  apply Ensures.bind (turns.on.locks ours_ip)
  intro _ second locked
  obtain ⟨turns', -⟩ := locked
  have loaded_dp := turns'.loaded held loaded_dp
  have turns := turns.trans turns'
  obtain ⟨entries, found⟩ := Option.isSome_iff_exists.mp directory
  rw [← turns.names held] at found
  apply Ensures.bind (turns.on.drops plain ours loaded_dp found name)
  intro _ third dropped
  obtain ⟨child, turns'⟩ := dropped
  rw [turns.names held] at child turns'
  have loaded_dp := turns'.loaded held loaded_dp
  have turns := turns.trans turns'
  rw [← NameTree.isSome_unlink tree _ _ (.of name)] at directory parent
  obtain ⟨entries, found⟩ := Option.isSome_iff_exists.mp directory
  rw [← turns.names held] at found
  apply Ensures.bind (turns.on.links plain ours loaded_dp found from_name moved node)
  intro _ fourth turns'
  rw [turns.names held] at turns'
  have turns := turns.trans turns'
  rw [← NameTree.isSome_linkNew _ _ moved.1 _ (.of from_name)] at parent
  obtain ⟨entries, found⟩ := Option.isSome_iff_exists.mp parent
  rw [← turns.names held_from] at found
  apply Ensures.bind (turns.on.links plain ours_from (turns.loaded held_from loaded) found from_name moved' node')
  intro _ fifth turns'
  rw [turns.names held_from] at turns'
  have turns := turns.trans turns'
  apply Ensures.bind (turns.on.unlocks ip)
  intro _ sixth turns'
  have turns := turns.trans turns'
  apply Ensures.bind (turns.on.unlocks dp)
  exact fun _ _ left => (ensures_pure _).mpr ⟨child, turns.trans left⟩

theorem getLast?_keys {path : List Byte} {init : List DirName} {last : DirName} (keys : keysOf path = init ++ [last]) : (keysOf path).getLast? = some last := by
  rw [keys, List.getLast?_concat]

/-- The tree after the exchange has both entries if their names are equal, and else lacks the second. -/
theorem exchanged_iff {init init' : List DirName} {last last' : DirName} {dir dir' moved moved' : Nat}
    (exchange : fs.names.Exchange ROOTINO init last init' last' dir dir' moved moved') (from_keys : keysOf source = init ++ [last])
    (target_keys : keysOf target = init' ++ [last']) (covers : after.Covers fs.reachedNodes (fs.names.exchanged last last' dir dir' moved moved')) :
    Exchanged fs after source target ↔ last' = last := by
  have root := fs.root_reached
  constructor
  · intro exchanged
    by_contra other
    have lost := exchanged.target_leads
    rw [covers.resolve root, target_keys, exchange.walk_lost other, resolve, from_keys, exchange.walked] at lost
    cases lost
  · intro same
    refine ⟨?_, ?_, fun node name reached apart apart' => ?_⟩
    · rw [covers.resolve root, from_keys, exchange.walk_source same, resolve, target_keys, exchange.walked']
    · rw [covers.resolve root, target_keys, exchange.walk_target same, resolve, from_keys, exchange.walked]
    · rw [resolveParent, from_keys, NameTree.parent_concat exchange.source (NameTree.directory_of_child exchange.found)] at apart
      rw [resolveParent, target_keys, NameTree.parent_concat exchange.target (NameTree.directory_of_child exchange.found'), same] at apart'
      rw [NameTree.child, covers.names reached, ← NameTree.child, exchange.child_same same, if_neg, if_neg]
      · intro here
        exact apart' (congrArg some (Prod.ext here.1.symm here.2.symm))
      · intro here
        exact apart (congrArg some (Prod.ext here.1.symm here.2.symm))

/-- Either the target is taken for a directory and the source is lost, or both links are made under the name of the source. -/
theorem rename_exchange_cases {first second : Nat} (between : fs.Between) (holds : fs.DirTree) (source_is : fs.resolve source = some first)
    (target_is : fs.resolve target = some second) (file : (fs.current first).type = T_FILE_INODE_MYFUSE) (file' : (fs.current second).type = T_FILE_INODE_MYFUSE)
    (returned : myfuseRename source target RENAME_EXCHANGE fs = (.ok 0, after)) :
    SeesTargetDirectory fs source target ∧ after.resolve source = none ∨
      ¬ SeesTargetDirectory fs source target ∧ (Exchanged fs after source target ↔ (keysOf source).getLast? = (keysOf target).getLast?) := by
  have plain := fs.here_plain
  have root := fs.root_reached
  obtain ⟨-, error, -⟩ | ⟨paths, from_ip, from_dp, from_name, middle, late, from_ip_is, from_dp_is, -, unlinked, took, targeted, ends⟩ :=
    rename_cases between holds.covers root returned
  · exact absurd error (by decide)
  obtain ⟨init, from_keys, walked, found⟩ := took.entry from_ip_is from_dp_is
  have at_from := took.finds.from_ip
  have at_ip := took.finds.target_ip
  have at_dp := took.finds.target_dp
  rw [from_ip_is] at at_from
  have first_is : (middle.inode from_ip).inum = first := Option.some.inj (at_from.trans source_is)
  have second_node := holds.covers.walk_inside root target_is
  have first_node := holds.covers.walk_inside root source_is
  obtain ⟨ip, target_ip_is, second_is⟩ := Option.map_eq_some_iff.mp (at_ip.trans target_is)
  rw [target_ip_is] at unlinked
  rw [seesTarget_iff unlinked]
  by_cases sees : middle.saysDirectory ip
  · have leaf : fs.names (middle.inode ip).inum = none := second_is ▸ holds.covers.leaf second_node file'
    have covers := ends _ (took.existing plain target_ip_is leaf (.inl sees) targeted)
    refine .inl ⟨sees, ?_⟩
    rw [covers.resolve root, from_keys, holds.single.walk_unlink walked]
  · refine .inr ⟨sees, ?_⟩
    rw [target_ip_is] at targeted
    unfold renameTarget at targeted
    rw [bind_ok get_apply] at targeted
    dsimp only at targeted
    rw [if_neg (show ¬ (middle.inode ip).copy.type = T_DIR_INODE_MYFUSE from sees), if_pos (by decide)] at targeted
    cases target_dp_is : paths.target_dp with
    | none =>
      rw [target_dp_is] at targeted
      cases targeted
    | some place =>
      obtain ⟨td, name⟩ := place
      rw [target_dp_is] at targeted at_dp
      obtain ⟨init', target_keys, walked'⟩ := NameTree.parent_eq_some at_dp.symm
      have target_keys : keysOf target = init' ++ [DirName.of name] := target_keys
      have walked' : fs.names.walk ROOTINO init' = some (middle.inode td).inum := walked'
      have found' : fs.names.child (middle.inode td).inum (.of name) = some second := by
        have reached := target_is
        rw [resolve, target_keys, NameTree.walk_concat, walked'] at reached
        exact reached
      rw [first_is] at found targeted
      rw [second_is] at targeted
      obtain ⟨moved, rfl⟩ := holds.covers.inum_of (holds.covers.walk_inside root walked) found
      obtain ⟨moved', rfl⟩ := holds.covers.inum_of (holds.covers.walk_inside root walked') found'
      have directory : ((fs.names.unlink (middle.inode from_dp).inum (.of from_name)) (middle.inode td).inum).isSome := by
        rw [NameTree.isSome_unlink]
        exact NameTree.directory_of_child found'
      have parent : ((fs.names.unlink (middle.inode from_dp).inum (.of from_name)) (middle.inode from_dp).inum).isSome := by
        rw [NameTree.isSome_unlink]
        exact NameTree.directory_of_child found
      obtain ⟨child, turns⟩ := (took.on.exchanges plain (RenamePaths.ours_from_dp from_dp_is) took.loaded parent
        (RenamePaths.ours_target_dp target_dp_is) directory (RenamePaths.ours_target_ip target_ip_is) first_node second_node).returned targeted
      have apart : ¬ ((middle.inode td).inum = (middle.inode from_dp).inum ∧ DirName.of name = .of from_name) := by
        intro same
        rw [NameTree.child_unlink, if_pos same] at child
        exact child rfl
      have exchange : fs.names.Exchange ROOTINO init (.of from_name) init' (.of name) (middle.inode from_dp).inum (middle.inode td).inum moved.1 moved'.1 :=
        ⟨holds.single, walked, found, holds.covers.leaf first_node file, walked', found', holds.covers.leaf second_node file', apart⟩
      have covers := ends _ turns.on
      have lasts : (keysOf source).getLast? = (keysOf target).getLast? ↔ DirName.of name = .of from_name := by
        rw [getLast?_keys from_keys, getLast?_keys target_keys, Option.some_inj]
        exact eq_comm
      rw [lasts]
      exact exchanged_iff exchange from_keys target_keys covers

/-- `RENAME_EXCHANGE` exchanges two files just when their last names are equal and the target is not taken for a directory. -/
theorem rename_exchanges_iff {first second : Nat} (between : fs.Between) (holds : fs.DirTree) (source_is : fs.resolve source = some first)
    (target_is : fs.resolve target = some second) (file : (fs.current first).type = T_FILE_INODE_MYFUSE) (file' : (fs.current second).type = T_FILE_INODE_MYFUSE)
    (returned : myfuseRename source target RENAME_EXCHANGE fs = (.ok 0, after)) :
    Exchanged fs after source target ↔ (keysOf source).getLast? = (keysOf target).getLast? ∧ ¬ SeesTargetDirectory fs source target := by
  obtain ⟨sees, lost⟩ | ⟨file, exchanges⟩ := rename_exchange_cases between holds source_is target_is file file' returned
  · apply iff_of_false
    · intro exchanged
      have leads := exchanged.source_leads
      rw [lost, target_is] at leads
      cases leads
    · exact fun both => both.2 sees
  · rw [exchanges, and_iff_left file]

/-- `/a` and `/b` have different last names. -/
theorem rename_exchanges_twoFiles : ¬ Exchanged twoFiles (myfuseRename [47, 97] [47, 98] RENAME_EXCHANGE twoFiles).2 [47, 97] [47, 98] := by
  have value : valueOf (myfuseRename [47, 97] [47, 98] RENAME_EXCHANGE) twoFiles = some 0 := by decide +kernel
  obtain ⟨file, file'⟩ := twoFiles_types
  rw [rename_exchanges_iff twoFiles_between.1 twoFiles_tree twoFiles_a twoFiles_b file file' (returns_of_valueOf value)]
  exact fun both => absurd both.1 (by decide)

/-- The exchange of `/a` and `/b` leaves one name. -/
theorem rename_exchange_loses : ¬ ∀ (fs : FS) (source target : List Byte) (first second : Nat) (after : FS), fs.Between → fs.DirTree → source ≠ target →
    fs.resolve source = some first → fs.resolve target = some second → (fs.current first).type = T_FILE_INODE_MYFUSE →
    (fs.current second).type = T_FILE_INODE_MYFUSE → myfuseRename source target RENAME_EXCHANGE fs = (.ok 0, after) →
    Exchanged fs after source target := by
  intro claimed
  have value : valueOf (myfuseRename [47, 97] [47, 98] RENAME_EXCHANGE) twoFiles = some 0 := by decide +kernel
  have returned := returns_of_valueOf value
  obtain ⟨file, file'⟩ := twoFiles_types
  have exchanged := claimed _ _ _ _ _ _ twoFiles_between.1 twoFiles_tree (by decide) twoFiles_a twoFiles_b file file' returned
  obtain ⟨-, lost⟩ | ⟨-, exchanges⟩ := rename_exchange_cases twoFiles_between.1 twoFiles_tree twoFiles_a twoFiles_b file file' returned
  · have leads := exchanged.source_leads
    rw [lost, twoFiles_b] at leads
    cases leads
  · exact absurd (exchanges.mp exchanged) (by decide)

end FS
end Myfuse
