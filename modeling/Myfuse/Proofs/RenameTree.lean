import Myfuse.Proofs.DirectoryTree

/-! What `myfuse_rename` does to the tree of names: an existing target loses the source,
and an exchange swaps only equal names in two directories. -/

namespace Myfuse
open Library Library.Exec

namespace FS
variable {origin : Origin} {base refs : Nat → Int} {fs middle after : FS} {ip dp inum : Nat} {nodes : Set Nat} {tree : NameTree Nat DirName}
  {source target : List Byte} {paths : RenamePaths}

/-- The references of the walks. -/
def RenamePaths.tally (paths : RenamePaths) (base : Nat → Int) : Nat → Int :=
  plusPtr (plusPtr (plusPtr (plusPtr base paths.target_ip) (paths.target_dp.map Prod.fst)) paths.from_ip) (paths.from_dp.map Prod.fst)

/-- What the walks found is what the tree has. -/
structure RenamePaths.Finds (paths : RenamePaths) (tree : NameTree Nat DirName) (source target : List Byte) (fs : FS) : Prop where
  target_ip : paths.target_ip.map (fun ip => (fs.inode ip).inum) = tree.walk ROOTINO (keysOf target)
  target_dp : paths.target_dp.map (fun place => ((fs.inode place.1).inum, DirName.of place.2)) = tree.parent ROOTINO (keysOf target)
  from_ip : paths.from_ip.map (fun ip => (fs.inode ip).inum) = tree.walk ROOTINO (keysOf source)
  from_dp : paths.from_dp.map (fun place => ((fs.inode place.1).inum, DirName.of place.2)) = tree.parent ROOTINO (keysOf source)

/-- An entry that is held beyond `base` names the same inode after the next walk. -/
theorem Stays.found {refs : Nat → Int} {found : Option Nat} (stays : Stays refs fs after) (held : ∀ ip, found = some ip → 0 < refs ip) :
    found.map (fun ip => (after.inode ip).inum) = found.map fun ip => (fs.inode ip).inum := by
  cases found with
  | none => rfl
  | some ip => exact congrArg some (stays.inum ip (held ip rfl))

theorem Stays.place {refs : Nat → Int} {found : Option (Nat × Name)} (stays : Stays refs fs after) (held : ∀ ip, found.map Prod.fst = some ip → 0 < refs ip) :
    found.map (fun place => ((after.inode place.1).inum, DirName.of place.2)) = found.map fun place => ((fs.inode place.1).inum, DirName.of place.2) := by
  cases found with
  | none => rfl
  | some place => exact congrArg (fun inum => some (inum, DirName.of place.2)) (stays.inum place.1 (held place.1 rfl))

theorem renamePaths_finds (between : fs.Between) (covers : fs.Covers nodes tree) (root : ROOTINO ∈ nodes) (source target : List Byte) :
    Ensures (renamePaths source target) fs
      (fun paths after => OnTree (fs.here False False False) fs.refsOf (paths.tally fs.refsOf) nodes tree after ∧ paths.Finds tree source target after ∧
        Unchanged fs after)
      fun _ _ => True := by
  have plain := fs.here_plain
  have held : ∀ {refs : Nat → Int} {found : Option Nat} (ip : Nat), (∀ ip, fs.refsOf ip ≤ refs ip) → found = some ip → 0 < plusPtr refs found ip := by
    intro refs found ip more here
    rw [here]
    have := between.counts ip
    exact Int.lt_of_le_of_lt (Int.le_trans this (more ip)) (plusPtr_own refs ip)
  apply Ensures.bind (between.begins covers)
  intro _ began opening
  obtain ⟨on, same⟩ := opening
  apply Ensures.bind (on.walks plain root target)
  intro target_ip first walked
  obtain ⟨on₁, -, same₁, found₁⟩ := walked
  apply Ensures.bind (on₁.walksParent plain root target)
  intro target_dp second walked
  obtain ⟨on₂, stays₂, same₂, found₂⟩ := walked
  apply Ensures.bind (on₂.walks plain root source)
  intro from_ip third walked
  obtain ⟨on₃, stays₃, same₃, found₃⟩ := walked
  apply Ensures.bind (on₃.walksParent plain root source)
  intro from_dp fourth walked
  obtain ⟨on₄, stays₄, same₄, found₄⟩ := walked
  have more₁ := on₁.tended.more
  have more₂ := on₂.tended.more
  have held₁ : ∀ ip, target_ip = some ip → 0 < plusPtr fs.refsOf target_ip ip := fun ip => held ip fun _ => Int.le_refl _
  have held₂ : ∀ ip, target_dp.map Prod.fst = some ip → 0 < plusPtr (plusPtr fs.refsOf target_ip) (target_dp.map Prod.fst) ip := fun ip => held ip more₁
  have held₃ : ∀ ip, from_ip = some ip → 0 < plusPtr (plusPtr (plusPtr fs.refsOf target_ip) (target_dp.map Prod.fst)) from_ip ip := fun ip => held ip more₂
  have up : ∀ {refs : Nat → Int} {ip : Nat} (found : Option Nat), 0 < refs ip → 0 < plusPtr refs found ip := fun found some =>
    Int.lt_of_lt_of_le some (le_plusPtr _ found _)
  refine (ensures_pure _).mpr ⟨on₄, ⟨?_, ?_, ?_, found₄⟩, (((same.trans same₁).trans same₂).trans same₃).trans same₄⟩
  · rw [stays₄.found fun ip here => up _ (up _ (held₁ ip here)), stays₃.found fun ip here => up _ (held₁ ip here), stays₂.found held₁, found₁]
  · rw [stays₄.place fun ip here => up _ (held₂ ip here), stays₃.place held₂, found₂]
  · rw [stays₄.found held₃, found₃]


/-! The references of the walks. -/

namespace RenamePaths

theorem ours_target_ip (found : paths.target_ip = some ip) : base ip < paths.tally base ip :=
  ours_plusPtr (ours_plusPtr (ours_plusPtr (ours_own found (Int.le_refl _)) _) _) _

theorem ours_target_dp {name : Name} (found : paths.target_dp = some (dp, name)) : base dp < paths.tally base dp := by
  apply ours_plusPtr (ours_plusPtr (ours_own ?_ (le_plusPtr base _ dp)) _)
  rw [found]
  rfl

theorem ours_from_ip (found : paths.from_ip = some ip) : base ip < paths.tally base ip :=
  ours_plusPtr (ours_own found (more_plusPtr (le_plusPtr base _) _ ip)) _

theorem ours_from_dp {name : Name} (found : paths.from_dp = some (dp, name)) : base dp < paths.tally base dp := by
  apply ours_own ?_ (more_plusPtr (more_plusPtr (le_plusPtr base _) _) _ dp)
  rw [found]
  rfl

end RenamePaths

/-- What is held keeps its inode. -/
theorem RenamePaths.Finds.stays (finds : paths.Finds tree source target fs) (stays : Stays (paths.tally base) fs after) (unsigned : ∀ ip, 0 ≤ base ip) :
    paths.Finds tree source target after := by
  refine ⟨?_, ?_, ?_, ?_⟩
  · rw [stays.found fun ip here => Int.lt_of_le_of_lt (unsigned ip) (ours_target_ip here)]
    exact finds.target_ip
  · rw [stays.place, finds.target_dp]
    intro ip here
    obtain ⟨place, found, rfl⟩ := Option.map_eq_some_iff.mp here
    exact Int.lt_of_le_of_lt (unsigned _) (ours_target_dp found)
  · rw [stays.found fun ip here => Int.lt_of_le_of_lt (unsigned ip) (ours_from_ip here)]
    exact finds.from_ip
  · rw [stays.place, finds.from_dp]
    intro ip here
    obtain ⟨place, found, rfl⟩ := Option.map_eq_some_iff.mp here
    exact Int.lt_of_le_of_lt (unsigned _) (ours_from_dp found)

/-- The call when it looks at the target: the entry of the source is cleared. -/
structure Unlinked (origin : Origin) (base : Nat → Int) (nodes : Set Nat) (tree : NameTree Nat DirName) (source target : List Byte) (paths : RenamePaths)
    (from_dp : Nat) (from_name : Name) (fs : FS) : Prop where
  on : OnTree origin base (paths.tally base) nodes (tree.unlink (fs.inode from_dp).inum (.of from_name)) fs
  finds : paths.Finds tree source target fs
  loaded : fs.Loaded from_dp
  child : tree.child (fs.inode from_dp).inum (.of from_name) ≠ none

theorem renameTake_takes (plain : origin.Plain) (on : OnTree origin base (paths.tally base) nodes tree fs) (finds : paths.Finds tree source target fs) :
    Ensures (renameTake paths) fs
      (fun found after => (found = none ∧ paths.Missing ∧ after = fs) ∨
        ∃ from_ip from_dp from_name, paths.from_ip = some from_ip ∧ paths.from_dp = some (from_dp, from_name) ∧ ¬ paths.Missing ∧
          found = some (from_ip, from_dp, from_name, paths.target_ip, paths.target_dp) ∧
          Unlinked origin base nodes tree source target paths from_dp from_name after)
      fun _ _ => True := by
  by_cases missing : paths.Missing
  · rw [renameTake_missing missing, ensures_pure]
    exact .inl ⟨rfl, missing, rfl⟩
  obtain ⟨target_ip, target_dp, from_ip, from_place⟩ := paths
  cases from_ip with
  | none => exact absurd (.inr (.inl rfl)) missing
  | some from_ip =>
    cases from_place with
    | none => exact absurd (.inr (.inr rfl)) missing
    | some place =>
      obtain ⟨from_dp, from_name⟩ := place
      have ours : base from_dp < RenamePaths.tally ⟨target_ip, target_dp, some from_ip, some (from_dp, from_name)⟩ base from_dp :=
        RenamePaths.ours_from_dp rfl
      have directory : (tree (fs.inode from_dp).inum).isSome := NameTree.parent_directory finds.from_dp.symm
      obtain ⟨entries, directory⟩ := Option.isSome_iff_exists.mp directory
      have present : ¬ (target_ip = none ∧ target_dp = none) := fun none => missing (.inl none)
      unfold renameTake
      dsimp only
      rw [if_neg present]
      apply Ensures.bind (on.locks (RenamePaths.ours_from_ip rfl))
      intro _ first locked
      obtain ⟨turns, -⟩ := locked
      apply Ensures.bind (turns.on.locks ours)
      intro _ second locked
      obtain ⟨turns', loaded⟩ := locked
      have turns := turns.trans turns'
      have held := on.held ours
      have names := turns.names held
      rw [← names] at directory
      apply Ensures.bind (turns.on.drops plain ours loaded directory from_name)
      intro _ third dropped
      obtain ⟨child, turns'⟩ := dropped
      have loaded := turns'.loaded held loaded
      have turns := turns.trans turns'
      apply Ensures.bind (turns.on.unlocks from_dp)
      intro _ fourth turns'
      have loaded := turns'.loaded held loaded
      have turns := turns.trans turns'
      apply Ensures.bind (turns.on.unlocks from_ip)
      intro _ fifth turns'
      have loaded := turns'.loaded held loaded
      have turns := turns.trans turns'
      rw [names] at child turns
      have last := turns.names held
      rw [← last] at child turns
      exact (ensures_pure _).mpr (.inr ⟨from_ip, from_dp, from_name, rfl, rfl, missing, rfl, turns.on, finds.stays turns.stays on.tended.unsigned, loaded, child⟩)

/-- The end of the call gives everything back. -/
theorem renamePuts_covers {from_ip from_dp : Nat} {target_ip : Option Nat} {target_dp : Option (Nat × Name)} {from_name : Name}
    (on : OnTree origin base (RenamePaths.tally ⟨target_ip, target_dp, some from_ip, some (from_dp, from_name)⟩ base) nodes tree fs) (res : Int) :
    Ensures (do
      iputSome target_ip
      iputSome (target_dp.map Prod.fst)
      iput from_ip
      iput from_dp
      endOp
      pure res) fs (fun value after => value = res ∧ after.Covers nodes tree) fun _ _ => True := by
  have order : RenamePaths.tally ⟨target_ip, target_dp, some from_ip, some (from_dp, from_name)⟩ base =
      plusPtr (plusPtr (plusPtr (plusPtr base (some from_dp)) (some from_ip)) (target_dp.map Prod.fst)) target_ip := by
    show plusPtr (plusPtr (plusPtr (plusPtr base target_ip) (target_dp.map Prod.fst)) (some from_ip)) (some from_dp) = _
    rw [plusPtr_comm base target_ip, plusPtr_comm (plusPtr base _) target_ip, plusPtr_comm (plusPtr (plusPtr base _) _) target_ip,
      plusPtr_comm base (target_dp.map Prod.fst), plusPtr_comm (plusPtr base _) (target_dp.map Prod.fst), plusPtr_comm base (some from_ip)]
  rw [order] at on
  have first := le_plusPtr base (some from_dp)
  have second := more_plusPtr first (some from_ip)
  have third := more_plusPtr second (target_dp.map Prod.fst)
  apply Ensures.bind ((on.putsSome third).mono (fun _ _ on => on) fun _ _ => False.elim)
  intro _ _ on
  apply Ensures.bind ((on.putsSome second).mono (fun _ _ on => on) fun _ _ => False.elim)
  intro _ _ on
  have on : OnTree origin base (plus (plusPtr base (some from_dp)) from_ip) nodes tree _ := on
  apply Ensures.bind ((on.puts first).mono (fun _ _ on => on) fun _ _ => False.elim)
  intro _ _ on
  have on : OnTree origin base (plus base from_dp) nodes tree _ := on
  apply Ensures.bind ((on.puts fun _ => Int.le_refl _).mono (fun _ _ on => on) fun _ _ => False.elim)
  intro _ _ on
  apply Ensures.bind (on.tended.usable.ends.mono (fun _ _ ended => ended) fun _ _ => False.elim)
  intro _ _ ended
  exact (ensures_pure _).mpr ⟨rfl, on.covers.unchanged ended.2.1.unchanged⟩

/-- The two ways through the call. -/
theorem rename_cases {flags : Nat} {result : Int} (between : fs.Between) (covers : fs.Covers nodes tree) (root : ROOTINO ∈ nodes)
    (returned : myfuseRename source target flags fs = (.ok result, after)) :
    (tree.walk ROOTINO (keysOf target) = none ∧ tree.parent ROOTINO (keysOf target) = none ∨ tree.walk ROOTINO (keysOf source) = none ∨
        tree.parent ROOTINO (keysOf source) = none) ∧ result = -ENOENT ∧ Unchanged fs after ∨
      ∃ paths from_ip from_dp from_name middle late, paths.from_ip = some from_ip ∧ paths.from_dp = some (from_dp, from_name) ∧ ¬ paths.Missing ∧
        renameUnlink source target fs = (.ok (some (from_ip, from_dp, from_name, paths.target_ip, paths.target_dp)), middle) ∧
        Unlinked (fs.here False False False) fs.refsOf nodes tree source target paths from_dp from_name middle ∧
        renameTarget from_ip from_dp from_name paths.target_ip paths.target_dp flags middle = (.ok result, late) ∧
        ∀ tree', OnTree (fs.here False False False) fs.refsOf (paths.tally fs.refsOf) nodes tree' late → after.Covers nodes tree' := by
  rw [myfuseRename_eq] at returned
  obtain ⟨found, middle, unlinked, finished⟩ := bind_returns returned
  have unlinks := unlinked
  rw [renameUnlink_eq] at unlinks
  obtain ⟨paths, walked, finding, taking⟩ := bind_returns unlinks
  obtain ⟨on, finds, same⟩ := (renamePaths_finds between covers root source target).returned finding
  obtain ⟨rfl, missing, rfl⟩ | ⟨from_ip, from_dp, from_name, some_ip, some_dp, present, rfl, took⟩ :=
    (renameTake_takes fs.here_plain on finds).returned taking
  · left
    cases finished
    refine ⟨?_, rfl, same⟩
    rw [← finds.target_ip, ← finds.target_dp, ← finds.from_ip, ← finds.from_dp]
    simp only [Option.map_eq_none_iff]
    exact missing
  · right
    obtain ⟨res, late, targeted, rest⟩ := bind_returns finished
    refine ⟨paths, from_ip, from_dp, from_name, middle, late, some_ip, some_dp, present, unlinked, took, ?_, fun tree' on' => ?_⟩
    · obtain ⟨_, _, -, rest⟩ := bind_returns rest
      obtain ⟨_, _, -, rest⟩ := bind_returns rest
      obtain ⟨_, _, -, rest⟩ := bind_returns rest
      obtain ⟨_, _, -, rest⟩ := bind_returns rest
      obtain ⟨_, _, -, rest⟩ := bind_returns rest
      cases rest
      exact targeted
    · obtain ⟨target_ip, target_dp, from_ip', from_place⟩ := paths
      obtain rfl : from_ip' = some from_ip := some_ip
      obtain rfl : from_place = some (from_dp, from_name) := some_dp
      exact ((renamePuts_covers on' res).returned rest).2

/-! Failures. -/

/-- A value below zero comes from the test of the flags. -/
theorem renameTarget_refuses {from_ip from_dp flags : Nat} {from_name : Name} {target_ip : Option Nat} {target_dp : Option (Nat × Name)} {result : Int}
    (returned : renameTarget from_ip from_dp from_name target_ip target_dp flags fs = (.ok result, after)) (negative : result < 0) : after = fs := by
  have positive : ¬ (0 : Int) < 0 := by decide
  unfold renameTarget at returned
  rw [bind_ok get_apply] at returned
  cases target_ip with
  | none =>
    cases target_dp with
    | none => cases returned
    | some place =>
      obtain ⟨_, _, -, rest⟩ := bind_returns returned
      obtain ⟨_, _, -, rest⟩ := bind_returns rest
      obtain ⟨_, _, -, rest⟩ := bind_returns rest
      cases rest
      exact absurd negative positive
  | some ip =>
    dsimp only at returned
    split at returned
    next =>
      obtain ⟨_, _, -, rest⟩ := bind_returns returned
      obtain ⟨_, _, -, rest⟩ := bind_returns rest
      obtain ⟨_, _, -, rest⟩ := bind_returns rest
      cases rest
      exact absurd negative positive
    next =>
      split at returned
      next =>
        cases target_dp with
        | none => cases returned
        | some place =>
          obtain ⟨_, _, -, rest⟩ := bind_returns returned
          obtain ⟨_, _, -, rest⟩ := bind_returns rest
          obtain ⟨_, _, -, rest⟩ := bind_returns rest
          obtain ⟨_, _, -, rest⟩ := bind_returns rest
          obtain ⟨_, _, -, rest⟩ := bind_returns rest
          obtain ⟨_, _, -, rest⟩ := bind_returns rest
          obtain ⟨_, _, -, rest⟩ := bind_returns rest
          cases rest
          exact absurd negative positive
      next =>
        split at returned
        next =>
          cases returned
          rfl
        next =>
          cases returned
          exact absurd negative positive

/-- An entry less is a change. -/
theorem Covers.unlink_changes {name : DirName} (covers : fs.Covers nodes tree) (node : inum ∈ nodes) (child : tree.child inum name ≠ none)
    (unlinked : after.Covers nodes (tree.unlink inum name)) : ¬ Unchanged fs after := by
  intro same
  apply child
  have entries := (unlinked.names node).symm.trans ((covers.unchanged same).names node)
  rw [NameTree.child, ← entries, ← NameTree.child, NameTree.child_unlink, if_pos ⟨rfl, rfl⟩]

/-- The walks of `myfuse_rename` do not find what the call needs. -/
def RenameFindsNothing (fs : FS) (source target : List Byte) : Prop :=
  fs.resolve target = none ∧ fs.resolveParent target = none ∨ fs.resolve source = none ∨ fs.resolveParent source = none

/-- The call fails early and changes nothing, or it has cleared the entry of the source. -/
theorem rename_error_cases {flags : Nat} {result : Int} (between : fs.Between) (holds : fs.DirTree)
    (returned : myfuseRename source target flags fs = (.ok result, after)) (negative : result < 0) :
    RenameFindsNothing fs source target ∧ Unchanged fs after ∨ ¬ RenameFindsNothing fs source target ∧ ¬ Unchanged fs after := by
  obtain ⟨missing, -, same⟩ | ⟨paths, from_ip, from_dp, from_name, middle, late, -, from_dp_is, present, -, took, targeted, ends⟩ :=
    rename_cases between holds.covers fs.root_reached returned
  · exact .inl ⟨missing, same⟩
  · obtain rfl := renameTarget_refuses targeted negative
    have node := took.on.points from_dp (RenamePaths.ours_from_dp from_dp_is)
    refine .inr ⟨fun missing => ?_, holds.covers.unlink_changes node took.child (ends _ took.on)⟩
    apply present
    unfold RenameFindsNothing resolve resolveParent at missing
    rw [← took.finds.target_ip, ← took.finds.target_dp, ← took.finds.from_ip, ← took.finds.from_dp] at missing
    simp only [Option.map_eq_none_iff] at missing
    exact missing

/-- A `myfuse_rename` that returns an error has changed nothing just when its walks failed: the test of
`RENAME_NOREPLACE` comes after the entry of the source is cleared. -/
theorem rename_error_unchanged_iff {flags : Nat} {result : Int} (between : fs.Between) (holds : fs.DirTree)
    (returned : myfuseRename source target flags fs = (.ok result, after)) (negative : result < 0) :
    Unchanged fs after ↔ RenameFindsNothing fs source target := by
  obtain ⟨missing, same⟩ | ⟨present, changed⟩ := rename_error_cases between holds returned negative
  · exact iff_of_true same missing
  · exact iff_of_false changed present

/-- `/c` is missing. -/
theorem rename_error_unchanged_missing : Unchanged twoFiles (myfuseRename [47, 99] [47, 100] 0 twoFiles).2 := by
  have value : valueOf (myfuseRename [47, 99] [47, 100] 0) twoFiles = some (-ENOENT) := by decide +kernel
  apply (rename_error_unchanged_iff twoFiles_between.1 twoFiles_tree (returns_of_valueOf value) (by decide)).mpr
  refine .inr (.inl ?_)
  rw [twoFiles_resolve]
  decide

/-- `/a` is gone when `RENAME_NOREPLACE` refuses `/b`. -/
theorem rename_noreplace_unlinks : ¬ ∀ (fs : FS) (source target : List Byte) (flags : Nat) (result : Int) (after : FS), fs.Between → fs.DirTree →
    myfuseRename source target flags fs = (.ok result, after) → result < 0 → Unchanged fs after := by
  intro claimed
  have value : valueOf (myfuseRename [47, 97] [47, 98] RENAME_NOREPLACE) twoFiles = some (-EEXIST) := by decide +kernel
  have returned := returns_of_valueOf value
  have same := claimed _ _ _ _ _ _ twoFiles_between.1 twoFiles_tree returned (by decide)
  obtain ⟨missing, -⟩ | ⟨-, changed⟩ := rename_error_cases twoFiles_between.1 twoFiles_tree returned (by decide)
  · unfold RenameFindsNothing at missing
    rw [twoFiles_resolve, twoFiles_resolve, twoFiles_parent, twoFiles_parent] at missing
    exact absurd missing (by decide)
  · exact changed same

end FS
end Myfuse
