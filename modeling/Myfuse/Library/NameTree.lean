import Mathlib.Data.List.Basic
import Mathlib.Logic.Relation
import Myfuse.Library.Assign
import Myfuse.Library.PartialMap

/-! Trees of names: a node is a directory, a partial map from keys to nodes, or a leaf.
Walking down a list of keys, with or without the last one. -/

namespace Myfuse.Library

/-- What a node maps its keys to; a leaf maps none. -/
abbrev NameTree (ν κ : Type) := ν → Option (PartialMap κ ν)

namespace NameTree
variable {ν κ : Type} (tree : NameTree ν κ)

def child (node : ν) (key : κ) : Option ν := do
  let entries ← tree node
  entries key

/-- The node reached by looking up the keys in turn. -/
def walk (start : ν) (keys : List κ) : Option ν := keys.foldlM tree.child start

/-- The directory reached by all keys but the last, and the last. -/
def parent (start : ν) (keys : List κ) : Option (ν × κ) := do
  let last ← keys.getLast?
  let node ← tree.walk start keys.dropLast
  if (tree node).isSome then some (node, last) else none

/-- An entry of the first node names the second. -/
def Edge (node other : ν) : Prop := ∃ key, tree.child node key = some other

/-- The second node is reached from the first by some keys, at least one. -/
abbrev Above : ν → ν → Prop := Relation.TransGen tree.Edge

abbrev Reached : ν → ν → Prop := Relation.ReflTransGen tree.Edge

/-- No directory is below itself. -/
def Acyclic : Prop := ∀ node, ¬ tree.Above node node

variable {tree} {start node : ν} {key : κ}

theorem child_some {entries : PartialMap κ ν} (found : tree node = some entries) : tree.child node key = entries key := by
  rw [child, found]
  rfl

theorem directory_of_child {other : ν} (found : tree.child node key = some other) : (tree node).isSome := by
  obtain ⟨entries, directory, -⟩ := Option.bind_eq_some_iff.mp found
  rw [directory]
  rfl

theorem child_leaf (leaf : tree node = none) : tree.child node key = none := by
  rw [child, leaf]
  rfl

/-- A rank that rises along the entries. -/
theorem acyclic_of_rank (rank : ν → Nat) (rises : ∀ {node other}, tree.Edge node other → rank node < rank other) : tree.Acyclic := by
  have above : ∀ {node other}, tree.Above node other → rank node < rank other := by
    intro node other above
    induction above with
    | single edge => exact rises edge
    | tail _ edge ih => exact Nat.lt_trans ih (rises edge)
  exact fun node cycle => Nat.lt_irrefl _ (above cycle)

@[simp] theorem walk_nil : tree.walk start [] = some start := rfl

theorem walk_cons (keys : List κ) : tree.walk start (key :: keys) = (tree.child start key).bind fun node => tree.walk node keys :=
  List.foldlM_cons ..

theorem walk_concat (keys : List κ) : tree.walk start (keys ++ [key]) = (tree.walk start keys).bind fun node => tree.child node key := by
  unfold walk
  rw [List.foldlM_append]
  congr 1
  funext node
  rw [List.foldlM_cons]
  cases tree.child node key with
  | none => rfl
  | some other => rfl

/-- The last step of a walk. -/
theorem walk_concat_some {init : List κ} (walked : tree.walk start (init ++ [key]) = some node) :
    ∃ parent, tree.walk start init = some parent ∧ tree.child parent key = some node := by
  rw [walk_concat] at walked
  exact Option.bind_eq_some_iff.mp walked

@[simp] theorem parent_nil : tree.parent start [] = none := rfl

theorem parent_singleton : tree.parent start [key] = if (tree start).isSome then some (start, key) else none := rfl

theorem parent_directory {keys : List κ} {found : ν × κ} (parent : tree.parent start keys = some found) : (tree found.1).isSome := by
  unfold NameTree.parent at parent
  obtain ⟨last, -, rest⟩ := Option.bind_eq_some_iff.mp parent
  obtain ⟨node, -, chosen⟩ := Option.bind_eq_some_iff.mp rest
  split at chosen
  next directory =>
    obtain rfl := Option.some.inj chosen
    exact directory
  next => cases chosen

/-- The parent is where the other keys lead. -/
theorem parent_eq_some {keys : List κ} {found : ν × κ} (parent : tree.parent start keys = some found) :
    ∃ init, keys = init ++ [found.2] ∧ tree.walk start init = some found.1 := by
  unfold NameTree.parent at parent
  obtain ⟨last, ended, rest⟩ := Option.bind_eq_some_iff.mp parent
  obtain ⟨node, walked, chosen⟩ := Option.bind_eq_some_iff.mp rest
  split at chosen
  next =>
    obtain rfl := Option.some.inj chosen
    exact ⟨keys.dropLast, (List.dropLast_append_getLast? last ended).symm, walked⟩
  next => cases chosen

theorem parent_concat {init : List κ} (walked : tree.walk start init = some node) (directory : (tree node).isSome) :
    tree.parent start (init ++ [key]) = some (node, key) := by
  unfold parent
  rw [List.getLast?_concat, List.dropLast_concat, walked]
  exact if_pos directory

/-- One key more in front. -/
theorem parent_cons {keys : List κ} (more : keys ≠ []) :
    tree.parent start (key :: keys) = (tree.child start key).bind fun node => tree.parent node keys := by
  obtain ⟨init, last, rfl⟩ := (List.eq_nil_or_concat' keys).resolve_left more
  have front : (key :: (init ++ [last])).dropLast = key :: init := by
    rw [← List.cons_append, List.dropLast_concat]
  have same : (key :: (init ++ [last])).getLast? = some last := by
    rw [← List.cons_append, List.getLast?_concat]
  unfold parent
  rw [front, same, walk_cons, List.dropLast_concat, List.getLast?_concat]
  cases tree.child start key with
  | none => rfl
  | some node => rfl

/-- The last key looked up in the parent ends the walk. -/
theorem child_parent {keys : List κ} (some : keys ≠ []) :
    ((tree.parent start keys).bind fun found => tree.child found.1 found.2) = tree.walk start keys := by
  obtain ⟨init, last, rfl⟩ := (List.eq_nil_or_concat' keys).resolve_left some
  unfold parent
  rw [List.getLast?_concat, List.dropLast_concat, walk_concat]
  cases tree.walk start init with
  | none => rfl
  | some node =>
    show (if (tree node).isSome then Option.some (node, last) else none).bind _ = tree.child node last
    cases found : tree node with
    | none =>
      rw [child_leaf found]
      rfl
    | some entries => rfl

/-- The same tree with other keys. -/
def comap {κ' : Type} (tree : NameTree ν κ) (key : κ' → κ) : NameTree ν κ' := fun node => (tree node).map fun entries other => entries (key other)

section
variable {κ' : Type} {rename : κ' → κ}

theorem child_comap (key : κ') : (tree.comap rename).child node key = tree.child node (rename key) := by
  unfold child comap
  cases tree node with
  | none => rfl
  | some entries => rfl

theorem walk_comap (keys : List κ') : (tree.comap rename).walk start keys = tree.walk start (keys.map rename) := by
  induction keys generalizing start with
  | nil => rfl
  | cons key rest ih =>
    rw [List.map_cons, walk_cons, walk_cons, child_comap]
    cases tree.child start (rename key) with
    | none => rfl
    | some node => exact ih

theorem parent_comap (keys : List κ') :
    ((tree.comap rename).parent start keys).map (fun found => (found.1, rename found.2)) = tree.parent start (keys.map rename) := by
  unfold parent
  rw [walk_comap, List.getLast?_map, List.map_dropLast]
  cases keys.getLast? with
  | none => rfl
  | some last =>
    cases found : tree.walk start (keys.map rename).dropLast with
    | none => rfl
    | some node =>
      show Option.map _ (if ((tree.comap rename) node).isSome then some (node, last) else none) = if (tree node).isSome then some (node, rename last) else none
      unfold comap
      rw [Option.isSome_map]
      split
      next => rfl
      next => rfl

end

/-! Trees that agree. -/

/-- Trees with the same entries on a closed set of nodes have the same walks from there. -/
theorem walk_agree {other : NameTree ν κ} {nodes : Set ν} (same : ∀ node ∈ nodes, other node = tree node)
    (closed : ∀ node ∈ nodes, ∀ next, tree.Edge node next → next ∈ nodes) (keys : List κ) (inside : start ∈ nodes) :
    other.walk start keys = tree.walk start keys := by
  induction keys generalizing start with
  | nil => rfl
  | cons key rest ih =>
    rw [walk_cons, walk_cons, child, same start inside, ← child]
    cases found : tree.child start key with
    | none => rfl
    | some next => exact ih (closed start inside next ⟨key, found⟩)

/-- A walk that meets no changed entry. -/
theorem walk_avoids {other : NameTree ν κ} (keys : List κ)
    (same : ∀ front key back, keys = front ++ key :: back → ∀ node, tree.walk start front = some node → other.child node key = tree.child node key) :
    other.walk start keys = tree.walk start keys := by
  induction keys generalizing start with
  | nil => rfl
  | cons key rest ih =>
    rw [walk_cons, walk_cons, same [] key rest rfl start rfl]
    cases found : tree.child start key with
    | none => rfl
    | some next =>
      apply ih
      intro front other back split node walked
      apply same (key :: front) other back (by rw [split]; rfl)
      rw [walk_cons, found]
      exact walked

theorem reached_of_walk {keys : List κ} (walked : tree.walk start keys = some node) : tree.Reached start node := by
  induction keys generalizing start with
  | nil => exact Option.some.inj walked ▸ .refl
  | cons key rest ih =>
    rw [walk_cons] at walked
    obtain ⟨next, found, walked⟩ := Option.bind_eq_some_iff.mp walked
    exact .head ⟨key, found⟩ (ih walked)

theorem walk_of_reached (reached : tree.Reached start node) : ∃ keys, tree.walk start keys = some node := by
  induction reached with
  | refl => exact ⟨[], rfl⟩
  | tail _ edge ih =>
    obtain ⟨keys, walked⟩ := ih
    obtain ⟨key, found⟩ := edge
    refine ⟨keys ++ [key], ?_⟩
    rw [walk_concat, walked]
    exact found

/-- Every node reached from the root has one name, and the root has none. -/
structure Single (tree : NameTree ν κ) (root : ν) : Prop where
  once : ∀ {first second other : ν} {key key' : κ}, tree.Reached root first → tree.Reached root second → tree.child first key = some other →
    tree.child second key' = some other → first = second ∧ key = key'
  root : ∀ {node : ν} {key : κ}, tree.Reached root node → tree.child node key ≠ some root

/-- Then there is one way to every node. -/
theorem Single.unique {root : ν} (single : tree.Single root) {keys keys' : List κ} (walked : tree.walk root keys = some node)
    (walked' : tree.walk root keys' = some node) : keys = keys' := by
  induction keys using List.reverseRecOn generalizing keys' node with
  | nil =>
    obtain rfl : root = node := Option.some.inj walked
    obtain rfl | ⟨init, last, rfl⟩ := List.eq_nil_or_concat' keys'
    · rfl
    · obtain ⟨parent, before, found⟩ := walk_concat_some walked'
      exact absurd found (single.root (reached_of_walk before))
  | append_singleton init last ih =>
    obtain ⟨parent, before, found⟩ := walk_concat_some walked
    obtain rfl | ⟨init', last', rfl⟩ := List.eq_nil_or_concat' keys'
    · obtain rfl : root = node := Option.some.inj walked'
      exact absurd found (single.root (reached_of_walk before))
    · obtain ⟨parent', before', found'⟩ := walk_concat_some walked'
      obtain ⟨rfl, rfl⟩ := single.once (reached_of_walk before) (reached_of_walk before') found found'
      rw [ih before before']

/-- No node has itself as an entry. -/
theorem Single.child_ne {root other : ν} (single : tree.Single root) (reached : tree.Reached root node) (found : tree.child node key = some other) :
    other ≠ node := by
  intro same
  obtain ⟨keys, walked⟩ := walk_of_reached reached
  have longer : tree.walk root (keys ++ [key]) = some node := by
    rw [walk_concat, walked, Option.bind_some, found, same]
  have lengths := congrArg List.length (single.unique walked longer)
  rw [List.length_append, List.length_singleton] at lengths
  omega

theorem walk_append (keys rest : List κ) : tree.walk start (keys ++ rest) = (tree.walk start keys).bind fun node => tree.walk node rest :=
  List.foldlM_append

theorem not_concat_prefix {init : List κ} {last : κ} : ¬ init ++ [last] <+: init := by
  intro front
  have shorter := front.length_le
  rw [List.length_append, List.length_singleton] at shorter
  omega

/-- The second tree has other entries at most at the end of two paths. -/
structure Edits (tree edited : NameTree ν κ) (root : ν) (first second : List κ) : Prop where
  same : ∀ {front : List κ} {node : ν} {key : κ}, tree.walk root front = some node → front ++ [key] ≠ first → front ++ [key] ≠ second →
    edited.child node key = tree.child node key

namespace Edits
variable {edited : NameTree ν κ} {root : ν} {first second keys init : List κ} {last : κ}

theorem swap (edits : tree.Edits edited root first second) : tree.Edits edited root second first :=
  ⟨fun walked apart apart' => edits.same walked apart' apart⟩

/-- Paths that do not go through them are as before. -/
theorem walk (edits : tree.Edits edited root first second) (avoids : ¬ first <+: keys) (avoids' : ¬ second <+: keys) :
    edited.walk root keys = tree.walk root keys := by
  apply walk_avoids keys
  intro front key back split node walked
  have inside : front ++ [key] <+: keys := ⟨back, by rw [split, List.append_assoc]; rfl⟩
  apply edits.same walked
  · intro here
    exact avoids (here ▸ inside)
  · intro here
    exact avoids' (here ▸ inside)

/-- One of the two paths ends at the entry that is there now. -/
theorem walk_end (edits : tree.Edits edited root (init ++ [last]) second) (avoids : ¬ second <+: init) :
    edited.walk root (init ++ [last]) = (tree.walk root init).bind fun node => edited.child node last := by
  rw [walk_concat, edits.walk not_concat_prefix avoids]

/-- What was below the first path is below another path to the same node. -/
theorem walk_below (edits : tree.Edits edited root first second) (apart : ¬ first <+: second) (walked : tree.walk root first = some start)
    (rest : List κ) : edited.walk start rest = tree.walk start rest := by
  apply walk_avoids rest
  intro front key back _ node below
  have reached : tree.walk root (first ++ front) = some node := by
    rw [walk_append, walked]
    exact below
  apply edits.same reached
  · intro here
    have := congrArg List.length here
    simp only [List.length_append, List.length_singleton] at this
    omega
  · intro here
    apply apart
    rw [← here, List.append_assoc]
    exact List.prefix_append ..

end Edits

/-- In a tree with one way to every node, an entry belongs to one path. -/
theorem Single.apart {root : ν} {init front : List κ} {last : κ} {directory : ν} (single : tree.Single root) (place : tree.walk root init = some directory)
    (walked : tree.walk root front = some node) (other : front ++ [key] ≠ init ++ [last]) : ¬ (node = directory ∧ key = last) := by
  intro same
  obtain ⟨rfl, rfl⟩ := same
  exact other (congrArg (· ++ [key]) (single.unique walked place))

/-- Only the entries at the ends of two paths differ. -/
theorem Single.edits {edited : NameTree ν κ} {root dir dir' : ν} {init init' : List κ} {last last' : κ} (single : tree.Single root)
    (source : tree.walk root init = some dir) (target : tree.walk root init' = some dir')
    (same : ∀ {node : ν} {key : κ}, ¬ (node = dir ∧ key = last) → ¬ (node = dir' ∧ key = last') → edited.child node key = tree.child node key) :
    tree.Edits edited root (init ++ [last]) (init' ++ [last']) :=
  ⟨fun walked apart apart' => same (single.apart source walked apart) (single.apart target walked apart')⟩

/-- A path goes on only from a directory. -/
theorem eq_of_leaf_prefix {keys keys' : List κ} {leaf : ν} (walked : tree.walk start keys = some leaf) (isLeaf : tree leaf = none)
    (walked' : tree.walk start keys' = some node) (front : keys <+: keys') : keys' = keys := by
  obtain ⟨rest, rfl⟩ := front
  cases rest with
  | nil => exact List.append_nil keys
  | cons key rest =>
    rw [walk_append, walked, Option.bind_some, walk_cons, child_leaf isLeaf] at walked'
    cases walked'

/-! Two names that are exchanged. -/

/-- The entries of two different names, both of leaves. -/
structure Exchange (tree : NameTree ν κ) (root : ν) (init : List κ) (last : κ) (init' : List κ) (last' : κ) (dir dir' moved moved' : ν) : Prop where
  single : tree.Single root
  source : tree.walk root init = some dir
  found : tree.child dir last = some moved
  leaf : tree moved = none
  target : tree.walk root init' = some dir'
  found' : tree.child dir' last' = some moved'
  leaf' : tree moved' = none
  apart : ¬ (dir' = dir ∧ last' = last)

namespace Exchange
variable {root dir dir' moved moved' : ν} {init init' : List κ} {last last' : κ} (exchange : tree.Exchange root init last init' last' dir dir' moved moved')
include exchange

theorem walked : tree.walk root (init ++ [last]) = some moved := by
  rw [walk_concat, exchange.source]
  exact exchange.found

theorem walked' : tree.walk root (init' ++ [last']) = some moved' := by
  rw [walk_concat, exchange.target]
  exact exchange.found'

theorem not_prefix : ¬ init ++ [last] <+: init' ++ [last'] := by
  intro front
  have same := eq_of_leaf_prefix exchange.walked exchange.leaf exchange.walked' front
  obtain ⟨rfl, lasts⟩ := List.append_inj' same rfl
  obtain ⟨rfl, -⟩ := List.cons.inj lasts
  exact exchange.apart ⟨Option.some.inj (exchange.target.symm.trans exchange.source), rfl⟩

theorem not_prefix' : ¬ init' ++ [last'] <+: init ++ [last] := by
  intro front
  have same := eq_of_leaf_prefix exchange.walked' exchange.leaf' exchange.walked front
  exact exchange.not_prefix (same ▸ List.prefix_rfl)

end Exchange

/-! Entries set and cleared. -/

section
variable [DecidableEq ν] [DecidableEq κ]

/-- The entry is cleared. -/
def unlink (tree : NameTree ν κ) (node : ν) (key : κ) : NameTree ν κ := assign tree node ((tree node).map fun entries => entries.erase key)

/-- The entry is set, if the node is a directory. -/
def link (tree : NameTree ν κ) (node : ν) (key : κ) (value : ν) : NameTree ν κ :=
  assign tree node ((tree node).map fun entries => entries.insert key value)

/-- The entry is set if it is missing. -/
def linkNew (tree : NameTree ν κ) (node : ν) (key : κ) (value : ν) : NameTree ν κ :=
  if (tree.child node key).isNone then tree.link node key value else tree

theorem child_unlink (tree : NameTree ν κ) (node other : ν) (key key' : κ) :
    (tree.unlink node key).child other key' = if other = node ∧ key' = key then none else tree.child other key' := by
  unfold unlink child
  by_cases here : other = node
  · rw [here, assign_self]
    cases tree node with
    | none => exact (ite_self _).symm
    | some entries =>
      by_cases same : key' = key
      · rw [same, if_pos ⟨rfl, rfl⟩]
        exact PartialMap.erase_self ..
      · rw [if_neg fun both => same both.2]
        exact PartialMap.erase_of_ne _ same
  · rw [assign_of_ne here, if_neg fun both => here both.1]

theorem child_link {entries : PartialMap κ ν} (directory : tree node = some entries) (key key' : κ) (value other : ν) :
    (tree.link node key value).child other key' = if other = node ∧ key' = key then some value else tree.child other key' := by
  unfold link child
  by_cases here : other = node
  · rw [here, assign_self, directory]
    by_cases same : key' = key
    · rw [same, if_pos ⟨rfl, rfl⟩]
      exact PartialMap.insert_self ..
    · rw [if_neg fun both => same both.2]
      exact PartialMap.insert_of_ne _ _ same
  · rw [assign_of_ne here, if_neg fun both => here both.1]

theorem child_linkNew (directory : (tree node).isSome) (key key' : κ) (value other : ν) :
    (tree.linkNew node key value).child other key' =
      if (other = node ∧ key' = key) ∧ tree.child node key = none then some value else tree.child other key' := by
  obtain ⟨entries, directory⟩ := Option.isSome_iff_exists.mp directory
  unfold linkNew
  split
  next missing =>
    rw [child_link directory]
    simp only [Option.isNone_iff_eq_none.mp missing, and_true]
  next present => rw [if_neg fun both => present (Option.isNone_iff_eq_none.mpr both.2)]

/-- Directories stay directories. -/
theorem isSome_unlink (tree : NameTree ν κ) (node other : ν) (key : κ) : (tree.unlink node key other).isSome = (tree other).isSome := by
  unfold unlink
  by_cases here : other = node
  · rw [here, assign_self, Option.isSome_map]
  · rw [assign_of_ne here]

theorem isSome_linkNew (tree : NameTree ν κ) (node value other : ν) (key : κ) : (tree.linkNew node key value other).isSome = (tree other).isSome := by
  unfold linkNew link
  split
  next =>
    by_cases here : other = node
    · rw [here, assign_self, Option.isSome_map]
    · rw [assign_of_ne here]
  next => rfl

theorem Single.edits_unlink {root dir : ν} {init : List κ} {last : κ} (single : tree.Single root) (source : tree.walk root init = some dir) :
    tree.Edits (tree.unlink dir last) root (init ++ [last]) (init ++ [last]) := by
  apply single.edits source source
  intro node key apart _
  rw [child_unlink, if_neg apart]

theorem Single.walk_unlink {root dir : ν} {init : List κ} {last : κ} (single : tree.Single root) (source : tree.walk root init = some dir) :
    (tree.unlink dir last).walk root (init ++ [last]) = none := by
  rw [(single.edits_unlink source).walk_end not_concat_prefix, source, Option.bind_some, child_unlink, if_pos ⟨rfl, rfl⟩]

/-! Nodes that come and go. -/

/-- A node with these entries comes under a key of a directory. -/
def attach (tree : NameTree ν κ) (node : ν) (key : κ) (value : ν) (entries : Option (PartialMap κ ν)) : NameTree ν κ :=
  assign (tree.link node key value) value entries

/-- A leaf, or a directory without entries. -/
def Bare (entries : Option (PartialMap κ ν)) : Prop := ∀ listed, entries = some listed → ∀ key, listed key = none

theorem attach_parent {listed : PartialMap κ ν} {value : ν} {entries : Option (PartialMap κ ν)} (directory : tree node = some listed) (apart : node ≠ value) :
    tree.attach node key value entries node = some (listed.insert key value) := by
  unfold attach link
  rw [assign_of_ne apart, assign_self, directory]
  rfl

theorem attach_of_ne {value other : ν} {entries : Option (PartialMap κ ν)} (apart : other ≠ node) (apart' : other ≠ value) :
    tree.attach node key value entries other = tree other := by
  unfold attach link
  rw [assign_of_ne apart', assign_of_ne apart]

theorem child_attach {listed : PartialMap κ ν} {entries : Option (PartialMap κ ν)} (directory : tree node = some listed) (bare : Bare entries)
    (key key' : κ) (value other : ν) : (tree.attach node key value entries).child other key' =
      if other = value then none else if other = node ∧ key' = key then some value else tree.child other key' := by
  unfold attach
  by_cases here : other = value
  · rw [if_pos here, here]
    cases kind : entries with
    | none => exact child_leaf (assign_self ..)
    | some listed => exact (child_some (assign_self ..)).trans (bare listed kind key')
  · rw [if_neg here, ← child_link directory, child, assign_of_ne here, ← child]

section
variable {root value : ν} {entries : Option (PartialMap κ ν)}

/-- Only the new node is reached besides. -/
theorem reached_attach (reached : tree.Reached root node) (directory : (tree node).isSome) (free : tree.child node key = none) (bare : Bare entries)
    (fresh : ¬ tree.Reached root value) (other : ν) :
    (tree.attach node key value entries).Reached root other ↔ tree.Reached root other ∨ other = value := by
  obtain ⟨listed, directory⟩ := Option.isSome_iff_exists.mp directory
  have apart : ∀ {old : ν}, tree.Reached root old → old ≠ value := fun there same => fresh (same ▸ there)
  have child := fun key' => child_attach directory bare key key' value
  have still : ∀ {old : ν}, tree.Reached root old → (tree.attach node key value entries).Reached root old := by
    intro old there
    induction there with
    | refl => exact .refl
    | @tail middle last front edge ih =>
      obtain ⟨key', found⟩ := edge
      refine ih.tail ⟨key', ?_⟩
      rw [child key', if_neg (apart front), if_neg, found]
      intro same
      rw [same.1, same.2, free] at found
      cases found
  constructor
  · intro there
    induction there with
    | refl => exact .inl .refl
    | @tail middle last _ edge ih =>
      obtain ⟨key', found⟩ := edge
      rw [child key'] at found
      split at found
      next => cases found
      next old =>
        split at found
        next => exact .inr (Option.some.inj found).symm
        next => exact .inl ((ih.resolve_right old).tail ⟨key', found⟩)
  · intro either
    cases either with
    | inl there => exact still there
    | inr here =>
      refine (still reached).tail ⟨key, ?_⟩
      rw [child key, if_neg (apart reached), if_pos ⟨rfl, rfl⟩, here]

theorem Single.attach (single : tree.Single root) (reached : tree.Reached root node) (directory : (tree node).isSome)
    (free : tree.child node key = none) (bare : Bare entries) (fresh : ¬ tree.Reached root value) :
    (tree.attach node key value entries).Single root := by
  have reached_iff := reached_attach reached directory free bare fresh
  obtain ⟨listed, directory⟩ := Option.isSome_iff_exists.mp directory
  -- An entry of the new tree is an old one of a node reached before, or the new one.
  have edge : ∀ {first other : ν} {key' : κ}, (tree.attach node key value entries).Reached root first →
      (tree.attach node key value entries).child first key' = some other →
      (first = node ∧ key' = key ∧ other = value) ∨ (tree.Reached root first ∧ tree.child first key' = some other ∧ other ≠ value) := by
    intro first other key' there found
    rw [child_attach directory bare] at found
    split at found
    next => cases found
    next old =>
      split at found
      next same => exact .inl ⟨same.1, same.2, (Option.some.inj found).symm⟩
      next =>
        have there := ((reached_iff first).mp there).resolve_right old
        exact .inr ⟨there, found, fun same => fresh (same ▸ there.tail ⟨key', found⟩)⟩
  constructor
  · intro first second other key' key'' there there' found found'
    obtain ⟨rfl, rfl, rfl⟩ | ⟨there, found, old⟩ := edge there found
    · obtain ⟨rfl, rfl, -⟩ | ⟨-, -, old⟩ := edge there' found'
      · exact ⟨rfl, rfl⟩
      · exact absurd rfl old
    · obtain ⟨-, -, same⟩ | ⟨there', found', -⟩ := edge there' found'
      · exact absurd same old
      · exact single.once there there' found found'
  · intro other key' there found
    obtain ⟨-, -, same⟩ | ⟨there, found, -⟩ := edge there found
    · exact fresh (same ▸ .refl)
    · exact single.root there found

theorem child_of_unlink {other next : ν} {key' : κ} (found : (tree.unlink node key).child other key' = some next) :
    ¬ (other = node ∧ key' = key) ∧ tree.child other key' = some next := by
  rw [child_unlink] at found
  split at found
  next => cases found
  next apart => exact ⟨apart, found⟩

theorem reached_of_unlink {other : ν} (reached : (tree.unlink node key).Reached root other) : tree.Reached root other := by
  induction reached with
  | refl => exact .refl
  | tail _ edge ih =>
    obtain ⟨key', found⟩ := edge
    exact ih.tail ⟨key', (child_of_unlink found).2⟩

theorem Single.unlink (single : tree.Single root) : (tree.unlink node key).Single root := by
  constructor
  · intro first second other key' key'' there there' found found'
    exact single.once (reached_of_unlink there) (reached_of_unlink there') (child_of_unlink found).2 (child_of_unlink found').2
  · intro other key' there found
    exact single.root (reached_of_unlink there) (child_of_unlink found).2

/-- What had the entry is not reached any more. -/
theorem Single.unlinked (single : tree.Single root) (reached : tree.Reached root node) (found : tree.child node key = some value) :
    ¬ (tree.unlink node key).Reached root value := by
  intro there
  cases there.cases_tail with
  | inl here => exact single.root reached (here ▸ found)
  | inr last =>
    obtain ⟨middle, front, key', edge⟩ := last
    obtain ⟨apart, edge⟩ := child_of_unlink edge
    exact apart (single.once (reached_of_unlink front) reached edge found)

end

/-! A name that is moved. -/

/-- Two paths that end in directories, the first at a node and the second at none. -/
structure Move (tree : NameTree ν κ) (root : ν) (init : List κ) (last : κ) (init' : List κ) (last' : κ) (dir dir' moved : ν) : Prop where
  single : tree.Single root
  source : tree.walk root init = some dir
  found : tree.child dir last = some moved
  target : tree.walk root init' = some dir'
  directory : (tree dir').isSome
  free : tree.child dir' last' = none
  apart : ¬ init ++ [last] <+: init' ++ [last']
  apart' : ¬ init' ++ [last'] <+: init ++ [last]

namespace Move
variable {root dir dir' moved : ν} {init init' : List κ} {last last' : κ} (move : tree.Move root init last init' last' dir dir' moved)
include move

theorem child (node : ν) (key : κ) : ((tree.unlink dir last).linkNew dir' last' moved).child node key =
    if node = dir' ∧ key = last' then some moved else if node = dir ∧ key = last then none else tree.child node key := by
  have still : ((tree.unlink dir last) dir').isSome := by
    rw [isSome_unlink]
    exact move.directory
  have missing : (tree.unlink dir last).child dir' last' = none := by
    rw [child_unlink, move.free, ite_self]
  rw [child_linkNew still, missing, child_unlink]
  simp only [and_true]

theorem edits : tree.Edits ((tree.unlink dir last).linkNew dir' last' moved) root (init ++ [last]) (init' ++ [last']) := by
  apply move.single.edits move.source move.target
  intro node key apart apart'
  rw [move.child, if_neg apart', if_neg apart]

theorem walk_target : ((tree.unlink dir last).linkNew dir' last' moved).walk root (init' ++ [last']) = some moved := by
  have front : ¬ init ++ [last] <+: init' := fun front => move.apart (front.trans (List.prefix_append ..))
  rw [move.edits.swap.walk_end front, move.target, Option.bind_some, move.child, if_pos ⟨rfl, rfl⟩]

theorem walk_source : ((tree.unlink dir last).linkNew dir' last' moved).walk root (init ++ [last]) = none := by
  have front : ¬ init' ++ [last'] <+: init := fun front => move.apart' (front.trans (List.prefix_append ..))
  have other : ¬ (dir = dir' ∧ last = last') := by
    intro same
    obtain ⟨rfl, rfl⟩ := same
    have none := move.free
    rw [move.found] at none
    cases none
  rw [move.edits.walk_end front, move.source, Option.bind_some, move.child, if_neg other, if_pos ⟨rfl, rfl⟩]

/-- Every node with an entry has one after the move. -/
theorem entered {keys : List κ} (some : keys ≠ []) (walked : tree.walk root keys = Option.some node) :
    ∃ keys', keys' ≠ [] ∧ ((tree.unlink dir last).linkNew dir' last' moved).walk root keys' = Option.some node := by
  by_cases below : init ++ [last] <+: keys
  · obtain ⟨rest, rfl⟩ := below
    have source : tree.walk root (init ++ [last]) = Option.some moved := by
      rw [walk_concat, move.source]
      exact move.found
    refine ⟨init' ++ [last'] ++ rest, by simp, ?_⟩
    rw [walk_append, move.walk_target, Option.bind_some, move.edits.walk_below move.apart source]
    rw [walk_append, source] at walked
    exact walked
  · have avoids : ¬ init' ++ [last'] <+: keys := by
      intro below
      obtain ⟨rest, rfl⟩ := below
      rw [walk_append, walk_concat, move.target, Option.bind_some, move.free] at walked
      cases walked
    exact ⟨keys, some, (move.edits.walk below avoids).trans walked⟩

end Move

/-! The exchange. -/

/-- Both entries are cleared, and set again under the same name. -/
def exchanged (tree : NameTree ν κ) (last last' : κ) (dir dir' moved moved' : ν) : NameTree ν κ :=
  (((tree.unlink dir last).unlink dir' last').linkNew dir' last moved).linkNew dir last moved'

namespace Exchange
variable {root dir dir' moved moved' : ν} {init init' : List κ} {last last' : κ} (exchange : tree.Exchange root init last init' last' dir dir' moved moved')
include exchange

/-- The first link sets an entry unless another name was in its place. -/
theorem child_first (node : ν) (key : κ) : (((tree.unlink dir last).unlink dir' last').linkNew dir' last moved).child node key =
    if (node = dir' ∧ key = last) ∧ ((tree.unlink dir last).unlink dir' last').child dir' last = none then some moved
    else if node = dir' ∧ key = last' then none else if node = dir ∧ key = last then none else tree.child node key := by
  have directory : (((tree.unlink dir last).unlink dir' last') dir').isSome := by
    rw [isSome_unlink, isSome_unlink]
    exact directory_of_child exchange.found'
  rw [child_linkNew directory, child_unlink _ dir' node last' key, child_unlink tree dir node last key]

theorem child_second (node : ν) (key : κ) : (tree.exchanged last last' dir dir' moved moved').child node key =
    if (node = dir ∧ key = last) ∧ (((tree.unlink dir last).unlink dir' last').linkNew dir' last moved).child dir last = none then some moved'
    else (((tree.unlink dir last).unlink dir' last').linkNew dir' last moved).child node key := by
  have directory : ((((tree.unlink dir last).unlink dir' last').linkNew dir' last moved) dir).isSome := by
    rw [isSome_linkNew, isSome_unlink, isSome_unlink]
    exact directory_of_child exchange.found
  exact child_linkNew directory ..

/-- Equal names are exchanged. -/
theorem child_same (same : last' = last) (node : ν) (key : κ) : (tree.exchanged last last' dir dir' moved moved').child node key =
    if node = dir ∧ key = last then some moved' else if node = dir' ∧ key = last then some moved else tree.child node key := by
  have other : ¬ (dir = dir' ∧ last = last) := fun both => exchange.apart ⟨both.1.symm, same⟩
  have free : ((tree.unlink dir last).unlink dir' last').child dir' last = none := by
    rw [child_unlink, if_pos ⟨rfl, same.symm⟩]
  have free' : (((tree.unlink dir last).unlink dir' last').linkNew dir' last moved).child dir last = none := by
    rw [exchange.child_first, if_neg fun both => other both.1, same, if_neg other, if_pos ⟨rfl, rfl⟩]
  rw [exchange.child_second, free', exchange.child_first, free, same]
  simp only [and_true]
  split
  next => rfl
  next =>
    split
    next => rfl
    next => rfl

/-- Of two different names the second is lost. -/
theorem child_lost (other : last' ≠ last) : (tree.exchanged last last' dir dir' moved moved').child dir' last' = none := by
  rw [exchange.child_second, if_neg fun both => other both.1.2, exchange.child_first, if_neg fun both => other both.1.2, if_pos ⟨rfl, rfl⟩]

/-- In the other directories nothing else changes. -/
theorem child_else {node : ν} {key : κ} (apart : ¬ (node = dir ∧ key = last)) (elsewhere : node ≠ dir') :
    (tree.exchanged last last' dir dir' moved moved').child node key = tree.child node key := by
  rw [exchange.child_second, if_neg fun both => apart both.1, exchange.child_first, if_neg fun both => elsewhere both.1.1,
    if_neg fun both => elsewhere both.1, if_neg apart]

theorem edits (same : last' = last) :
    tree.Edits (tree.exchanged last last' dir dir' moved moved') root (init ++ [last]) (init' ++ [last']) := by
  apply exchange.single.edits exchange.source exchange.target
  intro node key apart apart'
  rw [same] at apart'
  rw [exchange.child_same same, if_neg apart, if_neg apart']

theorem walk_source (same : last' = last) : (tree.exchanged last last' dir dir' moved moved').walk root (init ++ [last]) = some moved' := by
  have front : ¬ init' ++ [last'] <+: init := fun front => exchange.not_prefix' (front.trans (List.prefix_append ..))
  rw [(exchange.edits same).walk_end front, exchange.source, Option.bind_some, exchange.child_same same, if_pos ⟨rfl, rfl⟩]

theorem walk_target (same : last' = last) : (tree.exchanged last last' dir dir' moved moved').walk root (init' ++ [last']) = some moved := by
  have front : ¬ init ++ [last] <+: init' := fun front => exchange.not_prefix (front.trans (List.prefix_append ..))
  have other : ¬ (dir' = dir ∧ last' = last) := exchange.apart
  rw [(exchange.edits same).swap.walk_end front, exchange.target, Option.bind_some, exchange.child_same same, if_neg other, if_pos ⟨rfl, same⟩]

/-- The path of a lost name leads nowhere. -/
theorem walk_lost (other : last' ≠ last) : (tree.exchanged last last' dir dir' moved moved').walk root (init' ++ [last']) = none := by
  have front : (tree.exchanged last last' dir dir' moved moved').walk root init' = tree.walk root init' := by
    apply walk_avoids init'
    intro before key back split node walked
    have inside : before ++ [key] <+: init' := ⟨back, by rw [split, List.append_assoc]; rfl⟩
    apply exchange.child_else
    · apply exchange.single.apart exchange.source walked
      intro here
      exact exchange.not_prefix ((here ▸ inside).trans (List.prefix_append ..))
    · rintro rfl
      rw [exchange.single.unique walked exchange.target] at inside
      exact not_concat_prefix inside
  rw [walk_concat, front, exchange.target, Option.bind_some, exchange.child_lost other]

end Exchange

end

end NameTree
end Myfuse.Library
