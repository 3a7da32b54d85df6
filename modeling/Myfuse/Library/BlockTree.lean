import Mathlib.Data.List.Basic
import Mathlib.Data.List.Induction

/-! Trees of pointers stored in blocks, several per owner. A position is an
owner with a path: the root slot first, then one entry index for each level.
The placement of a store maps every position to the block held there, 0 for
none; changing one slot changes the placement at one position only. -/

namespace Myfuse.Library

/-- What each owner holds at each path. -/
abbrev Placement (ι : Type) := ι → List Nat → Nat

namespace BlockTree
variable {ι : Type} {height : Nat → Nat} {root root' : ι → Nat → Nat} {ptr ptr' : Nat → Nat → Nat}

/-- Follow `path` from `block`; block 0 leads nowhere. -/
def down (ptr : Nat → Nat → Nat) : Nat → List Nat → Nat
  | block, [] => block
  | block, index :: path => if block = 0 then 0 else down ptr (ptr block index) path

/-- The block held at a path. The tree under root slot `k` has `height k` levels
of index blocks; longer paths would read data as pointers and hold nothing. -/
def place (height : Nat → Nat) (root : ι → Nat → Nat) (ptr : Nat → Nat → Nat) : Placement ι
  | _, [] => 0
  | owner, slot :: path => if path.length ≤ height slot then down ptr (root owner slot) path else 0

/-- A path whose block holds pointers. -/
def Internal (height : Nat → Nat) : List Nat → Prop
  | [] => False
  | slot :: path => path.length < height slot

instance (height : Nat → Nat) : (path : List Nat) → Decidable (Internal height path)
  | [] => inferInstanceAs (Decidable False)
  | slot :: path => inferInstanceAs (Decidable (path.length < height slot))

/-- A block that some position holds as an index block. -/
def Live (height : Nat → Nat) (root : ι → Nat → Nat) (ptr : Nat → Nat → Nat) (block : Nat) : Prop :=
  block ≠ 0 ∧ ∃ owner path, Internal height path ∧ place height root ptr owner path = block

@[simp] theorem down_zero (path : List Nat) : down ptr 0 path = 0 := by
  cases path <;> simp [down]

theorem down_append (block : Nat) (path : List Nat) (index : Nat) :
    down ptr block (path ++ [index]) = if down ptr block path = 0 then 0 else ptr (down ptr block path) index := by
  induction path generalizing block with
  | nil => by_cases empty : block = 0 <;> simp [down, empty]
  | cons head path ih =>
    simp only [List.cons_append, down]
    split
    · simp
    · exact ih _

@[simp] theorem place_nil (owner : ι) : place height root ptr owner [] = 0 := rfl

@[simp] theorem place_root (owner : ι) (slot : Nat) : place height root ptr owner [slot] = root owner slot := by
  simp [place, down]

theorem place_append (owner : ι) {path : List Nat} (nonempty : path ≠ []) (index : Nat) :
    place height root ptr owner (path ++ [index]) =
      if Internal height path ∧ place height root ptr owner path ≠ 0 then ptr (place height root ptr owner path) index
      else 0 := by
  obtain ⟨slot, path, rfl⟩ := List.exists_cons_of_ne_nil nonempty
  simp only [List.cons_append, place, Internal, List.length_append, List.length_singleton]
  by_cases deep : path.length < height slot
  · simp only [Nat.succ_le_iff.mpr deep, Nat.le_of_lt deep, if_true, deep, true_and, down_append]
    split <;> simp_all
  · simp [deep, show ¬ path.length + 1 ≤ height slot by omega]

theorem place_leaf (owner : ι) {path : List Nat} (leaf : ¬ Internal height path) (index : Nat) :
    path ≠ [] → place height root ptr owner (path ++ [index]) = 0 := fun nonempty => by
  rw [place_append owner nonempty, if_neg fun both => leaf both.1]

theorem place_parent {owner : ι} {path : List Nat} {index : Nat} (nonempty : path ≠ [])
    (held : place height root ptr owner (path ++ [index]) ≠ 0) :
    Internal height path ∧ place height root ptr owner path ≠ 0 := by
  rw [place_append owner nonempty] at held
  by_contra missing
  exact held (if_neg missing)

theorem nonempty_of_held {owner : ι} {path : List Nat} (held : place height root ptr owner path ≠ 0) : path ≠ [] := by
  rintro rfl
  exact held rfl

/-- Every path is empty, a root slot, or an entry below a nonempty path. -/
theorem path_induction {motive : List Nat → Prop} (nil : motive []) (slot : ∀ k, motive [k])
    (entry : ∀ path index, path ≠ [] → motive path → motive (path ++ [index])) (path : List Nat) : motive path := by
  induction path using List.reverseRecOn with
  | nil => exact nil
  | append_singleton path index ih =>
    by_cases empty : path = []
    · subst path
      exact slot index
    · exact entry path index empty ih

/-- An owner with empty root slots has nothing. -/
theorem place_empty {owner : ι} (empty : ∀ slot, root owner slot = 0) (path : List Nat) : place height root ptr owner path = 0 := by
  induction path using path_induction with
  | nil => rfl
  | slot k => rw [place_root, empty]
  | entry path index nonempty ih => exact (place_append owner nonempty index).trans (if_neg fun both => both.2 ih)

/-- A store that agrees on the roots and on the live index blocks has the same placement. -/
theorem place_congr (roots : ∀ owner slot, root' owner slot = root owner slot)
    (live : ∀ block, Live height root ptr block → ∀ index, ptr' block index = ptr block index) :
    place height root' ptr' = place height root ptr := by
  funext owner path
  induction path using path_induction with
  | nil => rfl
  | slot k => simp [roots]
  | entry path index nonempty ih =>
    rw [place_append owner nonempty, place_append owner nonempty, ih]
    by_cases both : Internal height path ∧ place height root ptr owner path ≠ 0
    · rw [if_pos both, if_pos both, live _ ⟨both.2, owner, path, both.1, rfl⟩]
    · rw [if_neg both, if_neg both]

/-! What a tree holds, by its levels. -/

/-- A block that a tree of so many levels of pointers holds, its top included. -/
def Reach (ptr : Nat → Nat → Nat) (depth top block : Nat) : Prop :=
  block ≠ 0 ∧ ∃ path : List Nat, path.length ≤ depth ∧ down ptr top path = block

/-- What holds for every index block of the tree, where a path leads to it. -/
def Inner (ptr : Nat → Nat → Nat) (depth top : Nat) (good : List Nat → Nat → Prop) : Prop :=
  ∀ path : List Nat, path.length < depth → down ptr top path ≠ 0 → good path (down ptr top path)

theorem reach_missing {depth block : Nat} : ¬ Reach ptr depth 0 block := by
  rintro ⟨nonzero, path, -, same⟩
  rw [down_zero] at same
  exact nonzero same.symm

theorem reach_zero {top block : Nat} (present : top ≠ 0) : Reach ptr 0 top block ↔ block = top := by
  constructor
  · rintro ⟨-, path, short, rfl⟩
    rw [List.eq_nil_of_length_eq_zero (Nat.le_zero.mp short), down]
  · rintro rfl
    exact ⟨present, [], Nat.le_refl _, rfl⟩

/-- The top, and what its entries reach. -/
theorem reach_succ {depth top block : Nat} (present : top ≠ 0) :
    Reach ptr (depth + 1) top block ↔ block = top ∨ ∃ index, Reach ptr depth (ptr top index) block := by
  constructor
  · rintro ⟨nonzero, path, short, same⟩
    cases path with
    | nil => exact .inl same.symm
    | cons index path =>
      rw [down, if_neg present] at same
      exact .inr ⟨index, nonzero, path, Nat.le_of_succ_le_succ short, same⟩
  · rintro (rfl | ⟨index, nonzero, path, short, same⟩)
    · exact ⟨present, [], Nat.zero_le _, rfl⟩
    · refine ⟨nonzero, index :: path, Nat.succ_le_succ short, ?_⟩
      rw [down, if_neg present]
      exact same

theorem Inner.top {depth top : Nat} {good : List Nat → Nat → Prop} (inner : Inner ptr (depth + 1) top good) (present : top ≠ 0) : good [] top :=
  inner [] (Nat.succ_pos _) present

theorem Inner.entry {depth top : Nat} {good : List Nat → Nat → Prop} (inner : Inner ptr (depth + 1) top good) (present : top ≠ 0) (index : Nat) :
    Inner ptr depth (ptr top index) fun path => good (index :: path) := by
  intro path short held
  have same : down ptr top (index :: path) = down ptr (ptr top index) path := by rw [down, if_neg present]
  rw [← same]
  exact inner (index :: path) (Nat.succ_lt_succ short) (same ▸ held)

theorem Inner.mono {depth top : Nat} {good good' : List Nat → Nat → Prop} (inner : Inner ptr depth top good)
    (implies : ∀ path block, good path block → good' path block) : Inner ptr depth top good' :=
  fun path short held => implies path _ (inner path short held)

/-- The positions of an owner hold what the trees at its slots reach. -/
theorem held_iff_reach {owner : ι} {block : Nat} :
    (block ≠ 0 ∧ ∃ path, place height root ptr owner path = block) ↔ ∃ slot, Reach ptr (height slot) (root owner slot) block := by
  constructor
  · rintro ⟨nonzero, path, same⟩
    cases path with
    | nil => exact absurd same.symm nonzero
    | cons slot path =>
      change (if path.length ≤ height slot then down ptr (root owner slot) path else 0) = block at same
      split at same
      next short => exact ⟨slot, nonzero, path, short, same⟩
      next => exact absurd same.symm nonzero
  · rintro ⟨slot, nonzero, path, short, same⟩
    exact ⟨nonzero, slot :: path, by rw [place, if_pos short, same]⟩

variable [DecidableEq ι]

/-- The placement with `block` at one position. -/
def update (held : Placement ι) (owner : ι) (path : List Nat) (block : Nat) : Placement ι :=
  fun owner' path' => if owner' = owner ∧ path' = path then block else held owner' path'

@[simp] theorem update_same (held : Placement ι) (owner : ι) (path : List Nat) (block : Nat) :
    update held owner path block owner path = block := by simp [update]

theorem update_other (held : Placement ι) {owner owner' : ι} {path path' : List Nat} (block : Nat)
    (other : ¬ (owner' = owner ∧ path' = path)) : update held owner path block owner' path' = held owner' path' :=
  if_neg other

theorem update_eq_self {held : Placement ι} {owner : ι} {path : List Nat} {block : Nat} (same : held owner path = block) :
    update held owner path block = held := by
  funext owner' path'
  unfold update
  split
  next here => rw [here.1, here.2, same]
  next => rfl

/-- Changing the slot of one position whose subtree is empty before and after
changes the placement there and nowhere else. -/
theorem place_update (owner : ι) {path : List Nat} (block : Nat)
    (parent : ∀ above index, path = above ++ [index] → above ≠ [] →
      Internal height above ∧ place height root ptr owner above ≠ 0)
    (roots : ∀ owner' slot, root' owner' slot = if owner' = owner ∧ [slot] = path then block else root owner' slot)
    (entries : ∀ owner' above index, Internal height above → place height root ptr owner' above ≠ 0 →
      ptr' (place height root ptr owner' above) index =
        if owner' = owner ∧ above ++ [index] = path then block else ptr (place height root ptr owner' above) index)
    (nonempty : path ≠ [])
    (before : ∀ index, place height root ptr owner (path ++ [index]) = 0)
    (after : Internal height path → block ≠ 0 → ∀ index, ptr' block index = 0) :
    place height root' ptr' = update (place height root ptr) owner path block := by
  funext owner' path'
  induction path' using path_induction with
  | nil => simp [update, nonempty.symm]
  | slot k => simp only [place_root, roots, update]
  | entry above index inside ih =>
    rw [place_append owner' inside, ih]
    by_cases here : owner' = owner ∧ above = path
    · obtain ⟨rfl, rfl⟩ := here
      rw [update_same, update_other _ _ (by simp), before]
      split
      next both => exact after both.1 both.2 index
      next => rfl
    · rw [update_other _ _ here]
      by_cases both : Internal height above ∧ place height root ptr owner' above ≠ 0
      · rw [if_pos both, entries owner' above index both.1 both.2, update, place_append owner' inside, if_pos both]
      · rw [if_neg both, update, place_append owner' inside, if_neg both]
        split
        next same => exact absurd (by rw [same.1]; exact parent above index same.2.symm inside) both
        next => rfl

end BlockTree

namespace Placement
variable {ι : Type}

/-- No block is held at two positions. -/
def Distinct (held : Placement ι) : Prop :=
  ∀ owner path owner' path', held owner path ≠ 0 → held owner path = held owner' path' →
    owner = owner' ∧ path = path'

def Fresh (held : Placement ι) (block : Nat) : Prop := block ≠ 0 ∧ ∀ owner path, held owner path ≠ block

variable [DecidableEq ι]

theorem Distinct.link {held : Placement ι} (distinct : held.Distinct) (owner : ι) (path : List Nat) {block : Nat}
    (fresh : held.Fresh block) : (BlockTree.update held owner path block).Distinct := by
  intro owner₁ path₁ owner₂ path₂ nonzero same
  unfold BlockTree.update at nonzero same
  split at same <;> split at same
  next first second => exact ⟨first.1.trans second.1.symm, first.2.trans second.2.symm⟩
  next => exact absurd same.symm (fresh.2 _ _)
  next => exact absurd same (fresh.2 _ _)
  next other _ =>
    rw [if_neg other] at nonzero
    exact distinct _ _ _ _ nonzero same

theorem Distinct.unlink {held : Placement ι} (distinct : held.Distinct) (owner : ι) (path : List Nat) :
    (BlockTree.update held owner path 0).Distinct := by
  intro owner₁ path₁ owner₂ path₂ nonzero same
  unfold BlockTree.update at nonzero same
  split at same
  next here => rw [if_pos here] at nonzero; exact absurd rfl nonzero
  next other =>
    rw [if_neg other] at nonzero
    split at same
    · exact absurd same nonzero
    · exact distinct _ _ _ _ nonzero same

end Placement

namespace BlockTree
variable {ι : Type} [DecidableEq ι] {height : Nat → Nat} {root root' : ι → Nat → Nat} {ptr ptr' : Nat → Nat → Nat}

/-- Writing `block` into a root slot whose subtree is empty. -/
theorem place_set_root (owner : ι) (slot block : Nat)
    (roots : ∀ owner' slot', root' owner' slot' = if owner' = owner ∧ slot' = slot then block else root owner' slot')
    (entries : ∀ above, Live height root ptr above → ∀ index, ptr' above index = ptr above index)
    (before : ∀ index, place height root ptr owner [slot, index] = 0)
    (after : 0 < height slot → block ≠ 0 → ∀ index, ptr' block index = 0) :
    place height root' ptr' = update (place height root ptr) owner [slot] block := by
  refine place_update owner block ?_ ?_ ?_ (by simp) before after
  · intro above index same inside
    obtain ⟨head, tail, rfl⟩ := List.exists_cons_of_ne_nil inside
    simp at same
  · intro owner' slot'
    simp [roots]
  · intro owner' above index deep nonzero
    rw [entries _ ⟨nonzero, owner', above, deep, rfl⟩, if_neg]
    rintro ⟨-, same⟩
    cases above with
    | nil => exact deep
    | cons head tail => simp at same

/-- Writing `block` into an entry of a live index block whose subtree is empty. -/
theorem place_set_entry (distinct : (place height root ptr).Distinct) (owner : ι) {path : List Nat} (index block : Nat)
    (deep : Internal height path) (held : place height root ptr owner path ≠ 0)
    (roots : ∀ owner' slot, root' owner' slot = root owner' slot)
    (entries : ∀ above, Live height root ptr above → ∀ index', ptr' above index' =
      if above = place height root ptr owner path ∧ index' = index then block else ptr above index')
    (before : ∀ index', place height root ptr owner (path ++ [index] ++ [index']) = 0)
    (after : Internal height (path ++ [index]) → block ≠ 0 → ∀ index', ptr' block index' = 0) :
    place height root' ptr' = update (place height root ptr) owner (path ++ [index]) block := by
  refine place_update owner block ?_ ?_ ?_ (by simp) before after
  · intro above index' same _
    obtain ⟨rfl, -⟩ := List.append_inj' same rfl
    exact ⟨deep, held⟩
  · intro owner' slot
    rw [roots, if_neg]
    rintro ⟨-, same⟩
    cases path with
    | nil => exact deep
    | cons head tail => simp at same
  · intro owner' above index' deep' nonzero
    rw [entries _ ⟨nonzero, owner', above, deep', rfl⟩]
    congr 1
    apply propext
    constructor
    · rintro ⟨same, rfl⟩
      obtain ⟨rfl, rfl⟩ := distinct _ _ _ _ nonzero same
      exact ⟨rfl, rfl⟩
    · rintro ⟨rfl, same⟩
      obtain ⟨rfl, single⟩ := List.append_inj' same rfl
      exact ⟨rfl, by simpa using single⟩

end BlockTree
end Myfuse.Library
