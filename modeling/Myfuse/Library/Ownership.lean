import Myfuse.Library.BlockTree

/-! Ownership of the blocks of a region: a block is in use exactly when one
position holds it or it was lost before. Taking a free block for a position,
giving one back and dropping an owner keep this. -/

namespace Myfuse.Library
variable {ι : Type}

structure Owned (region lost : Nat → Prop) (held : Placement ι) (used : Nat → Bool) : Prop where
  nonzero : ¬ region 0
  distinct : held.Distinct
  inside : ∀ owner path, held owner path ≠ 0 → region (held owner path)
  taken : ∀ block, region block → (used block = true ↔ lost block ∨ ∃ owner path, held owner path = block)
  kept : ∀ owner path, held owner path ≠ 0 → ¬ lost (held owner path)

/-- Nothing is left of what `owner` held at the paths `gone`; all else stays. -/
structure Cut (held held' : Placement ι) (owner : ι) (gone : List Nat → Prop) : Prop where
  empty : ∀ path, gone path → held' owner path = 0
  kept : ∀ owner' path, ¬ (owner' = owner ∧ gone path) → held' owner' path = held owner' path

namespace Cut
variable {held held' : Placement ι} {owner : ι} {gone : List Nat → Prop}

theorem refl (held : Placement ι) (owner : ι) : Cut held held owner fun _ => False := ⟨fun _ => False.elim, fun _ _ _ => rfl⟩

theorem congr {gone' : List Nat → Prop} (cut : Cut held held' owner gone) (same : ∀ path, gone' path ↔ gone path) :
    Cut held held' owner gone' := by
  rwa [funext fun path => propext (same path)]

/-- One more block is gone. -/
theorem update [DecidableEq ι] (cut : Cut held held' owner gone) (path : List Nat) :
    Cut held (BlockTree.update held' owner path 0) owner fun path' => gone path' ∨ path' = path where
  empty path' isGone := by
    unfold BlockTree.update
    split
    next => rfl
    next apart => exact cut.empty path' (isGone.resolve_right fun here => apart ⟨rfl, here⟩)
  kept owner' path' outside := by
    rw [BlockTree.update_other _ _ fun here => outside ⟨here.1, .inr here.2⟩]
    exact cut.kept owner' path' fun both => outside ⟨both.1, .inl both.2⟩

end Cut

namespace Owned
variable {region lost : Nat → Prop} {held held' : Placement ι} {used used' : Nat → Bool} {owner : ι} {path : List Nat}
  {block : Nat}

theorem used_of_held (owned : Owned region lost held used) (holds : held owner path ≠ 0) : used (held owner path) = true :=
  (owned.taken _ (owned.inside owner path holds)).mpr (.inr ⟨owner, path, rfl⟩)

theorem region_nonzero (owned : Owned region lost held used) (inside : region block) : block ≠ 0 := by
  rintro rfl
  exact owned.nonzero inside

/-- A free block is held nowhere. -/
theorem fresh (owned : Owned region lost held used) (inside : region block) (free : used block = false) :
    held.Fresh block ∧ ¬ lost block := by
  have unused : ¬ (lost block ∨ ∃ owner path, held owner path = block) := fun either => by
    rw [(owned.taken block inside).mpr either] at free
    cases free
  exact ⟨⟨owned.region_nonzero inside, fun owner path same => unused (.inr ⟨owner, path, same⟩)⟩, fun gone => unused (.inl gone)⟩

theorem congr (owned : Owned region lost held used) (same : ∀ block, region block → used' block = used block) :
    Owned region lost held used' :=
  { owned with taken := fun block inside => by rw [same block inside]; exact owned.taken block inside }

variable [DecidableEq ι]

/-- A free block goes to an empty position. -/
theorem link (owned : Owned region lost held used) (inside : region block) (free : used block = false)
    (empty : held owner path = 0)
    (marked : ∀ other, region other → used' other = if other = block then true else used other) :
    Owned region lost (BlockTree.update held owner path block) used' := by
  obtain ⟨fresh, notLost⟩ := owned.fresh inside free
  refine ⟨owned.nonzero, owned.distinct.link owner path fresh, fun owner' path' holds => ?_, fun other bound => ?_,
    fun owner' path' holds => ?_⟩
  · unfold BlockTree.update at holds ⊢
    split
    next => exact inside
    next apart =>
      rw [if_neg apart] at holds
      exact owned.inside _ _ holds
  · rw [marked other bound]
    by_cases new : other = block
    · rw [if_pos new]
      exact iff_of_true rfl (.inr ⟨owner, path, by rw [BlockTree.update_same, new]⟩)
    · rw [if_neg new, owned.taken other bound]
      refine or_congr_right ⟨fun ⟨owner', path', same⟩ => ⟨owner', path', ?_⟩, fun ⟨owner', path', same⟩ => ⟨owner', path', ?_⟩⟩
      · rw [BlockTree.update_other _ _ fun here => ?_, same]
        rw [here.1, here.2, empty] at same
        exact owned.region_nonzero bound same.symm
      · unfold BlockTree.update at same
        split at same
        next => exact absurd same.symm new
        next => exact same
  · unfold BlockTree.update at holds ⊢
    split
    next => exact notLost
    next apart =>
      rw [if_neg apart] at holds
      exact owned.kept _ _ holds

/-- A held block is given back. -/
theorem unlink (owned : Owned region lost held used) (holds : held owner path ≠ 0)
    (marked : ∀ other, region other → used' other = if other = held owner path then false else used other) :
    Owned region lost (BlockTree.update held owner path 0) used' := by
  refine ⟨owned.nonzero, owned.distinct.unlink owner path, fun owner' path' still => ?_, fun other bound => ?_,
    fun owner' path' still => ?_⟩
  · unfold BlockTree.update at still ⊢
    split
    next here => exact absurd (if_pos here) still
    next apart =>
      rw [if_neg apart] at still
      exact owned.inside _ _ still
  · rw [marked other bound]
    by_cases given : other = held owner path
    · rw [if_pos given]
      refine iff_of_false Bool.false_ne_true ?_
      rintro (gone | ⟨owner', path', same⟩)
      · exact owned.kept _ _ holds (given ▸ gone)
      · unfold BlockTree.update at same
        split at same
        next => exact owned.region_nonzero bound same.symm
        next apart =>
          refine apart (owned.distinct _ _ _ _ ?_ (same.trans given))
          rw [same]
          exact owned.region_nonzero bound
    · rw [if_neg given, owned.taken other bound]
      refine or_congr_right ⟨fun ⟨owner', path', same⟩ => ⟨owner', path', ?_⟩, fun ⟨owner', path', same⟩ => ⟨owner', path', ?_⟩⟩
      · rw [BlockTree.update_other _ _ fun here => ?_, same]
        exact given (by rw [← same, here.1, here.2])
      · unfold BlockTree.update at same
        split at same
        next => exact absurd same.symm (owned.region_nonzero bound)
        next => exact same
  · unfold BlockTree.update at still ⊢
    split
    next here => exact absurd (if_pos here) still
    next apart =>
      rw [if_neg apart] at still
      exact owned.kept _ _ still

/-- An owner gives back all it holds. -/
theorem drop (owned : Owned region lost held used)
    (emptied : ∀ owner' path', held' owner' path' = if owner' = owner then 0 else held owner' path')
    (marked : ∀ other, region other → (used' other = true ↔ used other = true ∧ ∀ path, held owner path ≠ other)) :
    Owned region lost held' used' := by
  have others : ∀ owner' path', held' owner' path' ≠ 0 → owner' ≠ owner ∧ held' owner' path' = held owner' path' := by
    intro owner' path' still
    rw [emptied] at still ⊢
    by_cases here : owner' = owner
    · exact absurd (if_pos here) still
    · exact ⟨here, if_neg here⟩
  refine ⟨owned.nonzero, fun owner₁ path₁ owner₂ path₂ still same => ?_, fun owner' path' still => ?_,
    fun other bound => ?_, fun owner' path' still => ?_⟩
  · have first := others _ _ still
    have second := others owner₂ path₂ (same ▸ still)
    rw [first.2] at still
    rw [first.2, second.2] at same
    exact owned.distinct _ _ _ _ still same
  · have same := (others _ _ still).2
    rw [same] at still ⊢
    exact owned.inside _ _ still
  · rw [marked other bound, owned.taken other bound]
    constructor
    · rintro ⟨gone | ⟨owner', path', same⟩, notMine⟩
      · exact .inl gone
      · refine .inr ⟨owner', path', ?_⟩
        rw [emptied, if_neg, same]
        rintro rfl
        exact notMine path' same
    · rintro (gone | ⟨owner', path', same⟩)
      · refine ⟨.inl gone, fun path mine => ?_⟩
        refine owned.kept owner path ?_ (mine ▸ gone)
        rw [mine]
        exact owned.region_nonzero bound
      · obtain ⟨apart, unchanged⟩ := others owner' path' (same ▸ owned.region_nonzero bound)
        rw [unchanged] at same
        refine ⟨.inr ⟨owner', path', same⟩, fun path mine => ?_⟩
        refine apart (owned.distinct _ _ _ _ ?_ (same.trans mine.symm)).1
        rw [same]
        exact owned.region_nonzero bound
  · have same := (others _ _ still).2
    rw [same] at still ⊢
    exact owned.kept _ _ still

omit [DecidableEq ι] in
/-- What is free after an owner gave some of its blocks back: what was free before, and these. -/
theorem clear_iff {gone : List Nat → Prop} (before : Owned region lost held used) (after : Owned region lost held' used')
    (cut : Cut held held' owner gone) (inside : region block) :
    used' block = false ↔ used block = false ∨ ∃ path, gone path ∧ held owner path = block := by
  rw [← Bool.not_eq_true, ← Bool.not_eq_true, after.taken block inside, before.taken block inside]
  have nonzero := before.region_nonzero inside
  constructor
  · intro unused
    by_cases wasUsed : lost block ∨ ∃ owner path, held owner path = block
    · obtain isLost | ⟨owner', path, same⟩ := wasUsed
      · exact absurd (.inl isLost) unused
      · right
        by_cases mine : owner' = owner ∧ gone path
        · exact ⟨path, mine.2, mine.1 ▸ same⟩
        · exact absurd (.inr ⟨owner', path, (cut.kept owner' path mine).trans same⟩) unused
    · exact .inl wasUsed
  · rintro (unused | ⟨path, isGone, same⟩) (isLost | ⟨owner', path', same'⟩)
    · exact unused (.inl isLost)
    · refine unused (.inr ⟨owner', path', ?_⟩)
      by_cases mine : owner' = owner ∧ gone path'
      · rw [mine.1, cut.empty path' mine.2] at same'
        exact absurd same'.symm nonzero
      · rw [← cut.kept owner' path' mine, same']
    · exact before.kept owner path (same ▸ nonzero) (same ▸ isLost)
    · by_cases mine : owner' = owner ∧ gone path'
      · rw [mine.1, cut.empty path' mine.2] at same'
        exact nonzero same'.symm
      · rw [cut.kept owner' path' mine] at same'
        obtain ⟨rfl, rfl⟩ := before.distinct _ _ _ _ (same ▸ nonzero) (same.trans same'.symm)
        exact mine ⟨rfl, isGone⟩

end Owned
end Myfuse.Library
