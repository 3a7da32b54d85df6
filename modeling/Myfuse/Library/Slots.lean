import Mathlib.Data.List.Nodup
import Myfuse.Library.PartialMap

/-! A map kept in a list of slots, each free or with a key and a value: a new key
takes the first free slot, or a slot added at the end. -/

namespace Myfuse.Library

abbrev Slots (κ ν : Type) := List (Option (κ × ν))

namespace Slots
variable {κ ν : Type}

/-- The keys in use. -/
def keys (slots : Slots κ ν) : List κ := slots.filterMap (Option.map Prod.fst)

@[simp] theorem keys_nil : keys ([] : Slots κ ν) = [] := rfl

@[simp] theorem keys_free (slots : Slots κ ν) : keys (none :: slots) = keys slots := rfl

@[simp] theorem keys_used (entry : κ × ν) (slots : Slots κ ν) : keys (some entry :: slots) = entry.1 :: keys slots := rfl

/-- The values in use. -/
def values (slots : Slots κ ν) : List ν := slots.filterMap (Option.map Prod.snd)

theorem mem_values {slots : Slots κ ν} {value : ν} : value ∈ values slots ↔ ∃ key, some (key, value) ∈ slots := by
  rw [values, List.mem_filterMap]
  constructor
  · rintro ⟨slot, inside, found⟩
    obtain ⟨entry, rfl, rfl⟩ := Option.map_eq_some_iff.mp found
    exact ⟨entry.1, inside⟩
  · rintro ⟨key, inside⟩
    exact ⟨_, inside, rfl⟩

/-- The entry takes the first free slot, or one at the end. -/
def put (entry : κ × ν) : Slots κ ν → Slots κ ν
  | [] => [some entry]
  | none :: rest => some entry :: rest
  | some used :: rest => some used :: put entry rest

/-- The place that `put` takes. -/
def firstFree : Slots κ ν → Nat
  | [] => 0
  | none :: _ => 0
  | some _ :: rest => firstFree rest + 1

theorem firstFree_le (slots : Slots κ ν) : firstFree slots ≤ slots.length := by
  induction slots with
  | nil => exact Nat.le_refl 0
  | cons slot rest ih =>
    cases slot with
    | none => exact Nat.zero_le _
    | some used => exact Nat.succ_le_succ ih

/-- A slot is added only when none is free. -/
theorem firstFree_lt_iff (slots : Slots κ ν) : firstFree slots < slots.length ↔ none ∈ slots := by
  induction slots with
  | nil => simp [firstFree]
  | cons slot rest ih =>
    cases slot with
    | none => simp [firstFree]
    | some used => simpa [firstFree] using ih

/-- Only the slot taken changes. -/
theorem put_eq (entry : κ × ν) (slots : Slots κ ν) :
    put entry slots = slots.take (firstFree slots) ++ some entry :: slots.drop (firstFree slots + 1) := by
  induction slots with
  | nil => rfl
  | cons slot rest ih =>
    cases slot with
    | none => rfl
    | some used => simp only [put, firstFree, List.take_succ_cons, List.drop_succ_cons, List.cons_append, ih]

theorem length_put (entry : κ × ν) (slots : Slots κ ν) : (put entry slots).length = max slots.length (firstFree slots + 1) := by
  have := firstFree_le slots
  rw [put_eq, List.length_append, List.length_cons, List.length_take, List.length_drop]
  omega

theorem keys_put (entry : κ × ν) (slots : Slots κ ν) : (keys (put entry slots)).Perm (entry.1 :: keys slots) := by
  induction slots with
  | nil => exact .refl _
  | cons slot rest ih =>
    cases slot with
    | none => exact .refl _
    | some used => exact (ih.cons _).trans (.swap ..)

/-- No key is in two slots. -/
def Distinct (slots : Slots κ ν) : Prop := (keys slots).Nodup

theorem Distinct.put {slots : Slots κ ν} (distinct : Distinct slots) {entry : κ × ν} (absent : entry.1 ∉ keys slots) :
    Distinct (put entry slots) :=
  (keys_put entry slots).nodup_iff.mpr (List.nodup_cons.mpr ⟨absent, distinct⟩)

variable [DecidableEq κ] {slots : Slots κ ν} {key : κ}

/-- The first slot with the key: its value and its place, counted from `place`. -/
def lookup (key : κ) : Slots κ ν → (place : Nat) → Option (ν × Nat)
  | [], _ => none
  | none :: rest, place => lookup key rest (place + 1)
  | some used :: rest, place => if used.1 = key then some (used.2, place) else lookup key rest (place + 1)

/-- The slot of the key is freed. -/
def clear (key : κ) : Slots κ ν → Slots κ ν
  | [] => []
  | none :: rest => none :: clear key rest
  | some used :: rest => if used.1 = key then none :: rest else some used :: clear key rest

/-- The map that the slots hold. -/
def toMap (slots : Slots κ ν) : PartialMap κ ν := fun key => (lookup key slots 0).map Prod.fst

theorem lookup_shift (key : κ) (slots : Slots κ ν) (place : Nat) :
    lookup key slots (place + 1) = (lookup key slots place).map fun found => (found.1, found.2 + 1) := by
  induction slots generalizing place with
  | nil => rfl
  | cons slot rest ih =>
    cases slot with
    | none => exact ih _
    | some used =>
      simp only [lookup]
      split
      · rfl
      · exact ih _

theorem lookup_value (key : κ) (slots : Slots κ ν) (place : Nat) : (lookup key slots place).map Prod.fst = toMap slots key := by
  induction place with
  | zero => rfl
  | succ place ih =>
    rw [lookup_shift, ← ih]
    cases lookup key slots place <;> rfl

@[simp] theorem toMap_nil : toMap ([] : Slots κ ν) = PartialMap.empty := rfl

@[simp] theorem toMap_free (slots : Slots κ ν) : toMap (none :: slots) = toMap slots := funext fun key => lookup_value key slots 1

theorem toMap_used (used : κ × ν) (slots : Slots κ ν) : toMap (some used :: slots) = (toMap slots).insert used.1 used.2 := by
  funext key
  by_cases same : used.1 = key
  · rw [← same, PartialMap.insert_self]
    simp [toMap, lookup]
  · rw [PartialMap.insert_of_ne _ _ (Ne.symm same), ← lookup_value key slots 1]
    simp [toMap, lookup, same]

theorem toMap_eq_none : toMap slots key = none ↔ key ∉ keys slots := by
  induction slots with
  | nil => simp [PartialMap.empty]
  | cons slot rest ih =>
    cases slot with
    | none => simpa using ih
    | some used =>
      rw [toMap_used, keys_used, List.mem_cons, not_or, ← ih]
      by_cases same : key = used.1
      · simp [same]
      · simp [same, PartialMap.insert_of_ne _ _ same]

theorem lookup_eq_none (place : Nat) : lookup key slots place = none ↔ key ∉ keys slots := by
  rw [← toMap_eq_none, ← lookup_value key slots place, Option.map_eq_none_iff]

/-- A found slot is one of the slots. -/
theorem lookup_found {value : ν} {place spot : Nat} (found : lookup key slots place = some (value, spot)) :
    place ≤ spot ∧ slots[spot - place]? = some (some (key, value)) := by
  induction slots generalizing place with
  | nil => cases found
  | cons slot rest ih =>
    cases slot with
    | none =>
      obtain ⟨low, here⟩ := ih found
      exact ⟨by omega, by rw [show spot - place = spot - (place + 1) + 1 by omega, List.getElem?_cons_succ, here]⟩
    | some used =>
      simp only [lookup] at found
      split at found
      next same =>
        obtain ⟨rfl, rfl⟩ : used.2 = value ∧ place = spot := by simpa using found
        exact ⟨Nat.le_refl _, by rw [Nat.sub_self, List.getElem?_cons_zero, ← same]⟩
      next =>
        obtain ⟨low, here⟩ := ih found
        exact ⟨by omega, by rw [show spot - place = spot - (place + 1) + 1 by omega, List.getElem?_cons_succ, here]⟩

theorem toMap_put {value : ν} (absent : key ∉ keys slots) : toMap (put (key, value) slots) = (toMap slots).insert key value := by
  induction slots with
  | nil => exact toMap_used ..
  | cons slot rest ih =>
    cases slot with
    | none => rw [put, toMap_used, toMap_free]
    | some used =>
      rw [keys_used, List.mem_cons, not_or] at absent
      rw [put, toMap_used, toMap_used, ih absent.2]
      exact (Function.update_comm (Ne.symm absent.1) ..).symm

/-- Without two equal keys the map has every slot in use. -/
theorem toMap_of_mem (distinct : Distinct slots) {value : ν} (inside : some (key, value) ∈ slots) : toMap slots key = some value := by
  induction slots with
  | nil => cases inside
  | cons slot rest ih =>
    cases slot with
    | none =>
      rw [toMap_free]
      exact ih distinct ((List.mem_cons.mp inside).resolve_left nofun)
    | some used =>
      obtain ⟨absent, distinct⟩ := List.nodup_cons.mp distinct
      rw [toMap_used]
      rcases List.mem_cons.mp inside with here | later
      · obtain rfl := Option.some.inj here
        exact PartialMap.insert_self ..
      · rw [PartialMap.insert_of_ne]
        · exact ih distinct later
        · rintro rfl
          exact absent (List.mem_filterMap.mpr ⟨_, later, rfl⟩)

theorem keys_clear (key : κ) (slots : Slots κ ν) : keys (clear key slots) = (keys slots).erase key := by
  induction slots with
  | nil => rfl
  | cons slot rest ih =>
    cases slot with
    | none => exact ih
    | some used =>
      rw [clear, keys_used]
      by_cases same : used.1 = key
      · rw [if_pos same, same, List.erase_cons_head, keys_free]
      · rw [if_neg same, keys_used, ih, List.erase_cons_tail (by simpa using same)]

theorem Distinct.clear (distinct : Distinct slots) (key : κ) : Distinct (clear key slots) := by
  rw [Distinct, keys_clear]
  exact List.Nodup.erase key distinct

theorem toMap_clear (distinct : Distinct slots) (key : κ) : toMap (clear key slots) = (toMap slots).erase key := by
  induction slots with
  | nil => exact (Function.update_eq_self key PartialMap.empty).symm
  | cons slot rest ih =>
    cases slot with
    | none => rw [Slots.clear, toMap_free, toMap_free, ih distinct]
    | some used =>
      obtain ⟨absent, rest'⟩ := List.nodup_cons.mp distinct
      rw [Slots.clear, toMap_used]
      by_cases same : used.1 = key
      · rw [if_pos same, toMap_free, ← same, PartialMap.erase, PartialMap.insert, Function.update_idem]
        exact (Function.update_eq_self_iff.mpr (toMap_eq_none.mpr absent).symm).symm
      · rw [if_neg same, toMap_used, ih rest']
        exact (Function.update_comm same ..).symm

@[simp] theorem length_clear (key : κ) (slots : Slots κ ν) : (clear key slots).length = slots.length := by
  induction slots with
  | nil => rfl
  | cons slot rest ih =>
    cases slot with
    | none => simp [clear, ih]
    | some used =>
      rw [clear]
      split
      · rfl
      · simp [ih]

/-- Only the slot that is found changes. -/
theorem clear_eq {value : ν} {place spot : Nat} (found : lookup key slots place = some (value, spot)) :
    clear key slots = slots.take (spot - place) ++ none :: slots.drop (spot - place + 1) := by
  induction slots generalizing place with
  | nil => cases found
  | cons slot rest ih =>
    cases slot with
    | none =>
      have found : lookup key rest (place + 1) = some (value, spot) := found
      have low := (lookup_found found).1
      rw [clear, ih found, show spot - place = spot - (place + 1) + 1 by omega]
      rfl
    | some used =>
      simp only [lookup] at found
      rw [clear]
      split at found
      next same =>
        obtain ⟨-, rfl⟩ : used.2 = value ∧ place = spot := by simpa using found
        rw [if_pos same, Nat.sub_self]
        rfl
      next other =>
        have low := (lookup_found found).1
        rw [if_neg other, ih found, show spot - place = spot - (place + 1) + 1 by omega]
        rfl

theorem clear_absent (absent : key ∉ keys slots) : clear key slots = slots := by
  induction slots with
  | nil => rfl
  | cons slot rest ih =>
    cases slot with
    | none => rw [clear, ih absent]
    | some used =>
      rw [keys_used, List.mem_cons, not_or] at absent
      rw [clear, if_neg (Ne.symm absent.1), ih absent.2]

end Slots
end Myfuse.Library
