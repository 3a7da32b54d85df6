import Mathlib.Logic.Function.Basic

/-! Partial maps with the operations of a dictionary, and what finding a key or
inserting it with a fresh value does to one. -/

namespace Myfuse.Library

abbrev PartialMap (κ ν : Type) := κ → Option ν

namespace PartialMap
variable {κ ν : Type} [DecidableEq κ] {map map' : PartialMap κ ν} {key key' : κ} {value value' : ν} {fresh fresh' : ν → Prop}

def empty : PartialMap κ ν := fun _ => none

def insert (map : PartialMap κ ν) (key : κ) (value : ν) : PartialMap κ ν := Function.update map key (some value)

def erase (map : PartialMap κ ν) (key : κ) : PartialMap κ ν := Function.update map key none

@[simp] theorem insert_self (map : PartialMap κ ν) (key : κ) (value : ν) : map.insert key value key = some value :=
  Function.update_self ..

theorem insert_of_ne (map : PartialMap κ ν) (value : ν) (apart : key' ≠ key) : map.insert key value key' = map key' :=
  Function.update_of_ne apart ..

@[simp] theorem erase_self (map : PartialMap κ ν) (key : κ) : map.erase key key = none := Function.update_self ..

theorem erase_of_ne (map : PartialMap κ ν) (apart : key' ≠ key) : map.erase key key' = map key' :=
  Function.update_of_ne apart ..

/-- The value of a key is returned; a missing key is given a fresh one. -/
def FindsOrInserts (map : PartialMap κ ν) (fresh : ν → Prop) (key : κ) (value : ν) (map' : PartialMap κ ν) : Prop :=
  (map key = some value ∧ map' = map) ∨ (map key = none ∧ fresh value ∧ map' = map.insert key value)

theorem FindsOrInserts.present (done : FindsOrInserts map fresh key value map') : map' key = some value := by
  obtain ⟨found, rfl⟩ | ⟨-, -, rfl⟩ := done
  · exact found
  · exact insert_self ..

/-- The second call finds what the first one left. -/
theorem FindsOrInserts.again {map'' : PartialMap κ ν} (done : FindsOrInserts map fresh key value map')
    (again : FindsOrInserts map' fresh' key value' map'') : value' = value ∧ map'' = map' := by
  obtain ⟨found, rfl⟩ | ⟨missing, -⟩ := again
  · exact ⟨Option.some.inj (found.symm.trans done.present), rfl⟩
  · rw [done.present] at missing
    cases missing

end PartialMap
end Myfuse.Library
