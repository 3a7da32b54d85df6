import Mathlib.Algebra.Order.BigOperators.Group.Finset

/-! Blocks of bytes with little-endian fields. A field reads back what was
stored in it, and storing a field leaves every disjoint field alone. -/

namespace Myfuse.Library

abbrev Byte := BitVec 8

/-- A block of exactly `size` bytes. -/
def Bytes (size : Nat) : Type := Fin size → Byte

namespace Bytes
variable {size : Nat}

/-- The byte at `index`, and zero past the end. -/
def byte (block : Bytes size) (index : Nat) : Byte := if inside : index < size then block ⟨index, inside⟩ else 0

def ofFn (content : Nat → Byte) : Bytes size := fun index => content index

def zero : Bytes size := ofFn fun _ => 0

/-- `data` copied over the bytes from `offset` on. -/
def splice (block : Bytes size) (offset : Nat) (data : List Byte) : Bytes size :=
  ofFn fun index => if offset ≤ index ∧ index < offset + data.length then data.getD (index - offset) 0 else block.byte index

/-- The bytes of `[offset, offset + count)`. -/
def slice (block : Bytes size) (offset count : Nat) : List Byte :=
  (List.range count).map fun index => block.byte (offset + index)

/-- The `index`-th little-endian byte of a number. -/
def byteOf (value index : Nat) : Byte := BitVec.ofNat 8 (value / 256 ^ index)

/-- The unsigned little-endian number of `width` bytes at `offset`. -/
def field (block : Bytes size) (offset : Nat) : Nat → Nat
  | 0 => 0
  | width + 1 => (block.byte offset).toNat + 256 * field block (offset + 1) width

def setField (block : Bytes size) (offset width value : Nat) : Bytes size :=
  ofFn fun index => if offset ≤ index ∧ index < offset + width then byteOf value (index - offset) else block.byte index

@[simp] theorem byte_ofFn (content : Nat → Byte) {index : Nat} (inside : index < size) :
    (ofFn content : Bytes size).byte index = content index := by
  simp [byte, ofFn, inside]

theorem byte_outside (block : Bytes size) {index : Nat} (outside : size ≤ index) : block.byte index = 0 := by
  simp [byte, Nat.not_lt.mpr outside]

@[simp] theorem byte_zero (index : Nat) : (zero : Bytes size).byte index = 0 := by
  by_cases inside : index < size
  · simp [zero, inside]
  · exact byte_outside _ (Nat.not_lt.mp inside)

theorem ext {first second : Bytes size} (same : ∀ index < size, first.byte index = second.byte index) :
    first = second := by
  funext index
  simpa [byte] using same index index.isLt

theorem byte_splice (block : Bytes size) (offset : Nat) (data : List Byte) {index : Nat} (inside : index < size) :
    (block.splice offset data).byte index =
      if offset ≤ index ∧ index < offset + data.length then data.getD (index - offset) 0 else block.byte index := by
  rw [splice, byte_ofFn _ inside]

theorem splice_nil (block : Bytes size) (offset : Nat) : block.splice offset [] = block := by
  refine ext fun index inside => ?_
  rw [byte_splice _ _ _ inside, if_neg]
  simp only [List.length_nil]
  omega

@[simp] theorem length_slice (block : Bytes size) (offset count : Nat) : (block.slice offset count).length = count := by
  simp [slice]

theorem getElem_slice (block : Bytes size) (offset count index : Nat) (inside : index < (block.slice offset count).length) :
    (block.slice offset count)[index] = block.byte (offset + index) := by
  simp [slice]

theorem getD_slice (block : Bytes size) (offset : Nat) {count index : Nat} (inside : index < count) (default : Byte) :
    (block.slice offset count).getD index default = block.byte (offset + index) := by
  have low : index < (block.slice offset count).length := by
    rw [length_slice]
    exact inside
  rw [List.getD_eq_getElem?_getD, List.getElem?_eq_getElem low, Option.getD_some, getElem_slice]

theorem field_congr {first second : Bytes size} {offset width : Nat}
    (same : ∀ index, offset ≤ index → index < offset + width → first.byte index = second.byte index) :
    first.field offset width = second.field offset width := by
  induction width generalizing offset with
  | zero => rfl
  | succ width ih =>
    simp only [field]
    rw [same offset (Nat.le_refl _) (by omega), ih fun index low high => same index (by omega) (by omega)]

theorem field_lt (block : Bytes size) (offset width : Nat) : block.field offset width < 256 ^ width := by
  induction width generalizing offset with
  | zero => simp [field]
  | succ width ih =>
    have rest := ih (offset + 1)
    have low := (block.byte offset).isLt
    simp only [field, Nat.pow_succ]
    omega

@[simp] theorem field_zero (offset width : Nat) : (zero : Bytes size).field offset width = 0 := by
  induction width generalizing offset with
  | zero => rfl
  | succ width ih => simp [field, ih]

/-- A field whose bytes are those of `value` reads as `value`. -/
theorem field_of_bytes (block : Bytes size) (offset width value : Nat)
    (stored : ∀ index < width, block.byte (offset + index) = byteOf value index) :
    block.field offset width = value % 256 ^ width := by
  induction width generalizing offset value with
  | zero => simp [field, Nat.mod_one]
  | succ width ih =>
    have head := stored 0 (by omega)
    have tail := ih (offset + 1) (value / 256) fun index inside => by
      rw [show offset + 1 + index = offset + (index + 1) by omega, stored (index + 1) (by omega)]
      simp only [byteOf, Nat.div_div_eq_div_mul, Nat.pow_succ, Nat.mul_comm]
    simp only [field, tail]
    rw [show offset = offset + 0 from rfl, head]
    simp only [byteOf, Nat.pow_zero, Nat.div_one, BitVec.toNat_ofNat]
    have power : 256 ^ (width + 1) = 256 * 256 ^ width := Nat.pow_succ'
    rw [power, Nat.mod_mul]

theorem byte_setField (block : Bytes size) (offset width value : Nat) {index : Nat} (inside : index < size) :
    (block.setField offset width value).byte index =
      if offset ≤ index ∧ index < offset + width then byteOf value (index - offset) else block.byte index := by
  rw [setField, byte_ofFn _ inside]

/-- A stored field reads back, cut to its width. -/
theorem field_setField (block : Bytes size) (offset width value : Nat) (inside : offset + width ≤ size) :
    (block.setField offset width value).field offset width = value % 256 ^ width := by
  refine field_of_bytes _ _ _ _ fun index low => ?_
  rw [byte_setField _ _ _ _ (by omega), if_pos (by omega)]
  congr 1
  omega

/-- Storing a field leaves the disjoint ones alone. -/
theorem field_setField_other (block : Bytes size) {offset width value offset' width' : Nat}
    (apart : offset' + width' ≤ offset ∨ offset + width ≤ offset') :
    (block.setField offset width value).field offset' width' = block.field offset' width' := by
  refine field_congr fun index low high => ?_
  by_cases inside : index < size
  · rw [byte_setField _ _ _ _ inside, if_neg (by omega)]
  · rw [byte_outside _ (Nat.not_lt.mp inside), byte_outside _ (Nat.not_lt.mp inside)]

end Bytes
end Myfuse.Library
