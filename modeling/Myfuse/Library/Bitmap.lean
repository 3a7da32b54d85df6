import Mathlib.Data.List.Basic
import Mathlib.Tactic.Common
import Myfuse.Library.Bytes

/-! Bitmaps kept in blocks of bytes: reading and setting one bit, and the two
summaries of a bitmap, its number of set bits and its lowest clear bit. -/

namespace Myfuse.Library

namespace Bytes
variable {size : Nat}

def bit (block : Bytes size) (index : Nat) : Bool := (block.byte (index / 8)).getLsbD (index % 8)

/-- A byte with one flag set or cleared. -/
def setFlag (old : Byte) (flag : Nat) (value : Bool) : Byte :=
  if value then old ||| ((1 : Byte) <<< flag) else old &&& ~~~((1 : Byte) <<< flag)

def setBit (block : Bytes size) (index : Nat) (value : Bool) : Bytes size :=
  block.splice (index / 8) [setFlag (block.byte (index / 8)) (index % 8) value]

theorem getLsbD_setFlag (old : Byte) {flag other : Nat} (small : flag < 8) (value : Bool) :
    (setFlag old flag value).getLsbD other = if other = flag then value else old.getLsbD other := by
  by_cases outside : 8 ≤ other
  · rw [BitVec.getLsbD_of_ge _ _ outside, BitVec.getLsbD_of_ge _ _ outside, if_neg (by omega)]
  · have one : (1 : Byte).getLsbD (other - flag) = decide (other - flag = 0) := by
      simp
    cases value with
    | true =>
      simp only [setFlag, if_true, BitVec.getLsbD_or, BitVec.getLsbD_shiftLeft, one]
      by_cases same : other = flag
      · simp [same, small]
      · by_cases below : other < flag
        · simp [same, below]
        · simp [same, show ¬ other - flag = 0 by omega]
    | false =>
      simp only [setFlag, Bool.false_eq_true, if_false, BitVec.getLsbD_and, BitVec.getLsbD_not,
        BitVec.getLsbD_shiftLeft, one]
      by_cases same : other = flag
      · simp [same, small]
      · by_cases below : other < flag
        · simp [same, below, show other < 8 by omega]
        · simp [same, show ¬ other - flag = 0 by omega, show other < 8 by omega]

/-- Setting a bit changes that bit only. -/
theorem bit_setBit (block : Bytes size) {index other : Nat} (value : Bool) (inside : other < size * 8) :
    (block.setBit index value).bit other = if other = index then value else block.bit other := by
  unfold bit setBit
  rw [byte_splice _ _ _ (by omega)]
  by_cases here : other / 8 = index / 8
  · rw [if_pos (by simp only [List.length_singleton]; omega), here, Nat.sub_self, List.getD_cons_zero,
      getLsbD_setFlag _ (by omega)]
    have same : other % 8 = index % 8 ↔ other = index := by omega
    simp only [same]
  · rw [if_neg (by simp only [List.length_singleton]; omega), if_neg (fun same => here (by rw [same]))]

/-- Eight flags packed into a byte. -/
def flagByte (flags : Nat → Bool) : Byte := (List.range 8).foldl (fun byte flag => setFlag byte flag (flags flag)) 0

theorem getLsbD_flagByte (flags : Nat → Bool) {flag : Nat} (small : flag < 8) : (flagByte flags).getLsbD flag = flags flag := by
  have fold : flagByte flags = setFlag (setFlag (setFlag (setFlag (setFlag (setFlag (setFlag (setFlag 0 0 (flags 0)) 1 (flags 1))
      2 (flags 2)) 3 (flags 3)) 4 (flags 4)) 5 (flags 5)) 6 (flags 6)) 7 (flags 7) := rfl
  rw [fold]
  simp only [getLsbD_setFlag _ (show 0 < 8 by decide), getLsbD_setFlag _ (show 1 < 8 by decide), getLsbD_setFlag _ (show 2 < 8 by decide),
    getLsbD_setFlag _ (show 3 < 8 by decide), getLsbD_setFlag _ (show 4 < 8 by decide), getLsbD_setFlag _ (show 5 < 8 by decide),
    getLsbD_setFlag _ (show 6 < 8 by decide), getLsbD_setFlag _ (show 7 < 8 by decide)]
  have cases : flag = 0 ∨ flag = 1 ∨ flag = 2 ∨ flag = 3 ∨ flag = 4 ∨ flag = 5 ∨ flag = 6 ∨ flag = 7 := by omega
  rcases cases with rfl | rfl | rfl | rfl | rfl | rfl | rfl | rfl <;> rfl

/-- The block with the given bits. -/
def ofBits (bits : Nat → Bool) : Bytes size := ofFn fun index => flagByte fun flag => bits (index * 8 + flag)

theorem bit_ofBits (bits : Nat → Bool) {index : Nat} (inside : index < size * 8) : (ofBits bits : Bytes size).bit index = bits index := by
  have low : index % 8 < 8 := Nat.mod_lt _ (by decide)
  rw [bit, ofBits, byte_ofFn _ (by omega), getLsbD_flagByte _ low]
  congr 1
  omega

theorem flagByte_congr {flags flags' : Nat → Bool} (same : ∀ flag < 8, flags flag = flags' flag) : flagByte flags = flagByte flags' :=
  BitVec.eq_of_getLsbD_eq fun flag small => by rw [getLsbD_flagByte _ small, getLsbD_flagByte _ small, same flag small]

theorem byte_eq_flagByte (block : Bytes size) (index : Nat) : block.byte index = flagByte fun flag => block.bit (index * 8 + flag) := by
  refine BitVec.eq_of_getLsbD_eq fun flag small => ?_
  rw [getLsbD_flagByte _ small, bit]
  congr 2 <;> omega

/-- The byte that `setBit` changes. -/
theorem byte_setBit (block : Bytes size) {index other : Nat} (value : Bool) (inside : other < size) :
    (block.setBit index value).byte other =
      if other = index / 8 then setFlag (block.byte other) (index % 8) value else block.byte other := by
  rw [setBit, byte_splice _ _ _ inside]
  by_cases here : other = index / 8
  · rw [if_pos (by simp only [List.length_singleton]; omega), if_pos here, here, Nat.sub_self, List.getD_cons_zero]
  · rw [if_neg (by simp only [List.length_singleton]; omega), if_neg here]

theorem bit_ones {block : Bytes size} {index : Nat} (ones : block.byte (index / 8) = 0xff) : block.bit index = true := by
  have low : index % 8 < 8 := Nat.mod_lt _ (by decide)
  rw [bit, ones]
  revert low
  generalize index % 8 = flag
  decide +revert

theorem bit_zeros {block : Bytes size} {index : Nat} (zeros : block.byte (index / 8) = 0) : block.bit index = false := by
  rw [bit, zeros]
  simp

end Bytes

/-! Summaries of the first `width` bits. -/

def countSet (width : Nat) (bit : Nat → Bool) : Nat := (List.range width).countP bit

/-- The first index whose bit is clear, -1 when every bit is set. -/
def firstClear (indices : List Nat) (bit : Nat → Bool) : Int :=
  match indices.find? fun index => !bit index with
  | some index => index
  | none => -1

def lowestClear (width : Nat) (bit : Nat → Bool) : Int := firstClear (List.range width) bit

section
variable {width : Nat} {bit bit' : Nat → Bool} {index : Nat}

theorem countSet_le : countSet width bit ≤ width :=
  Nat.le_trans List.countP_le_length (by simp)

theorem countSet_congr (same : ∀ other < width, bit' other = bit other) : countSet width bit' = countSet width bit :=
  List.countP_congr fun other inside => by rw [same other (List.mem_range.mp inside)]

theorem lowestClear_eq_iff : lowestClear width bit = index ↔
    index < width ∧ bit index = false ∧ ∀ other < index, bit other = true := by
  unfold lowestClear firstClear
  cases found : (List.range width).find? fun index => !bit index with
  | none =>
    have all := List.find?_range_eq_none.mp found
    constructor
    · intro impossible
      simp only at impossible
      omega
    · rintro ⟨inside, clear, _⟩
      have := all index inside
      simp [clear] at this
  | some first =>
    obtain ⟨clear, inside, before⟩ := List.find?_range_eq_some.mp found
    rw [Int.natCast_inj]
    constructor
    · rintro rfl
      exact ⟨List.mem_range.mp inside, by simpa using clear, fun other low => by simpa using before other low⟩
    · rintro ⟨inside', clear', before'⟩
      by_contra apart
      rcases Nat.lt_or_gt_of_ne apart with low | high
      · have := before' first low
        simp [this] at clear
      · have := before index high
        simp [clear'] at this

theorem lowestClear_eq_neg_one : lowestClear width bit = -1 ↔ ∀ other < width, bit other = true := by
  unfold lowestClear firstClear
  cases found : (List.range width).find? fun index => !bit index with
  | none =>
    have all := List.find?_range_eq_none.mp found
    exact ⟨fun _ other inside => by simpa using all other inside, fun _ => rfl⟩
  | some first =>
    obtain ⟨clear, inside, _⟩ := List.find?_range_eq_some.mp found
    constructor
    · intro impossible
      simp only at impossible
      omega
    · intro all
      have := all first (List.mem_range.mp inside)
      simp [this] at clear

/-- The lowest clear bit is there, or there is none. -/
theorem lowestClear_cases (width : Nat) (bit : Nat → Bool) :
    lowestClear width bit = -1 ∨ ∃ index < width, lowestClear width bit = index ∧ bit index = false := by
  by_cases none : lowestClear width bit = -1
  · exact .inl none
  · right
    cases found : (List.range width).find? fun index => !bit index with
    | none => simp [lowestClear, firstClear, found] at none
    | some first =>
      obtain ⟨clear, inside, _⟩ := List.find?_range_eq_some.mp found
      exact ⟨first, List.mem_range.mp inside, by simp [lowestClear, firstClear, found], by simpa using clear⟩

theorem lowestClear_congr (same : ∀ other < width, bit' other = bit other) :
    lowestClear width bit' = lowestClear width bit := by
  rcases lowestClear_cases width bit with none | ⟨first, _, isFirst, _⟩
  · rw [none, lowestClear_eq_neg_one]
    exact fun other inside => (same other inside).trans (lowestClear_eq_neg_one.mp none other inside)
  · obtain ⟨inside, clear, before⟩ := lowestClear_eq_iff.mp isFirst
    rw [isFirst, lowestClear_eq_iff]
    exact ⟨inside, (same first inside).trans clear, fun other low => (same other (by omega)).trans (before other low)⟩

theorem countSet_eq_width : countSet width bit = width ↔ ∀ other < width, bit other = true := by
  unfold countSet
  have all := List.countP_eq_length (p := bit) (l := List.range width)
  rw [List.length_range] at all
  rw [all]
  simp

/-- The set bits of a bitmap that is clear on `[lo, hi)` only. -/
theorem countSet_outside {lo hi : Nat} (ordered : lo ≤ hi) (inside : hi ≤ width) (same : ∀ other < width, bit other = decide (other < lo ∨ hi ≤ other)) :
    countSet width bit = lo + (width - hi) := by
  have shape : countSet width bit = countSet width fun other => decide (other < lo ∨ hi ≤ other) := countSet_congr same
  rw [shape, countSet, show width = lo + ((hi - lo) + (width - hi)) by omega, List.range_add, List.range_add, List.countP_append,
    List.map_append, List.countP_append]
  have low : (List.range lo).countP (fun other => decide (other < lo ∨ hi ≤ other)) = lo := by
    rw [List.countP_eq_length.mpr fun other inside => ?_, List.length_range]
    rw [decide_eq_true_iff]
    exact .inl (List.mem_range.mp inside)
  have middle : ((List.range (hi - lo)).map (lo + ·)).countP (fun other => decide (other < lo ∨ hi ≤ other)) = 0 := by
    refine List.countP_eq_zero.mpr fun other inside => ?_
    obtain ⟨k, small, rfl⟩ := List.mem_map.mp inside
    have small := List.mem_range.mp small
    rw [decide_eq_true_iff]
    omega
  have high : (((List.range (width - hi)).map (hi - lo + ·)).map (lo + ·)).countP (fun other => decide (other < lo ∨ hi ≤ other)) =
      width - hi := by
    rw [List.map_map, List.countP_eq_length.mpr fun other inside => ?_, List.length_map, List.length_range]
    obtain ⟨k, small, rfl⟩ := List.mem_map.mp inside
    rw [decide_eq_true_iff, Function.comp]
    omega
  rw [low, middle, high]
  omega

private theorem countP_set {items : List Nat} (distinct : items.Nodup) (member : index ∈ items) (clear : bit index = false)
    (same : ∀ other, bit' other = if other = index then true else bit other) :
    items.countP bit' = items.countP bit + 1 := by
  induction items with
  | nil => cases member
  | cons head tail ih =>
    rw [List.nodup_cons] at distinct
    rw [List.countP_cons, List.countP_cons]
    rcases List.mem_cons.mp member with rfl | later
    · have rest : tail.countP bit' = tail.countP bit := List.countP_congr fun other inside => by
        have apart : other ≠ index := fun equal => distinct.1 (equal ▸ inside)
        rw [same, if_neg apart]
      rw [rest, same, if_pos rfl, clear]
      simp
    · have apart : head ≠ index := fun equal => distinct.1 (equal ▸ later)
      rw [ih distinct.2 later, same, if_neg apart]
      omega

/-- Setting a clear bit. -/
theorem countSet_set (inside : index < width) (clear : bit index = false)
    (same : ∀ other, bit' other = if other = index then true else bit other) :
    countSet width bit' = countSet width bit + 1 :=
  countP_set List.nodup_range (List.mem_range.mpr inside) clear same

/-- Clearing a set bit. -/
theorem countSet_clear (inside : index < width) (set : bit index = true)
    (same : ∀ other, bit' other = if other = index then false else bit other) :
    countSet width bit' + 1 = countSet width bit := by
  refine (countSet_set inside (by rw [same, if_pos rfl]) fun other => ?_).symm
  rw [same]
  split
  next equal => rw [equal, set]
  next => rfl

/-- Clearing a bit lowers the lowest clear bit to it, unless that was lower already. -/
theorem lowestClear_clear (inside : index < width) (same : ∀ other, bit' other = if other = index then false else bit other) :
    lowestClear width bit' =
      if lowestClear width bit = -1 ∨ (index : Int) < lowestClear width bit then (index : Int) else lowestClear width bit := by
  rcases lowestClear_cases width bit with none | ⟨first, below, isFirst, clear⟩
  · rw [if_pos (.inl none)]
    have all := lowestClear_eq_neg_one.mp none
    exact lowestClear_eq_iff.mpr ⟨inside, by rw [same, if_pos rfl], fun other low => by
      rw [same, if_neg (by omega), all other (by omega)]⟩
  · obtain ⟨_, _, before⟩ := lowestClear_eq_iff.mp isFirst
    rw [isFirst]
    split
    next lower =>
      have lower : index < first := by omega
      exact lowestClear_eq_iff.mpr ⟨inside, by rw [same, if_pos rfl], fun other low => by
        rw [same, if_neg (by omega), before other (by omega)]⟩
    next above =>
      have above : first ≤ index := by omega
      refine lowestClear_eq_iff.mpr ⟨below, ?_, fun other low => ?_⟩
      · rw [same]
        split
        · rfl
        · exact clear
      · rw [same, if_neg (by omega), before other low]

/-- Setting the lowest clear bit: the next one is found above it. -/
theorem lowestClear_set (isFirst : lowestClear width bit = index)
    (same : ∀ other, bit' other = if other = index then true else bit other) :
    lowestClear width bit' = firstClear (List.range' (index + 1) (width - (index + 1))) bit' := by
  obtain ⟨inside, _, before⟩ := lowestClear_eq_iff.mp isFirst
  have low : ∀ other ≤ index, bit' other = true := fun other small => by
    rw [same]
    split
    · rfl
    · exact before other (by omega)
  unfold firstClear
  split
  next next found =>
    obtain ⟨clear, member, between⟩ := List.find?_range'_eq_some.mp found
    rw [List.mem_range'_1] at member
    refine lowestClear_eq_iff.mpr ⟨by omega, by simpa using clear, fun other small => ?_⟩
    by_cases under : other ≤ index
    · exact low other under
    · simpa using between other (by omega) small
  next found =>
    have above := List.find?_range'_eq_none.mp found
    refine lowestClear_eq_neg_one.mpr fun other small => ?_
    by_cases under : other ≤ index
    · exact low other under
    · simpa using above other (by omega) (by omega)

end
end Myfuse.Library
