import Mathlib.Data.List.TakeWhile
import Myfuse.Library.Slots
import Myfuse.Directory

/-! The bytes of a directory as a list of slots: what the loops of `dirlookup` and
`dirlink` find in them. -/

namespace Myfuse
open Library Library.Exec

/-- A stored name: at most `DIRSIZE` bytes, without the NUL that ends a shorter one. -/
abbrev DirName := { name : Name // name.length ≤ DIRSIZE ∧ 0 ∉ name }

/-- A number of an entry in use. -/
abbrev Inum := { inum : Nat // 0 < inum ∧ inum < 2 ^ 32 }

/-- The slots of a directory. -/
abbrev Dirents := Slots DirName Inum

theorem notMem_chars (name : List Byte) : 0 ∉ name.takeWhile (· ≠ 0) := fun inside => by
  simpa using List.mem_takeWhile_imp inside

/-- What is stored of a name: its first `DIRSIZE` bytes. -/
def DirName.of (name : Name) : DirName :=
  ⟨(name.take DIRSIZE).takeWhile (· ≠ 0), by
    refine ⟨(List.takeWhile_sublist _).length_le.trans (List.length_take_le _ _), notMem_chars _⟩⟩

theorem takeWhile_chars {name : List Byte} (noNul : 0 ∉ name) : name.takeWhile (· ≠ 0) = name :=
  List.takeWhile_eq_self_iff.mpr fun byte inside => by
    simp only [decide_eq_true_eq]
    rintro rfl
    exact noNul inside

/-- A name that fits is stored as it is. -/
@[simp] theorem DirName.of_val (name : DirName) : DirName.of name.1 = name := by
  refine Subtype.ext ?_
  change (name.1.take DIRSIZE).takeWhile (· ≠ 0) = name.1
  rw [List.take_of_length_le name.2.1, takeWhile_chars name.2.2]

/-- The bytes of a slot. -/
def slotBytes : Option (DirName × Inum) → List Byte
  | none => zeroDirent
  | some (name, inum) => direntBytes inum.1 name.1

/-- The bytes of a directory. -/
def direntsBytes (slots : Dirents) : List Byte := slots.flatMap slotBytes

@[simp] theorem direntsBytes_nil : direntsBytes [] = [] := rfl

@[simp] theorem direntsBytes_cons (slot : Option (DirName × Inum)) (slots : Dirents) :
    direntsBytes (slot :: slots) = slotBytes slot ++ direntsBytes slots := rfl

theorem direntsBytes_append (first second : Dirents) : direntsBytes (first ++ second) = direntsBytes first ++ direntsBytes second :=
  List.flatMap_append

theorem direntBytes_of (inum : Nat) (name : Name) : direntBytes inum name = direntBytes inum (DirName.of name).1 := by
  have kept := takeWhile_chars (DirName.of name).2.2
  have short := List.take_of_length_le (DirName.of name).2.1
  unfold direntBytes
  rw [short, kept]
  rfl

@[simp] theorem length_direntBytes (inum : Nat) (name : Name) : (direntBytes inum name).length = direntSize := by
  have short := (DirName.of name).2.1
  rw [direntBytes_of]
  unfold direntBytes
  rw [List.take_of_length_le short, takeWhile_chars (DirName.of name).2.2]
  simp only [List.length_append, List.length_cons, List.length_nil, List.length_replicate]
  simp only [DIRSIZE, direntSize] at short ⊢
  omega

@[simp] theorem length_slotBytes (slot : Option (DirName × Inum)) : (slotBytes slot).length = direntSize := by
  cases slot with
  | none => exact List.length_replicate
  | some entry => exact length_direntBytes ..

@[simp] theorem length_direntsBytes (slots : Dirents) : (direntsBytes slots).length = direntSize * slots.length := by
  induction slots with
  | nil => rfl
  | cons slot rest ih =>
    rw [direntsBytes_cons, List.length_append, length_slotBytes, ih, List.length_cons, Nat.mul_succ, Nat.add_comm]

theorem leNat_zero (count : Nat) (rest : List Byte) (more : 4 ≤ count) : leNat (List.replicate count 0 ++ rest) 4 = 0 := by
  obtain ⟨count, rfl⟩ := Nat.exists_eq_add_of_le more
  rw [Nat.add_comm]
  simp [leNat, List.replicate_succ]

theorem leNat_direntBytes {inum : Nat} (small : inum < 2 ^ 32) (name : Name) (rest : List Byte) : leNat (direntBytes inum name ++ rest) 4 = inum := by
  simp only [direntBytes, leNat, List.cons_append, List.getD_cons_zero, List.tail_cons, Bytes.byteOf, BitVec.toNat_ofNat]
  omega

/-- The bytes of the name field. -/
theorem drop_direntBytes (inum : Nat) (name : DirName) : (direntBytes inum name.1).drop 4 = name.1 ++ List.replicate (DIRSIZE - name.1.length) 0 := by
  unfold direntBytes
  rw [List.take_of_length_le name.2.1, takeWhile_chars name.2.2]
  rfl

/-- A stored name is compared with the first bytes of the other. -/
theorem dirnamecmp_stored (count : Nat) (chars : List Byte) (name : Name) (rest : List Byte) (short : chars.length ≤ count) (noNul : 0 ∉ chars) :
    dirnamecmp count (chars ++ List.replicate (count - chars.length) 0 ++ rest) name =
      some (decide (chars = (name.take count).takeWhile (· ≠ 0))) := by
  induction count generalizing chars name with
  | zero =>
    obtain rfl : chars = [] := List.eq_nil_of_length_eq_zero (Nat.le_zero.mp short)
    simp [dirnamecmp]
  | succ count ih =>
    cases chars with
    | nil =>
      rw [List.nil_append, List.length_nil, Nat.sub_zero, List.replicate_succ, List.cons_append]
      cases name with
      | nil => rfl
      | cons char name =>
        rw [dirnamecmp, List.take_succ_cons, List.takeWhile_cons]
        by_cases ends : char = 0
        · rw [if_neg (not_not.mpr ends.symm), if_pos rfl, if_neg (by simpa using ends)]
          rfl
        · rw [if_pos (Ne.symm ends), if_pos (by simpa using ends)]
          rfl
    | cons byte chars =>
      rw [List.mem_cons, not_or] at noNul
      have nonzero : byte ≠ 0 := Ne.symm noNul.1
      rw [List.cons_append, List.cons_append, List.length_cons, Nat.add_sub_add_right]
      cases name with
      | nil =>
        rw [dirnamecmp, List.take_nil, List.takeWhile_nil, decide_eq_false nonzero, decide_eq_false (List.cons_ne_nil _ _)]
      | cons char name =>
        rw [dirnamecmp, List.take_succ_cons, List.takeWhile_cons]
        by_cases same : byte = char
        · subst same
          rw [if_neg (not_not.mpr rfl), if_neg nonzero, if_pos (by simpa using nonzero), ih chars name (Nat.le_of_succ_le_succ short) noNul.2]
          simp only [List.cons.injEq, true_and]
        · rw [if_pos same, eq_comm, Option.some.injEq, decide_eq_false_iff_not]
          split
          · exact fun both => same (List.cons.inj both).1
          · exact List.cons_ne_nil _ _

/-! The loops over a directory. -/

/-- The largest number of slots that the `int` counter of the loops reaches. -/
abbrev MAXDIRENTS : Nat := 2 ^ 31 / direntSize

theorem direntCount_slots {count : Nat} (few : count ≤ MAXDIRENTS) : direntCount (direntSize * count) = count := by
  simp only [direntCount, direntSize, MAXDIRENTS] at few ⊢
  omega

section
variable (before : List Byte)

theorem drop_before (rest : List Byte) : (before ++ rest).drop before.length = rest := by
  rw [List.drop_append_of_le_length (Nat.le_refl _), List.drop_length, List.nil_append]

theorem drop_name (rest : List Byte) : (before ++ rest).drop (before.length + 4) = rest.drop 4 := by
  rw [← List.drop_drop, drop_before]

theorem slot_inside (slot : Option (DirName × Inum)) (rest : List Byte) :
    ¬ (before ++ (slotBytes slot ++ rest)).length < before.length + 4 ∧ before.length + direntSize = (before ++ slotBytes slot).length := by
  simp only [List.length_append, length_slotBytes, and_true]
  exact Nat.not_lt.mpr (Nat.add_le_add_left (Nat.le_trans (by decide) (Nat.le_add_right direntSize rest.length)) _)

theorem leNat_slot (slot : Option (DirName × Inum)) (rest : List Byte) :
    leNat ((before ++ (slotBytes slot ++ rest)).drop before.length) 4 = (slot.map fun used => used.2.1).getD 0 := by
  rw [drop_before]
  cases slot with
  | none => exact leNat_zero _ _ (by decide)
  | some used => exact leNat_direntBytes used.2.2.2 _ _

theorem dirnamecmp_slot (used : DirName × Inum) (rest : List Byte) (name : Name) :
    dirnamecmp DIRSIZE ((before ++ (slotBytes (some used) ++ rest)).drop (before.length + 4)) name = some (decide (used.1 = DirName.of name)) := by
  have stored : (slotBytes (some used) ++ rest).drop 4 = used.1.1 ++ List.replicate (DIRSIZE - used.1.1.length) 0 ++ rest := by
    rw [List.drop_append_of_le_length (by rw [length_slotBytes]; decide)]
    exact congrArg (· ++ rest) (drop_direntBytes used.2.1 used.1)
  rw [drop_name, stored, dirnamecmp_stored _ _ _ _ used.1.2.1 used.1.2.2]
  congr 1
  exact decide_eq_decide.mpr ⟨fun same => Subtype.ext same, congrArg Subtype.val⟩

/-- The loop of `dirlookup` is the search in the slots. -/
theorem findDirent_slots (name : Name) (slots : Dirents) (place : Nat) (aligned : before.length = direntSize * place) :
    findDirent (before ++ direntsBytes slots) name slots.length before.length =
      some ((slots.lookup (DirName.of name) place).map fun found => (found.1.1, direntSize * found.2)) := by
  induction slots generalizing before place with
  | nil => rfl
  | cons slot rest ih =>
    obtain ⟨inside, next⟩ := slot_inside before slot (direntsBytes rest)
    have further := ih (before ++ slotBytes slot) (place + 1) (by rw [← next, aligned, Nat.mul_succ])
    rw [List.append_assoc] at further
    rw [List.length_cons, findDirent, direntsBytes_cons, if_neg inside, leNat_slot, next]
    cases slot with
    | none => exact further
    | some used =>
      rw [dirnamecmp_slot, if_neg (by simpa using Nat.ne_of_gt used.2.2.1), Slots.lookup]
      by_cases same : used.1 = DirName.of name
      · simp only [same, decide_true, if_true, Option.map_some, Option.getD_some, aligned]
      · simp only [same, decide_false, if_false]
        exact further

/-- The loop of `dirlink` ends at the first free slot, or at the end; the slot it looked at last is in the buffer. -/
theorem emptyDirent_slots (slots : Dirents) (place de : Nat) (aligned : before.length = direntSize * place)
    (inside : slots = [] → de + direntSize ≤ before.length) :
    ∃ last, emptyDirent (before ++ direntsBytes slots) slots.length before.length de = some (direntSize * (place + slots.firstFree), last) ∧
      last + direntSize ≤ (before ++ direntsBytes slots).length := by
  induction slots generalizing before place de with
  | nil =>
    refine ⟨de, ?_, ?_⟩
    · rw [List.length_nil, emptyDirent, aligned]
      rfl
    · rw [direntsBytes_nil, List.append_nil]
      exact inside rfl
  | cons slot rest ih =>
    obtain ⟨fits, next⟩ := slot_inside before slot (direntsBytes rest)
    have whole : before.length + direntSize ≤ (before ++ (slotBytes slot ++ direntsBytes rest)).length := by
      simp only [List.length_append, length_slotBytes]
      omega
    rw [List.length_cons, emptyDirent, direntsBytes_cons, if_neg fits, leNat_slot, next]
    cases slot with
    | none => exact ⟨before.length, by simp only [Option.map_none, Option.getD_none, if_true, aligned, Slots.firstFree, Nat.add_zero], whole⟩
    | some used =>
      rw [if_neg (by simpa using Nat.ne_of_gt used.2.2.1)]
      obtain ⟨last, found, low⟩ := ih (before ++ slotBytes (some used)) (place + 1) before.length
        (by rw [← next, aligned, Nat.mul_succ]) fun _ => Nat.le_of_eq next
      rw [List.append_assoc] at found low
      exact ⟨last, by rw [found, Slots.firstFree, Nat.add_assoc, Nat.add_comm 1], low⟩

end

/-- A slot is known by its bytes. -/
theorem slotBytes_injective : Function.Injective slotBytes := by
  intro first second same
  have number : (first.map fun used => used.2.1).getD 0 = (second.map fun used => used.2.1).getD 0 := by
    rw [← leNat_slot [] first [], ← leNat_slot [] second [], same]
  cases first with
  | none =>
    cases second with
    | none => rfl
    | some used => exact absurd number (Nat.ne_of_lt used.2.2.1)
  | some used =>
    cases second with
    | none => exact absurd number.symm (Nat.ne_of_lt used.2.2.1)
    | some other =>
      have found := dirnamecmp_slot [] used [] other.1.1
      rw [same, dirnamecmp_slot, DirName.of_val, decide_eq_true rfl] at found
      have name : used.1 = other.1 := of_decide_eq_true (Option.some.inj found).symm
      exact congrArg some (Prod.ext name (Subtype.ext number))

theorem direntsBytes_injective : Function.Injective direntsBytes := by
  intro first
  induction first with
  | nil =>
    intro second same
    have empty := congrArg List.length same
    rw [length_direntsBytes, length_direntsBytes] at empty
    exact (List.eq_nil_of_length_eq_zero (Nat.eq_of_mul_eq_mul_left (by decide) empty).symm).symm
  | cons slot rest ih =>
    intro second same
    cases second with
    | nil =>
      have empty := congrArg List.length same
      rw [length_direntsBytes, length_direntsBytes] at empty
      cases Nat.eq_of_mul_eq_mul_left (by decide) empty
    | cons other others =>
      rw [direntsBytes_cons, direntsBytes_cons] at same
      obtain ⟨head, tail⟩ := List.append_inj same (by rw [length_slotBytes, length_slotBytes])
      rw [slotBytes_injective head, ih tail]

/-- Writing one slot at its place. -/
theorem direntsBytes_split (slots : Dirents) (place : Nat) (slot : Option (DirName × Inum)) (inside : place ≤ slots.length) :
    direntsBytes (slots.take place ++ slot :: slots.drop (place + 1)) =
      (direntsBytes slots).take (direntSize * place) ++ slotBytes slot ++ (direntsBytes slots).drop (direntSize * (place + 1)) := by
  have first : direntsBytes (slots.take place) = (direntsBytes slots).take (direntSize * place) := by
    conv_rhs => rw [← List.take_append_drop place slots, direntsBytes_append]
    rw [List.take_left' (by rw [length_direntsBytes, List.length_take, Nat.min_eq_left inside])]
  have last : direntsBytes (slots.drop (place + 1)) = (direntsBytes slots).drop (direntSize * (place + 1)) := by
    rcases Nat.eq_or_lt_of_le inside with whole | more
    · rw [List.drop_eq_nil_of_le (by omega), List.drop_eq_nil_of_le]
      · rfl
      · rw [length_direntsBytes, ← whole, Nat.mul_succ]
        exact Nat.le_add_right _ _
    · conv_rhs => rw [← List.take_append_drop (place + 1) slots, direntsBytes_append]
      rw [List.drop_left' (by rw [length_direntsBytes, List.length_take, Nat.min_eq_left more])]
  rw [direntsBytes_append, direntsBytes_cons, first, last, List.append_assoc]

end Myfuse
