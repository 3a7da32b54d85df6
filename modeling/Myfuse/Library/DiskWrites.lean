import Mathlib.Logic.Function.Basic
import Mathlib.Data.List.Basic

/-! Sequences of block writes and the disks they leave. A crash keeps a prefix
of the sequence, so crash safety is a statement about every prefix. -/

namespace Myfuse.Library
variable {α : Type}

/-- The disk after the writes, oldest first. -/
def applyWrites (disk : Nat → α) (writes : List (Nat × α)) : Nat → α :=
  writes.foldl (fun disk write => Function.update disk write.1 write.2) disk

@[simp] theorem applyWrites_nil (disk : Nat → α) : applyWrites disk [] = disk := rfl

theorem applyWrites_cons (disk : Nat → α) (write : Nat × α) (writes : List (Nat × α)) :
    applyWrites disk (write :: writes) = applyWrites (Function.update disk write.1 write.2) writes := rfl

theorem applyWrites_append (disk : Nat → α) (first second : List (Nat × α)) :
    applyWrites disk (first ++ second) = applyWrites (applyWrites disk first) second :=
  List.foldl_append

theorem applyWrites_singleton (disk : Nat → α) (block : Nat) (data : α) :
    applyWrites disk [(block, data)] = Function.update disk block data := rfl

/-- A block that no write names keeps its contents. -/
theorem applyWrites_other {writes : List (Nat × α)} {block : Nat} (disk : Nat → α)
    (absent : ∀ write ∈ writes, write.1 ≠ block) : applyWrites disk writes block = disk block := by
  induction writes generalizing disk with
  | nil => rfl
  | cons write writes ih =>
    rw [applyWrites_cons, ih _ fun other inside => absent other (List.mem_cons_of_mem _ inside),
      Function.update_of_ne (absent write List.mem_cons_self).symm]

/-- Writes that repeat what a block holds leave it. -/
theorem applyWrites_same {writes : List (Nat × α)} {block : Nat} (disk : Nat → α)
    (same : ∀ write ∈ writes, write.1 = block → write.2 = disk block) : applyWrites disk writes block = disk block := by
  induction writes generalizing disk with
  | nil => rfl
  | cons write writes ih =>
    have here : Function.update disk write.1 write.2 block = disk block := by
      by_cases named : write.1 = block
      · rw [← named, Function.update_self, same write List.mem_cons_self named, named]
      · exact Function.update_of_ne (fun other => named other.symm) _ _
    rw [applyWrites_cons, ih _ fun other inside named => ?_, here]
    rw [here]
    exact same other (List.mem_cons_of_mem _ inside) named

/-- The writes decide the blocks they name, whatever the disk held there. -/
theorem applyWrites_congr {writes : List (Nat × α)} {block : Nat} {first second : Nat → α}
    (same : block ∈ writes.map Prod.fst ∨ first block = second block) :
    applyWrites first writes block = applyWrites second writes block := by
  induction writes generalizing first second with
  | nil =>
    rcases same with inside | same
    · cases inside
    · exact same
  | cons write writes ih =>
    rw [applyWrites_cons, applyWrites_cons]
    apply ih
    by_cases here : block = write.1
    · exact .inr (by simp [here])
    · rcases same with inside | same
      · exact .inl (by simpa [here] using inside)
      · exact .inr (by simp [here, same])

/-- With distinct addresses each write is the last one to its block. -/
theorem applyWrites_mem {writes : List (Nat × α)} (disk : Nat → α) (distinct : (writes.map Prod.fst).Nodup)
    {block : Nat} {data : α} (inside : (block, data) ∈ writes) : applyWrites disk writes block = data := by
  induction writes generalizing disk with
  | nil => cases inside
  | cons write writes ih =>
    rw [List.map_cons, List.nodup_cons] at distinct
    rw [applyWrites_cons]
    rcases List.mem_cons.mp inside with rfl | inside
    · rw [applyWrites_other _ fun other member same => distinct.1 (List.mem_map.mpr ⟨other, member, same⟩)]
      simp
    · exact ih _ distinct.2 inside

/-- Repeating the whole sequence over an interrupted run of it loses nothing. -/
theorem applyWrites_take_all (disk : Nat → α) (writes : List (Nat × α)) (count : Nat) :
    applyWrites (applyWrites disk (writes.take count)) writes = applyWrites disk writes := by
  funext block
  by_cases inside : block ∈ writes.map Prod.fst
  · exact applyWrites_congr (.inl inside)
  · refine applyWrites_congr (.inr (applyWrites_other _ fun write member same => inside ?_))
    exact List.mem_map.mpr ⟨write, List.mem_of_mem_take member, same⟩

/-! Writes some of which fail. -/

/-- The writes that reach the disk; `fails` counts them from `first`. -/
def landed (fails : Nat → Bool) : Nat → List (Nat × α) → List (Nat × α)
  | _, [] => []
  | first, write :: writes =>
    if fails first then landed fails (first + 1) writes else write :: landed fails (first + 1) writes

variable (fails : Nat → Bool)

theorem landed_append (first : Nat) (head tail : List (Nat × α)) :
    landed fails first (head ++ tail) = landed fails first head ++ landed fails (first + head.length) tail := by
  induction head generalizing first with
  | nil => simp [landed]
  | cons write head ih =>
    rw [List.cons_append, landed, ih, landed, List.length_cons, Nat.add_assoc, Nat.add_comm 1]
    split <;> rfl

theorem landed_mem {first : Nat} {writes : List (Nat × α)} {write : Nat × α}
    (inside : write ∈ landed fails first writes) : write ∈ writes := by
  induction writes generalizing first with
  | nil => exact inside
  | cons head writes ih =>
    rw [landed] at inside
    split at inside
    · exact List.mem_cons_of_mem _ (ih inside)
    · rcases List.mem_cons.mp inside with rfl | inside
      · exact List.mem_cons_self
      · exact List.mem_cons_of_mem _ (ih inside)

/-- The disk after writes some of which fail. -/
def faultyWrites (first : Nat) (disk : Nat → α) (writes : List (Nat × α)) : Nat → α :=
  applyWrites disk (landed fails first writes)

@[simp] theorem faultyWrites_nil (first : Nat) (disk : Nat → α) : faultyWrites fails first disk [] = disk := rfl

theorem faultyWrites_cons (first : Nat) (disk : Nat → α) (write : Nat × α) (writes : List (Nat × α)) :
    faultyWrites fails first disk (write :: writes) =
      faultyWrites fails (first + 1) (if fails first then disk else Function.update disk write.1 write.2) writes := by
  rw [faultyWrites, landed]
  split <;> rfl

theorem faultyWrites_append (first : Nat) (disk : Nat → α) (head tail : List (Nat × α)) :
    faultyWrites fails first disk (head ++ tail) =
      faultyWrites fails (first + head.length) (faultyWrites fails first disk head) tail := by
  rw [faultyWrites, landed_append, applyWrites_append]
  rfl

theorem faultyWrites_singleton (first : Nat) (disk : Nat → α) (block : Nat) (data : α) :
    faultyWrites fails first disk [(block, data)] = if fails first then disk else Function.update disk block data := by
  unfold faultyWrites landed
  split <;> rfl

theorem faultyWrites_other {first : Nat} {writes : List (Nat × α)} {block : Nat} (disk : Nat → α)
    (absent : ∀ write ∈ writes, write.1 ≠ block) : faultyWrites fails first disk writes block = disk block :=
  applyWrites_other disk fun write inside => absent write (landed_mem fails inside)

/-- With distinct addresses each write decides its block by itself. -/
theorem faultyWrites_getElem (first : Nat) {writes : List (Nat × α)} (disk : Nat → α)
    (distinct : (writes.map Prod.fst).Nodup) {index : Nat} (inside : index < writes.length) :
    faultyWrites fails first disk writes writes[index].1 =
      if fails (first + index) then disk writes[index].1 else writes[index].2 := by
  induction writes generalizing first disk index with
  | nil => cases inside
  | cons write writes ih =>
    have fresh : ∀ other ∈ writes, other.1 ≠ write.1 := fun other member same =>
      (List.nodup_cons.mp distinct).1 (List.mem_map.mpr ⟨other, member, same⟩)
    rw [faultyWrites_cons]
    cases index with
    | zero =>
      rw [List.getElem_cons_zero, faultyWrites_other fails _ fresh, Nat.add_zero]
      split <;> simp
    | succ index =>
      have apart := fresh _ (List.getElem_mem (Nat.lt_of_succ_lt_succ inside))
      simp only [List.getElem_cons_succ]
      rw [ih _ _ (List.nodup_cons.mp distinct).2 (Nat.lt_of_succ_lt_succ inside),
        show first + (index + 1) = first + 1 + index by omega]
      split
      · split
        · rfl
        · rw [Function.update_of_ne apart]
      · rfl

end Myfuse.Library
