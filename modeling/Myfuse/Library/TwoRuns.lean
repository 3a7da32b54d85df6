import Myfuse.Library.Exec

/-! Two runs side by side: they end in the same way, in related states. `Blind` is
the case of one program that looks at nothing in which the states differ. -/

namespace Myfuse.Library.Exec
variable {ε σ α β : Type}

/-- Both runs return one value, or both stop for one reason. -/
def Alike (program program' : Exec ε σ α) (state state' : σ) (ok : α → σ → σ → Prop) (exit : σ → σ → Prop) : Prop :=
  match program state, program' state' with
  | (.ok value, after), (.ok value', after') => value = value' ∧ ok value after after'
  | (.error reason, after), (.error reason', after') => reason = reason' ∧ exit after after'
  | _, _ => False

section
variable {program program' : Exec ε σ α} {state state' : σ} {ok : α → σ → σ → Prop} {exit : σ → σ → Prop}

theorem Alike.pure {value : α} (holds : ok value state state') :
    Alike (Pure.pure value : Exec ε σ α) (Pure.pure value) state state' ok exit := ⟨rfl, holds⟩

theorem Alike.stop {reason : ε} (holds : exit state state') :
    Alike (Exec.stop reason : Exec ε σ α) (Exec.stop reason) state state' ok exit := ⟨rfl, holds⟩

theorem Alike.modify {change change' : σ → σ} {ok : Unit → σ → σ → Prop} (holds : ok () (change state) (change' state')) :
    Alike (Exec.modify change : Exec ε σ Unit) (Exec.modify change') state state' ok exit := ⟨rfl, holds⟩

theorem Alike.mono {ok' : α → σ → σ → Prop} {exit' : σ → σ → Prop} (alike : Alike program program' state state' ok exit)
    (onOk : ∀ value after after', ok value after after' → ok' value after after')
    (onExit : ∀ after after', exit after after' → exit' after after') : Alike program program' state state' ok' exit' := by
  unfold Alike at alike ⊢
  split
  next value after value' after' ran ran' =>
    rw [ran, ran'] at alike
    exact ⟨alike.1, onOk value after after' alike.2⟩
  next reason after reason' after' ran ran' =>
    rw [ran, ran'] at alike
    exact ⟨alike.1, onExit after after' alike.2⟩
  next apart apart' =>
    split at alike
    next ran ran' => exact apart _ _ _ _ ran ran'
    next ran ran' => exact apart' _ _ _ _ ran ran'
    next => exact alike

theorem Alike.weaken {ok' : α → σ → σ → Prop} (alike : Alike program program' state state' ok exit)
    (onOk : ∀ value after after', ok value after after' → ok' value after after') :
    Alike program program' state state' ok' exit :=
  alike.mono onOk fun _ _ same => same

/-- The two results are one. -/
theorem Alike.result (alike : Alike program program' state state' ok exit) : (program' state').1 = (program state).1 := by
  unfold Alike at alike
  split at alike
  next value after value' after' ran ran' => rw [ran, ran', alike.1]
  next reason after reason' after' ran ran' => rw [ran, ran', alike.1]
  next => exact alike.elim

theorem Alike.returned {value : α} {after : σ} (alike : Alike program program' state state' ok exit)
    (returned : program state = (.ok value, after)) : ∃ after', program' state' = (.ok value, after') ∧ ok value after after' := by
  unfold Alike at alike
  rw [returned] at alike
  split at alike
  next value' after' other after'' ran ran' =>
    cases ran
    exact ⟨after'', by rw [ran', ← alike.1], alike.2⟩
  next ran _ => cases ran
  next => exact alike.elim

theorem Alike.after (alike : Alike program program' state state' (fun _ => exit) exit) : exit (program state).2 (program' state').2 := by
  unfold Alike at alike
  split at alike
  next ran ran' =>
    rw [ran, ran']
    exact alike.2
  next ran ran' =>
    rw [ran, ran']
    exact alike.2
  next => exact alike.elim

theorem Alike.stopped {reason : ε} {after : σ} (alike : Alike program program' state state' ok exit)
    (stopped : program state = (.error reason, after)) : ∃ after', program' state' = (.error reason, after') ∧ exit after after' := by
  unfold Alike at alike
  rw [stopped] at alike
  split at alike
  next ran _ => cases ran
  next reason' after' other after'' ran ran' =>
    cases ran
    exact ⟨after'', by rw [ran', ← alike.1], alike.2⟩
  next => exact alike.elim

theorem Alike.of_runs
    (returns : ∀ value after, program state = (.ok value, after) → ∃ after', program' state' = (.ok value, after') ∧ ok value after after')
    (stops : ∀ reason after, program state = (.error reason, after) → ∃ after', program' state' = (.error reason, after') ∧ exit after after') :
    Alike program program' state state' ok exit := by
  unfold Alike
  cases ran : program state with
  | mk result after =>
    cases result with
    | ok value =>
      obtain ⟨after', ran', holds⟩ := returns value after ran
      rw [ran']
      exact ⟨rfl, holds⟩
    | error reason =>
      obtain ⟨after', ran', holds⟩ := stops reason after ran
      rw [ran']
      exact ⟨rfl, holds⟩

/-- What the first run satisfies, the second satisfies up to the relation. -/
theorem Alike.ensures {post : α → σ → Prop} {stopped : ε → σ → Prop} (alike : Alike program program' state state' ok exit)
    (holds : Ensures program state post stopped) :
    Ensures program' state' (fun value after' => ∃ after, post value after ∧ ok value after after')
      fun reason after' => ∃ after, stopped reason after ∧ exit after after' := by
  cases ran : program state with
  | mk result after =>
    cases result with
    | ok value =>
      obtain ⟨after', ran', same⟩ := alike.returned ran
      exact (ensures_of_ok ran').mpr ⟨after, holds.returned ran, same⟩
    | error reason =>
      obtain ⟨after', ran', same⟩ := alike.stopped ran
      exact (ensures_of_stop ran').mpr ⟨after, holds.stopped ran, same⟩

/-- With what the two runs are. -/
theorem Alike.ran (alike : Alike program program' state state' ok exit) : Alike program program' state state'
    (fun value after after' => ok value after after' ∧ program state = (.ok value, after) ∧ program' state' = (.ok value, after')) exit := by
  apply Alike.of_runs
  · intro value after ran
    obtain ⟨after', ran', holds⟩ := alike.returned ran
    exact ⟨after', ran', holds, ran, ran'⟩
  · intro reason after ran
    exact alike.stopped ran

/-- The sequencing rule. -/
theorem Alike.bind {next next' : α → Exec ε σ β} {middle : α → σ → σ → Prop} {ok : β → σ → σ → Prop}
    (first : Alike program program' state state' middle exit)
    (rest : ∀ value after after', middle value after after' → Alike (next value) (next' value) after after' ok exit) :
    Alike (program >>= next) (program' >>= next') state state' ok exit := by
  unfold Alike at first
  split at first
  next value after value' after' ran ran' =>
    obtain ⟨rfl, holds⟩ := first
    unfold Alike
    rw [bind_ok ran, bind_ok ran']
    exact rest _ _ _ holds
  next reason after reason' after' ran ran' =>
    unfold Alike
    rw [bind_stop ran, bind_stop ran']
    exact first
  next => exact first.elim

theorem Alike.read {next next' : σ → Exec ε σ α} (rest : Alike (next state) (next' state') state state' ok exit) :
    Alike (get >>= next) (get >>= next') state state' ok exit := rest

theorem Alike.ite {condition condition' : Prop} [Decidable condition] [Decidable condition'] {other other' : Exec ε σ α}
    (same : condition' ↔ condition) (yes : condition → Alike program program' state state' ok exit)
    (no : ¬ condition → Alike other other' state state' ok exit) :
    Alike (if condition then program else other) (if condition' then program' else other') state state' ok exit := by
  by_cases holds : condition
  · rw [if_pos holds, if_pos (same.mpr holds)]
    exact yes holds
  · rw [if_neg holds, if_neg (mt same.mp holds)]
    exact no holds

theorem Alike.forRange {body body' : Nat → Exec ε σ Unit} (invariant : σ → σ → Prop) :
    ∀ {lo count : Nat} {state state' : σ}, invariant state state' →
      (∀ i current current', invariant current current' → Alike (body i) (body' i) current current' (fun _ => invariant) exit) →
      Alike (forRange lo count body) (forRange lo count body') state state' (fun _ => invariant) exit
  | _, 0, _, _, start, _ => .pure start
  | lo, _ + 1, _, _, start, step => by
    refine .bind (step lo _ _ start) fun _ _ _ reached => ?_
    exact Alike.forRange invariant reached step

end

/-- Related states stay related, and the result is the same; a run that stops leaves what `failed` relates. -/
def Blind (related failed : σ → σ → Prop) (program : Exec ε σ α) : Prop :=
  ∀ state state', related state state' → Alike program program state state' (fun _ => related) failed

namespace Blind
variable {related failed : σ → σ → Prop} {program other : Exec ε σ α}

theorem pure (value : α) : Blind related failed (Pure.pure value : Exec ε σ α) := fun _ _ same => .pure same

theorem stop (reason : ε) (fails : ∀ state state', related state state' → failed state state') :
    Blind related failed (Exec.stop reason : Exec ε σ α) := fun state state' same => .stop (fails state state' same)

theorem modify {change : σ → σ} (kept : ∀ state state', related state state' → related (change state) (change state')) :
    Blind related failed (Exec.modify change : Exec ε σ Unit) := fun state state' same => .modify (kept state state' same)

theorem bind {next : α → Exec ε σ β} (first : Blind related failed program) (rest : ∀ value, Blind related failed (next value)) :
    Blind related failed (program >>= next) := fun state state' same =>
  .bind (first state state' same) fun value after after' reached => rest value after after' reached

theorem read {next : σ → Exec ε σ α} (same : ∀ state state', related state state' → next state' = next state)
    (rest : ∀ state, Blind related failed (next state)) : Blind related failed (get >>= next) := fun state state' holds =>
  .read (by rw [same state state' holds]; exact rest state state state' holds)

theorem ite {condition : Prop} [Decidable condition] (yes : Blind related failed program) (no : Blind related failed other) :
    Blind related failed (if condition then program else other) := by
  split
  · exact yes
  · exact no

theorem forRange {body : Nat → Exec ε σ Unit} (each : ∀ i, Blind related failed (body i)) (lo count : Nat) :
    Blind related failed (Exec.forRange lo count body) := fun _ _ same =>
  .forRange related same fun i current current' reached => each i current current' reached

end Blind
end Myfuse.Library.Exec
