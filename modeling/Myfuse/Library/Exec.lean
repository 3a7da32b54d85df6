import Mathlib.Algebra.Order.BigOperators.Group.Finset

/-! Computations that return a value or stop for good, with proof rules. The
state is kept in both cases: what was written before a stop stays written. -/

namespace Myfuse.Library

/-- A computation over states `σ` that returns an `α` or stops with an `ε`. -/
def Exec (ε σ α : Type) : Type := σ → Except ε α × σ

namespace Exec
variable {ε σ α β : Type}

protected def pure (value : α) : Exec ε σ α := fun state => (.ok value, state)

protected def bind (first : Exec ε σ α) (next : α → Exec ε σ β) : Exec ε σ β := fun state =>
  match first state with
  | (.ok value, after) => next value after
  | (.error stop, after) => (.error stop, after)

instance : Monad (Exec ε σ) where
  pure := Exec.pure
  bind := Exec.bind

def get : Exec ε σ σ := fun state => (.ok state, state)

def modify (change : σ → σ) : Exec ε σ Unit := fun state => (.ok (), change state)

def stop (reason : ε) : Exec ε σ α := fun state => (.error reason, state)

/-- `body lo`, `body (lo + 1)`, ..., `count` calls in all. -/
def forRange (lo : Nat) : Nat → (Nat → Exec ε σ Unit) → Exec ε σ Unit
  | 0, _ => pure ()
  | count + 1, body => do
    body lo
    forRange (lo + 1) count body

/-- From `state` the computation returns with `ok` or stops with `exit`. -/
def Ensures (program : Exec ε σ α) (state : σ) (ok : α → σ → Prop) (exit : ε → σ → Prop) : Prop :=
  match program state with
  | (.ok value, after) => ok value after
  | (.error reason, after) => exit reason after

variable {program : Exec ε σ α} {next : α → Exec ε σ β} {state : σ}
  {ok : α → σ → Prop} {exit : ε → σ → Prop}

@[simp] theorem pure_apply (value : α) : (pure value : Exec ε σ α) state = (.ok value, state) := rfl

@[simp] theorem get_apply : (get : Exec ε σ σ) state = (.ok state, state) := rfl

@[simp] theorem modify_apply (change : σ → σ) :
    (modify change : Exec ε σ Unit) state = (.ok (), change state) := rfl

@[simp] theorem stop_apply (reason : ε) : (stop reason : Exec ε σ α) state = (.error reason, state) := rfl

theorem bind_apply : (program >>= next) state =
    match program state with
    | (.ok value, after) => next value after
    | (.error reason, after) => (.error reason, after) := rfl

theorem bind_ok {value : α} {after : σ} (returned : program state = (.ok value, after)) :
    (program >>= next) state = next value after := by
  rw [bind_apply, returned]

theorem bind_stop {reason : ε} {after : σ} (stopped : program state = (.error reason, after)) :
    (program >>= next) state = (.error reason, after) := by
  rw [bind_apply, stopped]

theorem bind_assoc {γ : Type} (rest : β → Exec ε σ γ) : ((program >>= next) >>= rest) = program >>= fun value => next value >>= rest := by
  funext start
  rw [bind_apply, bind_apply, bind_apply]
  cases program start with
  | mk result after =>
    cases result with
    | ok value => rfl
    | error reason => rfl

/-- A returned sequence splits into its two returned halves. -/
theorem bind_returns {value : β} {final : σ} (returned : (program >>= next) state = (.ok value, final)) :
    ∃ middle after, program state = (.ok middle, after) ∧ next middle after = (.ok value, final) := by
  rw [bind_apply] at returned
  split at returned
  next middle after first => exact ⟨middle, after, first, returned⟩
  next => cases returned

/-- The value a run returns, for runs that are computed. -/
def valueOf (program : Exec ε σ α) (state : σ) : Option α :=
  match program state with
  | (.ok value, _) => some value
  | (.error _, _) => none

theorem returns_of_valueOf {value : α} (computed : valueOf program state = some value) :
    program state = (.ok value, (program state).2) := by
  unfold valueOf at computed
  split at computed
  next returned => rw [returned, Option.some.inj computed]
  next => cases computed

/-- How a run would stop; the state stays. -/
def probe (program : Exec ε σ α) : Exec ε σ (Option ε) := fun state =>
  match program state with
  | (.ok _, _) => (.ok none, state)
  | (.error reason, _) => (.ok (some reason), state)

theorem stops_of_probe {reason : ε} {after : σ} (probed : probe program state = (.ok (some reason), after)) :
    ∃ final, program state = (.error reason, final) ∧ after = state := by
  unfold probe at probed
  split at probed
  next => cases probed
  next stopped =>
    cases probed
    exact ⟨_, stopped, rfl⟩

@[simp] theorem ensures_pure (value : α) :
    Ensures (pure value : Exec ε σ α) state ok exit ↔ ok value state := Iff.rfl

@[simp] theorem ensures_get {ok : σ → σ → Prop} :
    Ensures (get : Exec ε σ σ) state ok exit ↔ ok state state := Iff.rfl

@[simp] theorem ensures_modify (change : σ → σ) {ok : Unit → σ → Prop} :
    Ensures (modify change : Exec ε σ Unit) state ok exit ↔ ok () (change state) := Iff.rfl

@[simp] theorem ensures_stop (reason : ε) :
    Ensures (stop reason : Exec ε σ α) state ok exit ↔ exit reason state := Iff.rfl

theorem ensures_bind {ok : β → σ → Prop} :
    Ensures (program >>= next) state ok exit ↔
      Ensures program state (fun value after => Ensures (next value) after ok exit) exit := by
  unfold Ensures
  rw [bind_apply]
  rcases program state with ⟨value | reason, after⟩ <;> exact Iff.rfl

theorem ensures_of_ok {value : α} {after : σ} (returned : program state = (.ok value, after)) :
    Ensures program state ok exit ↔ ok value after := by
  unfold Ensures
  rw [returned]

theorem ensures_of_stop {reason : ε} {after : σ} (stopped : program state = (.error reason, after)) :
    Ensures program state ok exit ↔ exit reason after := by
  unfold Ensures
  rw [stopped]

-- From here on statements about runs are used through their rules; evaluating one would run the program.
attribute [irreducible] Ensures

/-- What a returned run satisfies. -/
theorem Ensures.returned (holds : Ensures program state ok exit) {value : α} {after : σ}
    (returned : program state = (.ok value, after)) : ok value after :=
  (ensures_of_ok returned).mp holds

theorem Ensures.stopped (holds : Ensures program state ok exit) {reason : ε} {after : σ}
    (stopped : program state = (.error reason, after)) : exit reason after :=
  (ensures_of_stop stopped).mp holds

theorem Ensures.mono {ok' : α → σ → Prop} {exit' : ε → σ → Prop} (holds : Ensures program state ok exit)
    (onOk : ∀ value after, ok value after → ok' value after)
    (onExit : ∀ reason after, exit reason after → exit' reason after) :
    Ensures program state ok' exit' := by
  unfold Ensures at holds ⊢
  split <;> rename_i found <;> rw [found] at holds
  · exact onOk _ _ holds
  · exact onExit _ _ holds

theorem Ensures.weaken {ok' : α → σ → Prop} (holds : Ensures program state ok exit)
    (onOk : ∀ value after, ok value after → ok' value after) : Ensures program state ok' exit :=
  holds.mono onOk fun _ _ same => same

/-- The sequencing rule. -/
theorem Ensures.bind {middle : α → σ → Prop} {ok : β → σ → Prop}
    (first : Ensures program state middle exit)
    (rest : ∀ value after, middle value after → Ensures (next value) after ok exit) :
    Ensures (program >>= next) state ok exit :=
  ensures_bind.mpr (first.weaken rest)

/-- Runs are deterministic, so two facts about one program hold together. -/
theorem Ensures.and {ok' : α → σ → Prop} {exit' : ε → σ → Prop} (first : Ensures program state ok exit)
    (second : Ensures program state ok' exit') :
    Ensures program state (fun value after => ok value after ∧ ok' value after)
      (fun reason after => exit reason after ∧ exit' reason after) := by
  unfold Ensures at first second ⊢
  split <;> rename_i found <;> rw [found] at first second <;> exact ⟨first, second⟩

/-- A run ends in some way. -/
theorem Ensures.possible (holds : Ensures program state ok exit) :
    (∃ value after, ok value after) ∨ ∃ reason after, exit reason after := by
  unfold Ensures at holds
  split at holds
  next value after _ => exact .inl ⟨value, after, holds⟩
  next reason after _ => exact .inr ⟨reason, after, holds⟩

theorem ensures_of_forall
    (onOk : ∀ value after, program state = (.ok value, after) → ok value after)
    (onExit : ∀ reason after, program state = (.error reason, after) → exit reason after) :
    Ensures program state ok exit := by
  unfold Ensures
  split
  next value after found => exact onOk value after found
  next reason after found => exact onExit reason after found

/-- The same run under another name. -/
theorem Ensures.of_eq {other : Exec ε σ α} (holds : Ensures other state ok exit) (same : program state = other state) :
    Ensures program state ok exit :=
  ensures_of_forall (fun _ _ found => holds.returned (same.symm.trans found)) fun _ _ found => holds.stopped (same.symm.trans found)

/-- With what the run is. -/
theorem Ensures.ran (holds : Ensures program state ok exit) :
    Ensures program state (fun value after => ok value after ∧ program state = (.ok value, after)) exit :=
  ensures_of_forall (fun _ _ found => ⟨holds.returned found, found⟩) fun _ _ found => holds.stopped found

theorem ensures_true : Ensures program state (fun _ _ => True) fun _ _ => True := ensures_of_forall (fun _ _ _ => trivial) fun _ _ _ => trivial

theorem ensures_ite {condition : Prop} [Decidable condition] {other : Exec ε σ α} :
    Ensures (if condition then program else other) state ok exit ↔
      (condition → Ensures program state ok exit) ∧ (¬ condition → Ensures other state ok exit) := by
  split <;> simp [*]

/-- A counted loop keeps an invariant indexed by its counter. -/
theorem Ensures.forRange {body : Nat → Exec ε σ Unit} (invariant : Nat → σ → Prop) :
    ∀ {lo count : Nat} {state : σ}, invariant lo state →
      (∀ i current, lo ≤ i → i < lo + count → invariant i current →
        Ensures (body i) current (fun _ => invariant (i + 1)) exit) →
      Ensures (forRange lo count body) state (fun _ => invariant (lo + count)) exit
  | lo, 0, state, start, _ => (ensures_pure ()).mpr start
  | lo, count + 1, state, start, step => by
    refine Ensures.bind (step lo state (Nat.le_refl _) (by omega) start) fun _ after reached => ?_
    rw [show lo + (count + 1) = lo + 1 + count by omega]
    exact Ensures.forRange invariant reached fun i current low high => step i current (by omega) (by omega)

/-- From every state where the invariant holds the run ends in one where it holds, or stops with `exit`. -/
def Preserves (invariant : σ → Prop) (exit : ε → σ → Prop) (program : Exec ε σ α) : Prop :=
  ∀ state, invariant state → Ensures program state (fun _ => invariant) exit

namespace Preserves
variable {invariant : σ → Prop}

theorem pure (value : α) : Preserves invariant exit (pure value) := fun _ holds => (ensures_pure value).mpr holds

theorem stop {reason : ε} (ends : ∀ state, invariant state → exit reason state) : Preserves invariant exit (Exec.stop reason : Exec ε σ α) :=
  fun state holds => (ensures_stop reason).mpr (ends state holds)

theorem modify {change : σ → σ} (keeps : ∀ state, invariant state → invariant (change state)) : Preserves invariant exit (modify change) :=
  fun state holds => (ensures_modify change).mpr (keeps state holds)

theorem bind (first : Preserves invariant exit program) (rest : ∀ value, Preserves invariant exit (next value)) :
    Preserves invariant exit (program >>= next) :=
  fun state holds => Ensures.bind (first state holds) fun value after holds => rest value after holds

/-- The state that was read has the invariant too. -/
theorem get {next : σ → Exec ε σ α} (rest : ∀ current, invariant current → Ensures (next current) current (fun _ => invariant) exit) :
    Preserves invariant exit (get >>= next) :=
  fun state holds => ensures_bind.mpr (ensures_get.mpr (rest state holds))

theorem gets {next : σ → Exec ε σ α} (rest : ∀ current, Preserves invariant exit (next current)) : Preserves invariant exit (Exec.get >>= next) :=
  get fun current holds => rest current current holds

theorem ite {condition : Prop} [Decidable condition] {other : Exec ε σ α} (yes : condition → Preserves invariant exit program)
    (no : ¬ condition → Preserves invariant exit other) : Preserves invariant exit (if condition then program else other) := by
  split
  next holds => exact yes holds
  next fails => exact no fails

theorem forRange {body : Nat → Exec ε σ Unit} {lo count : Nat}
    (each : ∀ i, lo ≤ i → i < lo + count → Preserves invariant exit (body i)) : Preserves invariant exit (forRange lo count body) :=
  fun _ holds => Ensures.forRange (fun _ => invariant) holds fun i current low high holds => each i low high current holds

end Preserves

end Exec
end Myfuse.Library
