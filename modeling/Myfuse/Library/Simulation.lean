import Mathlib.Data.List.Basic

/-! Systems whose steps may show an event, and when one of them shows only what another can. -/

namespace Myfuse.Library

/-- A step shows an event or nothing. -/
structure System (σ ε : Type) where
  step : σ → Option ε → σ → Prop

namespace System
variable {σ τ ε : Type} {system : System σ ε} {start state after : σ} {trace shown : List ε}

/-- Steps one after the other, with the events they show in order. -/
inductive Runs (system : System σ ε) (start : σ) : List ε → σ → Prop where
  | nil : Runs system start [] start
  | step {trace : List ε} {state after : σ} {event : Option ε} (before : Runs system start trace state)
      (stepped : system.step state event after) : Runs system start (trace ++ event.toList) after

theorem Runs.one {event : Option ε} (stepped : system.step start event after) : system.Runs start event.toList after := by
  have runs := Runs.step .nil stepped
  exact runs

theorem Runs.trans (head : system.Runs start trace state) (tail : system.Runs state shown after) : system.Runs start (trace ++ shown) after := by
  induction tail with
  | nil =>
    rw [List.append_nil]
    exact head
  | step _ stepped ih =>
    rw [← List.append_assoc]
    exact ih.step stepped

/-- What holds at the start and every step keeps holds of every state reached. -/
theorem Runs.invariant {holds : σ → Prop} (runs : system.Runs start trace after) (begins : holds start)
    (keeps : ∀ {state event after}, holds state → system.step state event after → holds after) : holds after := by
  induction runs with
  | nil => exact begins
  | step _ stepped ih => exact keeps ih stepped

end System

/-- Each step of one system is matched by steps of the other that show the same. -/
structure Simulation {σ τ ε : Type} (first : System σ ε) (second : System τ ε) where
  related : σ → τ → Prop
  matched : ∀ {state event after abstract}, related state abstract → first.step state event after →
    ∃ abstract', second.Runs abstract event.toList abstract' ∧ related after abstract'

/-- What the first system shows the second can show. -/
theorem Simulation.runs {σ τ ε : Type} {first : System σ ε} {second : System τ ε} (simulation : Simulation first second) {start after : σ}
    {abstract : τ} {trace : List ε} (begins : simulation.related start abstract) (runs : first.Runs start trace after) :
    ∃ abstract', second.Runs abstract trace abstract' ∧ simulation.related after abstract' := by
  induction runs with
  | nil => exact ⟨abstract, .nil, begins⟩
  | step _ stepped ih =>
    obtain ⟨middle, before, related⟩ := ih
    obtain ⟨last, tail, related⟩ := simulation.matched related stepped
    exact ⟨last, before.trans tail, related⟩

end Myfuse.Library
