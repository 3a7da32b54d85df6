import Myfuse.Proofs.WellFormed

/-! States with any number of open operations, for statements that ask nothing of
the commits and allow every routine to stop. -/

namespace Myfuse
open Library Library.Exec

/-- Nothing is asked of a run but the effect of what returns. -/
structure Origin.Plain (origin : Origin) : Prop where
  watch : ¬ origin.watch
  bounded : ¬ origin.bounded
  roomy : ¬ origin.roomy

namespace FS
variable {origin : Origin} {fs after : FS} {ip : Nat}

/-- The volume is sound and the log can be used. -/
structure Usable (origin : Origin) (fs : FS) : Prop where
  volume : fs.Volume origin
  committing : fs.log.committing = false
  size : fs.log.size = NLOG

theorem WellFormed.usable (wellFormed : fs.WellFormed) : fs.Usable (fs.here False False False) :=
  ⟨wellFormed.volume _ _ _, wellFormed.idle.committing, wellFormed.idle.size⟩

theorem here_plain (fs : FS) : (fs.here False False False).Plain := ⟨id, id, id⟩

theorem Running.usable (running : fs.Running origin ip) : fs.Usable origin :=
  ⟨running.volume, running.op.committing, running.op.size⟩

namespace Usable
variable (plain : origin.Plain) (usable : fs.Usable origin)
include plain usable

theorem op (inOp : 1 ≤ fs.log.outstanding) : fs.Op origin :=
  ⟨usable.committing, inOp, usable.size, fun roomy => absurd roomy plain.roomy, fun roomy => absurd roomy plain.roomy⟩

/-- Any loaded entry can be worked on. -/
theorem running (loaded : fs.Loaded ip) (inOp : 1 ≤ fs.log.outstanding) : fs.Running origin ip :=
  ⟨usable.volume, loaded, usable.op plain inOp, fun watching => absurd watching plain.watch⟩

theorem opened (inOp : 1 ≤ fs.log.outstanding) : fs.Open origin :=
  ⟨usable.volume, usable.op plain inOp, fun watching => absurd watching plain.watch⟩

omit plain

/-- `begin_op` moves nothing. -/
theorem begins : Ensures beginOp fs
    (fun _ after => after.Usable origin ∧ Unmoved fs after ∧ Quiet fs after ∧ after.log.outstanding = fs.log.outstanding + 1)
    fun _ _ => True := by
  refine (beginOp_moves fs).mono ?_ fun _ _ _ => trivial
  rintro _ after ⟨same, history, -, -, log⟩
  have quiet : Quiet fs after := .one rfl history
  exact ⟨⟨same.volume usable.volume quiet, by rw [log, usable.committing], by rw [log, usable.size]⟩, same, quiet, by rw [log]⟩

/-- `end_op` moves nothing, whether it commits or not. -/
theorem ends : Ensures endOp fs
    (fun _ after => after.Usable origin ∧ Unmoved fs after ∧ Quiet fs after ∧ after.log.outstanding = fs.log.outstanding - 1)
    fun _ _ => False := by
  have alone := endOp_spec usable.committing
  refine ((endOp_moves fs).and alone).mono ?_ fun _ _ both => both.2
  rintro _ after ⟨⟨same, quiet, -, outstanding, committing, -, size⟩, -⟩
  exact ⟨⟨same.volume usable.volume quiet, committing, by rw [size, usable.size]⟩, same, quiet, outstanding⟩

end Usable

end FS
end Myfuse
