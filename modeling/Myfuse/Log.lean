import Myfuse.Exits

/-! The in-memory log of `log.c` and the decisions made under `fslog.lock`. The
crash model, the thread model and the file system model share them. -/

namespace Myfuse

/-- `struct fslog`; `block` is `lh.block[0 .. lh.n)`. -/
structure Fslog where
  start : Nat
  size : Int
  outstanding : Int
  committing : Bool
  block : List Nat
  deriving DecidableEq, Repr

namespace Fslog

/-- `log_init` before it recovers. The super block's `uint` size becomes an `int`. -/
def init (logstart nlog : Nat) : Fslog :=
  { start := logstart, size := (BitVec.ofNat 32 nlog).toInt, outstanding := 0, committing := false, block := [] }

/-- `lh.n`. -/
def n (log : Fslog) : Nat := log.block.length

/-- `begin_op` goes ahead; otherwise it waits. -/
def admits (log : Fslog) : Bool := !log.committing && !decide (log.n + (log.outstanding + 1) * MAXOPBLOCKS > NLOG)

/-- `logged_write` gives up before it looks for the block in the list. -/
def tooBig (log : Fslog) : Bool := decide (log.n ≥ NLOG) || decide ((log.n : Int) ≥ log.size - 1)

/-- The search of `logged_write`: an already listed block is absorbed. -/
def absorb (log : Fslog) (blockno : Nat) : Fslog :=
  if blockno ∈ log.block then log else { log with block := log.block ++ [blockno] }

@[simp] theorem absorb_start (log : Fslog) (blockno : Nat) : (log.absorb blockno).start = log.start := by
  unfold absorb; split <;> rfl

@[simp] theorem absorb_size (log : Fslog) (blockno : Nat) : (log.absorb blockno).size = log.size := by
  unfold absorb; split <;> rfl

@[simp] theorem absorb_outstanding (log : Fslog) (blockno : Nat) :
    (log.absorb blockno).outstanding = log.outstanding := by
  unfold absorb; split <;> rfl

@[simp] theorem absorb_committing (log : Fslog) (blockno : Nat) : (log.absorb blockno).committing = log.committing := by
  unfold absorb; split <;> rfl

theorem mem_absorb (log : Fslog) (blockno block : Nat) :
    block ∈ (log.absorb blockno).block ↔ block ∈ log.block ∨ block = blockno := by
  unfold absorb
  split
  next listed => exact ⟨.inl, fun either => either.elim id fun same => same ▸ listed⟩
  next => simp

theorem absorb_nodup {log : Fslog} (distinct : log.block.Nodup) (blockno : Nat) : (log.absorb blockno).block.Nodup := by
  unfold absorb
  split
  next => exact distinct
  next absent =>
    refine List.nodup_append.mpr ⟨distinct, by simp, ?_⟩
    rintro block inside other single rfl
    exact absent (List.mem_singleton.mp single ▸ inside)

theorem absorb_n_le (log : Fslog) (blockno : Nat) : log.n ≤ (log.absorb blockno).n ∧ (log.absorb blockno).n ≤ log.n + 1 := by
  unfold absorb n
  split <;> simp

/-- The log has room for one more block besides its header. -/
theorem room_of_not_tooBig {logstart nlog : Nat} {log : Fslog} (size : log.size = (init logstart nlog).size)
    (room : log.tooBig = false) : log.n < NLOG ∧ log.n + 1 < nlog := by
  simp only [tooBig, Bool.or_eq_false_iff, decide_eq_false_iff_not, ge_iff_le, Nat.not_le, Int.not_le] at room
  refine ⟨room.1, ?_⟩
  have bounded : (BitVec.ofNat 32 nlog).toInt ≤ nlog := by
    rw [BitVec.toInt_eq_toNat_cond, BitVec.toNat_ofNat]
    have := Nat.mod_le nlog (2 ^ 32)
    split <;> omega
  have equal : log.size = (BitVec.ofNat 32 nlog).toInt := size
  omega

end Fslog
end Myfuse
