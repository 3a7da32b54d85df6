import Mathlib.Data.List.Perm.Basic
import Myfuse.ItableThreads
import Myfuse.Proofs.Balance

/-! The inode table under any order of the sections of `iget`, `idup` and `iput`: one
entry in use for a number, and as many references as were taken and not dropped. -/

namespace Myfuse
open Library Library.Exec

namespace ItableThreads
variable {Thread : Type} [DecidableEq Thread] {start state after : ItableThreads Thread} {β : Type} {thread : Thread} {ip inum : Nat}

/-- The pointers in use to an entry. -/
def references (state : ItableThreads Thread) (ip : Nat) : Nat := state.held.countP fun reference => reference.ip = ip

/-- What every section keeps. -/
structure Counted (state : ItableThreads Thread) : Prop where
  started : 0 < state.ninode
  inside : ∀ reference ∈ state.held, reference.ip < state.ninode
  names : ∀ reference ∈ state.held, (state.inode reference.ip).inum = reference.inum
  refs : ∀ ip < state.ninode, (state.inode ip).ref = state.references ip
  counts : ∀ ip, state.taken ip = state.dropped ip + state.references ip
  unique : ∀ ip < state.ninode, ∀ ip' < state.ninode, 0 < (state.inode ip).ref → 0 < (state.inode ip').ref →
    (state.inode ip).inum = (state.inode ip').inum → ip = ip'
  leaving : ∀ thread ip, state.phase thread = .waiting ip ∨ state.phase thread = .freeing ip ∨ state.phase thread = .dropping ip →
    ∃ inum, ⟨thread, ip, inum⟩ ∈ state.held

omit [DecidableEq Thread] in
theorem references_pos {reference : Reference Thread} (own : reference ∈ state.held) : 0 < state.references reference.ip :=
  List.countP_pos_iff.mpr ⟨reference, own, decide_eq_true rfl⟩

omit [DecidableEq Thread] in
theorem Counted.live (counted : state.Counted) {reference : Reference Thread} (own : reference ∈ state.held) : 0 < (state.inode reference.ip).ref := by
  rw [counted.refs _ (counted.inside reference own)]
  exact Int.natCast_pos.mpr (references_pos own)

omit [DecidableEq Thread] in
/-- Numbers, counts and pointers stay. -/
theorem Counted.of_same (counted : state.Counted) (ninode : after.ninode = state.ninode) (held : after.held = state.held)
    (taken : after.taken = state.taken) (dropped : after.dropped = state.dropped)
    (inodes : ∀ ip, (after.inode ip).inum = (state.inode ip).inum ∧ (after.inode ip).ref = (state.inode ip).ref)
    (leaving : ∀ thread ip, after.phase thread = .waiting ip ∨ after.phase thread = .freeing ip ∨ after.phase thread = .dropping ip →
      ∃ inum, ⟨thread, ip, inum⟩ ∈ state.held) : after.Counted where
  started := by rw [ninode]; exact counted.started
  inside := by rw [held, ninode]; exact counted.inside
  names := by
    rw [held]
    intro reference own
    rw [(inodes _).1]
    exact counted.names reference own
  refs ip := by
    rw [ninode, (inodes ip).2, references, held]
    exact counted.refs ip
  counts ip := by
    rw [taken, dropped, references, held]
    exact counted.counts ip
  unique ip inside ip' inside' := by
    rw [(inodes ip).1, (inodes ip).2, (inodes ip').1, (inodes ip').2]
    exact counted.unique ip (ninode ▸ inside) ip' (ninode ▸ inside')
  leaving := by rw [held]; exact leaving

/-- The phase of one thread changes. -/
theorem leaving_assign (counted : state.Counted) {phase : ItablePhase}
    (own : ∀ ip, phase = .waiting ip ∨ phase = .freeing ip ∨ phase = .dropping ip → ∃ inum, ⟨thread, ip, inum⟩ ∈ state.held) (other : Thread) (ip : Nat)
    (leaves : assign state.phase thread phase other = .waiting ip ∨ assign state.phase thread phase other = .freeing ip ∨
      assign state.phase thread phase other = .dropping ip) : ∃ inum, ⟨other, ip, inum⟩ ∈ state.held := by
  by_cases here : other = thread
  · subst here
    rw [assign_self] at leaves
    exact own ip leaves
  · rw [assign_of_ne here] at leaves
    exact counted.leaving other ip leaves

omit [DecidableEq Thread] in
/-- A field that the new entry has as the old one. -/
theorem assign_field (field : TableInode Thread → β) (state : ItableThreads Thread) (ip : Nat) {inode : TableInode Thread}
    (same : field inode = field (state.inode ip)) (other : Nat) : field (assign state.inode ip inode other) = field (state.inode other) := by
  by_cases here : other = ip
  · rw [here, assign_self, same]
  · rw [assign_of_ne here]

theorem give_inode (inode : TableInode Thread) : (state.give thread ip inode).inode ip = inode := assign_self _ _ _

theorem give_other (inode : TableInode Thread) {other : Nat} (apart : other ≠ ip) :
    (state.give thread ip inode).inode other = state.inode other := assign_of_ne apart _ _

theorem references_give (inode : TableInode Thread) (other : Nat) :
    (state.give thread ip inode).references other = state.references other + if ip = other then 1 else 0 := by
  show (⟨thread, ip, inode.inum⟩ :: state.held).countP _ = _
  rw [List.countP_cons]
  simp only [decide_eq_true_eq]
  rfl

/-- A reference to an entry in use, or to an empty one that no entry in use has the number of. -/
theorem Counted.give (counted : state.Counted) {inode : TableInode Thread} (inside : ip < state.ninode) (ref : inode.ref = (state.inode ip).ref + 1)
    (number : inode.inum = (state.inode ip).inum ∧ 0 < (state.inode ip).ref ∨
      (state.inode ip).ref = 0 ∧ ∀ other < state.ninode, 0 < (state.inode other).ref → (state.inode other).inum ≠ inode.inum) :
    (state.give thread ip inode).Counted where
  started := counted.started
  inside reference own := by
    rcases List.mem_cons.mp own with rfl | own
    · exact inside
    · exact counted.inside reference own
  names reference own := by
    rcases List.mem_cons.mp own with rfl | own
    · rw [give_inode]
    · by_cases here : reference.ip = ip
      · have used := counted.live own
        rw [here] at used
        rcases number with ⟨same, -⟩ | ⟨unused, -⟩
        · rw [here, give_inode, same, ← counted.names reference own, here]
        · omega
      · rw [give_other _ here]
        exact counted.names reference own
  refs other within := by
    rw [references_give]
    by_cases here : ip = other
    · rw [← here, give_inode, ref, counted.refs ip inside, if_pos rfl]
      rfl
    · rw [give_other _ (Ne.symm here), if_neg here]
      exact counted.refs other within
  counts other := by
    rw [references_give]
    show assign state.taken ip (state.taken ip + 1) other = state.dropped other + _
    have before := counted.counts other
    rw [assign_apply]
    by_cases here : other = ip
    · rw [if_pos here, if_pos here.symm, ← here]
      omega
    · rw [if_neg here, if_neg (Ne.symm here)]
      exact before
  unique first within second within' := by
    have apart : ∀ other < state.ninode, other ≠ ip → 0 < (state.inode other).ref → (state.inode other).inum ≠ inode.inum := by
      intro other low away used same
      rcases number with ⟨own, pos⟩ | ⟨-, absent⟩
      · exact away (counted.unique other low ip inside used pos (same.trans own))
      · exact absent other low used same
    by_cases here : first = ip
    · by_cases there : second = ip
      · exact fun _ _ _ => here.trans there.symm
      · rw [here, give_inode, give_other _ there]
        exact fun _ used same => absurd same.symm (apart second within' there used)
    · rw [give_other _ here]
      by_cases there : second = ip
      · rw [there, give_inode]
        exact fun used _ same => absurd same (apart first within here used)
      · rw [give_other _ there]
        exact counted.unique first within second within'
  leaving other place leaves := by
    obtain ⟨number, own⟩ := leaving_assign counted (by simp) other place leaves
    exact ⟨number, List.mem_cons_of_mem _ own⟩

omit [DecidableEq Thread] in
theorem grow_inode (inside : ip < state.ninode) : state.grow.inode ip = state.inode ip := if_neg fun both => absurd inside (Nat.not_lt.mpr both.1)

omit [DecidableEq Thread] in
theorem grow_new (past : state.ninode ≤ ip) (inside : ip < state.ninode * 2) : (state.grow.inode ip).ref = 0 := by
  show (if _ then _ else _ : TableInode Thread).ref = 0
  rw [if_pos ⟨past, inside⟩]

omit [DecidableEq Thread] in
theorem Counted.grow (counted : state.Counted) : state.grow.Counted where
  started := Nat.mul_pos counted.started (by decide)
  inside reference own := by
    have inside := counted.inside reference own
    show reference.ip < state.ninode * 2
    omega
  names reference own := by
    rw [grow_inode (counted.inside reference own)]
    exact counted.names reference own
  refs ip inside := by
    by_cases old : ip < state.ninode
    · rw [grow_inode old]
      exact counted.refs ip old
    · rw [grow_new (Nat.not_lt.mp old) inside]
      have none : state.references ip = 0 := List.countP_eq_zero.mpr fun reference own here => by
        have here : reference.ip = ip := of_decide_eq_true here
        exact old (here ▸ counted.inside reference own)
      exact (congrArg Int.ofNat none).symm
  counts := counted.counts
  unique first within second within' := by
    have old : ∀ ip < state.grow.ninode, 0 < (state.grow.inode ip).ref → ip < state.ninode := fun ip inside used => by
      by_contra new
      rw [grow_new (Nat.not_lt.mp new) inside] at used
      omega
    intro used used' same
    have low := old first within used
    have low' := old second within' used'
    rw [grow_inode low] at used same
    rw [grow_inode low'] at used' same
    exact counted.unique first low second low' used used' same
  leaving := counted.leaving

theorem references_erase {reference : Reference Thread} (own : reference ∈ state.held) (other : Nat) :
    state.references other = (state.held.erase reference).countP (fun reference => reference.ip = other) + if reference.ip = other then 1 else 0 := by
  rw [references, (List.perm_cons_erase own).countP_eq, List.countP_cons]
  simp only [decide_eq_true_eq]

/-- What one thread gives up, another one in a function still has. -/
theorem Counted.keeps_leaving (counted : state.Counted) {reference : Reference Thread} {other : Thread} (apart : other ≠ reference.holder)
    (leaves : state.phase other = .waiting ip ∨ state.phase other = .freeing ip ∨ state.phase other = .dropping ip) :
    ∃ inum, ⟨other, ip, inum⟩ ∈ state.held.erase reference := by
  obtain ⟨number, own⟩ := counted.leaving other ip leaves
  exact ⟨number, (List.mem_erase_of_ne fun same => apart (congrArg Reference.holder same)).mpr own⟩

theorem drop_inode : (state.drop thread ip).inode ip = { state.inode ip with ref := (state.inode ip).ref - 1 } := assign_self _ _ _

theorem drop_other {other : Nat} (apart : other ≠ ip) : (state.drop thread ip).inode other = state.inode other := assign_of_ne apart _ _

theorem drop_inum (other : Nat) : ((state.drop thread ip).inode other).inum = (state.inode other).inum := assign_field (·.inum) state ip (by rfl) other

theorem drop_ref_le (other : Nat) : ((state.drop thread ip).inode other).ref ≤ (state.inode other).ref := by
  by_cases here : other = ip
  · rw [here, drop_inode]
    exact Int.sub_le_self _ (by decide)
  · rw [drop_other here]

/-- A reference that the thread has is dropped. -/
theorem Counted.drop (counted : state.Counted) (own : ⟨thread, ip, inum⟩ ∈ state.held) : (state.drop thread ip).Counted := by
  have mine : ⟨thread, ip, (state.inode ip).inum⟩ ∈ state.held := by
    rw [counted.names _ own]
    exact own
  have kept : ∀ reference ∈ (state.drop thread ip).held, reference ∈ state.held := fun reference => List.mem_of_mem_erase
  have split := references_erase mine
  refine
    { started := counted.started, inside := fun reference own => counted.inside reference (kept reference own), names := ?_, refs := ?_,
      counts := ?_, unique := ?_, leaving := ?_ }
  · intro reference own
    rw [drop_inum]
    exact counted.names reference (kept reference own)
  · intro other inside
    have before := (counted.refs other inside).trans (congrArg Int.ofNat (split other))
    show ((state.drop thread ip).inode other).ref = ((state.held.erase ⟨thread, ip, (state.inode ip).inum⟩).countP _ : Nat)
    by_cases here : ip = other
    · subst here
      rw [if_pos rfl] at before
      rw [drop_inode]
      exact (congrArg (· - 1) before).trans (Int.add_sub_cancel (Int.ofNat _) 1)
    · rw [if_neg here] at before
      rw [drop_other (Ne.symm here)]
      exact before
  · intro other
    have before := (counted.counts other).trans (congrArg (state.dropped other + ·) (split other))
    show state.taken other = assign state.dropped ip (state.dropped ip + 1) other +
      (state.held.erase ⟨thread, ip, (state.inode ip).inum⟩).countP (fun reference => reference.ip = other)
    rw [before, assign_apply]
    by_cases here : other = ip
    · rw [if_pos here, if_pos here.symm, here]
      omega
    · rw [if_neg here, if_neg (Ne.symm here)]
      rfl
  · intro first within second within' used used'
    rw [drop_inum, drop_inum]
    exact counted.unique first within second within' (used.trans_le (drop_ref_le first)) (used'.trans_le (drop_ref_le second))
  · intro other place leaves
    change assign state.phase thread .idle other = _ ∨ assign state.phase thread .idle other = _ ∨ assign state.phase thread .idle other = _ at leaves
    by_cases here : other = thread
    · rw [here, assign_self] at leaves
      simp at leaves
    · rw [assign_of_ne here] at leaves
      exact counted.keeps_leaving here leaves

/-- A pointer goes from one thread to another. -/
theorem Counted.pass (counted : state.Counted) {reference : Reference Thread} (own : reference ∈ state.held)
    (idle : state.phase reference.holder = .idle) :
    ({ state with held := { reference with holder := thread } :: state.held.erase reference } : ItableThreads Thread).Counted := by
  have kept : ∀ other ∈ { reference with holder := thread } :: state.held.erase reference,
      ∃ before ∈ state.held, before.ip = other.ip ∧ before.inum = other.inum := by
    intro other there
    rcases List.mem_cons.mp there with rfl | there
    · exact ⟨reference, own, rfl, rfl⟩
    · exact ⟨other, List.mem_of_mem_erase there, rfl, rfl⟩
  have same : ∀ other, ({ reference with holder := thread } :: state.held.erase reference).countP (fun reference => reference.ip = other) =
      state.references other := by
    intro other
    rw [references_erase own, List.countP_cons]
    simp only [decide_eq_true_eq]
  refine
    { started := counted.started, inside := ?_, names := ?_, refs := fun other inside => (counted.refs other inside).trans ?_,
      counts := fun other => (counted.counts other).trans ?_, unique := counted.unique, leaving := ?_ }
  · intro other there
    obtain ⟨before, old, place, -⟩ := kept other there
    exact place ▸ counted.inside before old
  · intro other there
    obtain ⟨before, old, place, number⟩ := kept other there
    rw [← place, ← number]
    exact counted.names before old
  · exact congrArg Int.ofNat (same other).symm
  · exact congrArg (state.dropped other + ·) (same other).symm
  · intro other place leaves
    have apart : other ≠ reference.holder := by
      rintro rfl
      change state.phase reference.holder = _ ∨ _ at leaves
      rw [idle] at leaves
      simp at leaves
    obtain ⟨number, there⟩ := counted.keeps_leaving apart leaves
    exact ⟨number, List.mem_cons_of_mem _ there⟩

/-- What `iget` has come to once it returns: the pointer is the thread's, and the entry
has the number. An entry in use that had it is the one returned, as it was. -/
structure Got (thread : Thread) (inum : Nat) (state after : ItableThreads Thread) : Prop where
  returned : after.phase thread = .idle
  size : after.ninode = state.ninode
  pointer : ∃ ip < state.ninode, after.held = ⟨thread, ip, inum⟩ :: state.held ∧ after.taken = assign state.taken ip (state.taken ip + 1) ∧
    after.dropped = state.dropped ∧ (after.inode ip).inum = inum ∧ (after.inode ip).ref = (state.inode ip).ref + 1 ∧
    (0 < (state.inode ip).ref → after.inode ip = { state.inode ip with ref := (state.inode ip).ref + 1 }) ∧
    ∀ other, other ≠ ip → after.inode other = state.inode other ∧ ((state.inode other).inum = inum → other < state.ninode → (state.inode other).ref ≤ 0)

/-- No entry is in use with the number, and none is free. -/
def Full (state : ItableThreads Thread) (inum : Nat) : Prop :=
  (∀ ip < state.ninode, (state.inode ip).inum = inum → ¬ 0 < (state.inode ip).ref) ∧ ∀ ip < state.ninode, (state.inode ip).ref ≠ 0

/-- The three ways a search ends. -/
theorem search_cases (state : ItableThreads Thread) (thread : Thread) (inum : Nat) :
    (∃ ip < state.ninode, (state.inode ip).inum = inum ∧ 0 < (state.inode ip).ref ∧
      state.search thread inum = state.give thread ip { state.inode ip with ref := (state.inode ip).ref + 1 }) ∨
    (∃ ip < state.ninode, (state.inode ip).ref = 0 ∧ (∀ other < state.ninode, 0 < (state.inode other).ref → (state.inode other).inum ≠ inum) ∧
      state.search thread inum = state.give thread ip { state.inode ip with inum, ref := 1, valid := false }) ∨
    state.Full inum ∧ state.search thread inum = state.grow := by
  unfold search
  cases found : (List.range state.ninode).find? fun ip => (state.inode ip).inum = inum ∧ 0 < (state.inode ip).ref with
  | some ip =>
    have here : (state.inode ip).inum = inum ∧ 0 < (state.inode ip).ref := by simpa using List.find?_some found
    exact .inl ⟨ip, List.mem_range.mp (List.mem_of_find?_eq_some found), here.1, here.2, rfl⟩
  | none =>
    have absent : ∀ other < state.ninode, 0 < (state.inode other).ref → (state.inode other).inum ≠ inum := fun other inside used same =>
      List.find?_eq_none.mp found other (List.mem_range.mpr inside) (decide_eq_true ⟨same, used⟩)
    refine .inr ?_
    cases victim : (List.range state.ninode).find? fun ip => (state.inode ip).ref = 0 with
    | some ip =>
      have unused : (state.inode ip).ref = 0 := by simpa using List.find?_some victim
      exact .inl ⟨ip, List.mem_range.mp (List.mem_of_find?_eq_some victim), unused, absent, rfl⟩
    | none =>
      have used : ∀ ip < state.ninode, (state.inode ip).ref ≠ 0 := fun ip inside unused =>
        List.find?_eq_none.mp victim ip (List.mem_range.mpr inside) (decide_eq_true unused)
      exact .inr ⟨⟨fun ip inside same used => absent ip inside used same, used⟩, rfl⟩

theorem Counted.search (counted : state.Counted) (thread : Thread) (inum : Nat) : (state.search thread inum).Counted := by
  rcases search_cases state thread inum with ⟨ip, inside, same, used, eq⟩ | ⟨ip, inside, unused, absent, eq⟩ | ⟨-, eq⟩
  · rw [eq]
    exact counted.give inside rfl (.inl ⟨rfl, used⟩)
  · rw [eq]
    exact counted.give inside (by rw [unused]; rfl) (.inr ⟨unused, absent⟩)
  · rw [eq]
    exact counted.grow

/-- A search that does not grow the table returns the entry. -/
theorem Counted.search_got (counted : state.Counted) (thread : Thread) (inum : Nat) :
    Got thread inum state (state.search thread inum) ∨ state.Full inum ∧ state.search thread inum = state.grow := by
  rcases search_cases state thread inum with ⟨ip, inside, same, used, eq⟩ | ⟨ip, inside, unused, absent, eq⟩ | full
  · rw [eq]
    have others : ∀ other, other ≠ ip → (state.inode other).inum = inum → other < state.ninode → (state.inode other).ref ≤ 0 :=
      fun other apart number within => not_lt.mp fun live => apart (counted.unique other within ip inside live used (number.trans same.symm))
    refine .inl ⟨assign_self _ _ _, rfl, ip, inside, ?_, rfl, rfl, ?_, ?_, fun _ => give_inode _, fun other apart => ⟨give_other _ apart, others other apart⟩⟩
    · show _ :: state.held = _
      rw [same]
    · rw [give_inode]
      exact same
    · rw [give_inode]
  · rw [eq]
    refine .inl ⟨assign_self _ _ _, rfl, ip, inside, rfl, rfl, rfl, ?_, ?_, fun used => ?_, fun other apart =>
      ⟨give_other _ apart, fun number within => not_lt.mp fun live => absent other within live number⟩⟩
    · rw [give_inode]
    · rw [give_inode, unused]
      rfl
    · omega
  · exact .inr full

omit [DecidableEq Thread] in
theorem grow_not_full (started : 0 < state.ninode) : ¬ state.grow.Full inum := fun full =>
  full.2 state.ninode (by show state.ninode < state.ninode * 2; omega) (grow_new (Nat.le_refl _) (by omega))

theorem Counted.advance (counted : state.Counted) (stepped : state.advance thread (state.phase thread) = some after) : after.Counted := by
  have entered {phase : ItablePhase} (own : ∀ ip, phase = .waiting ip ∨ phase = .freeing ip ∨ phase = .dropping ip → ∃ inum, ⟨thread, ip, inum⟩ ∈ state.held) :=
    leaving_assign counted own
  have same (ip : Nat) (owner : Option Thread) (valid : Bool) (other : Nat) :
      (assign state.inode ip { state.inode ip with owner, valid } other).inum = (state.inode other).inum ∧
      (assign state.inode ip { state.inode ip with owner, valid } other).ref = (state.inode other).ref :=
    ⟨assign_field (·.inum) state ip (by rfl) other, assign_field (·.ref) state ip (by rfl) other⟩
  have leaving := counted.leaving thread
  cases phase : state.phase thread with
  | idle =>
    rw [phase] at stepped
    cases stepped
  | getting inum =>
    rw [phase] at stepped
    simp only [ItableThreads.advance, Option.ite_none_right_eq_some, Option.some.injEq] at stepped
    exact stepped.2 ▸ counted.search thread inum
  | waiting ip =>
    rw [phase] at stepped
    simp only [ItableThreads.advance, Option.ite_none_right_eq_some, Option.some.injEq] at stepped
    rw [← stepped.2]
    refine counted.of_same rfl rfl rfl rfl (same ip (some thread) (state.inode ip).valid) (entered fun place leaves => ?_)
    have here : ip = place := by simpa using leaves
    exact here ▸ leaving ip (.inl phase)
  | freeing ip =>
    rw [phase] at stepped
    cases stepped
    refine counted.of_same rfl rfl rfl rfl (same ip none false) (entered fun place leaves => ?_)
    have here : ip = place := by simpa using leaves
    exact here ▸ leaving ip (.inr (.inl phase))
  | dropping ip =>
    rw [phase] at stepped
    simp only [ItableThreads.advance, Option.ite_none_right_eq_some, Option.some.injEq] at stepped
    obtain ⟨inum, own⟩ := leaving ip (.inr (.inr phase))
    exact stepped.2 ▸ counted.drop own

/-- One event of a thread that uses the pointers it holds. -/
theorem Counted.step (counted : state.Counted) {event : ItableEvent Thread} (holds : state.Holds event) (stepped : state.step event = some after) :
    after.Counted := by
  cases event with
  | iget thread inum =>
    simp only [ItableThreads.step, Option.ite_none_right_eq_some, Option.some.injEq] at stepped
    exact stepped.2 ▸ counted.of_same rfl rfl rfl rfl (fun _ => ⟨rfl, rfl⟩) (leaving_assign counted (by simp))
  | idup thread ip =>
    simp only [ItableThreads.step, Option.ite_none_right_eq_some, Option.some.injEq] at stepped
    obtain ⟨inum, own⟩ := holds
    exact stepped.2 ▸ counted.give (counted.inside _ own) rfl (.inl ⟨rfl, counted.live own⟩)
  | iput thread ip =>
    simp only [ItableThreads.step, Option.ite_none_right_eq_some] at stepped
    obtain ⟨-, stepped⟩ := stepped
    obtain ⟨inum, own⟩ := holds
    split at stepped
    · cases stepped
      refine counted.of_same rfl rfl rfl rfl (fun _ => ⟨rfl, rfl⟩) (leaving_assign counted fun place leaves => ?_)
      have here : ip = place := by simpa using leaves
      exact here ▸ ⟨inum, own⟩
    · cases stepped
      exact counted.drop own
  | next thread => exact counted.advance stepped
  | pass reference thread =>
    simp only [ItableThreads.step, Option.ite_none_right_eq_some, Option.some.injEq] at stepped
    exact stepped.2 ▸ counted.pass holds stepped.1
  | change ip owner valid copy =>
    cases stepped
    exact counted.of_same rfl rfl rfl rfl (fun other => ⟨assign_field (·.inum) state ip (by rfl) other, assign_field (·.ref) state ip (by rfl) other⟩) counted.leaving

/-- No search gives an entry in use to another number. -/
theorem search_inum (inside : ip < state.ninode) (used : 0 < (state.inode ip).ref) :
    ((state.search thread inum).inode ip).inum = (state.inode ip).inum := by
  rcases search_cases state thread inum with ⟨found, -, -, -, eq⟩ | ⟨victim, -, unused, -, eq⟩ | ⟨-, eq⟩
  · rw [eq]
    exact assign_field (·.inum) state found (by rfl) ip
  · have apart : ip ≠ victim := fun same => by
      rw [same, unused] at used
      exact absurd used (lt_irrefl 0)
    rw [eq, give_other _ apart]
  · rw [eq, grow_inode inside]

/-- An entry in use keeps its number in every step. -/
theorem step_inum {event : ItableEvent Thread} (inside : ip < state.ninode) (used : 0 < (state.inode ip).ref) (stepped : state.step event = some after) :
    (after.inode ip).inum = (state.inode ip).inum := by
  cases event with
  | iget thread inum =>
    simp only [ItableThreads.step, Option.ite_none_right_eq_some, Option.some.injEq] at stepped
    exact stepped.2 ▸ rfl
  | idup thread other =>
    simp only [ItableThreads.step, Option.ite_none_right_eq_some, Option.some.injEq] at stepped
    exact stepped.2 ▸ assign_field (·.inum) state other (by rfl) ip
  | iput thread other =>
    simp only [ItableThreads.step, Option.ite_none_right_eq_some] at stepped
    obtain ⟨-, stepped⟩ := stepped
    split at stepped
    · cases stepped
      rfl
    · cases stepped
      exact drop_inum ip
  | next thread =>
    change state.advance thread (state.phase thread) = some after at stepped
    cases phase : state.phase thread with
    | idle =>
      rw [phase] at stepped
      cases stepped
    | getting inum =>
      rw [phase] at stepped
      simp only [ItableThreads.advance, Option.ite_none_right_eq_some, Option.some.injEq] at stepped
      exact stepped.2 ▸ search_inum inside used
    | waiting other =>
      rw [phase] at stepped
      simp only [ItableThreads.advance, Option.ite_none_right_eq_some, Option.some.injEq] at stepped
      exact stepped.2 ▸ assign_field (·.inum) state other (by rfl) ip
    | freeing other =>
      rw [phase] at stepped
      cases stepped
      exact assign_field (·.inum) state other (by rfl) ip
    | dropping other =>
      rw [phase] at stepped
      simp only [ItableThreads.advance, Option.ite_none_right_eq_some, Option.some.injEq] at stepped
      exact stepped.2 ▸ drop_inum ip
  | pass reference thread =>
    simp only [ItableThreads.step, Option.ite_none_right_eq_some, Option.some.injEq] at stepped
    exact stepped.2 ▸ rfl
  | change other owner valid copy =>
    cases stepped
    exact assign_field (·.inum) state other (by rfl) ip

omit [DecidableEq Thread] in
theorem Initial.counted (initial : start.Initial) : start.Counted := by
  have none : ∀ ip, start.references ip = 0 := fun ip => by rw [references, initial.held, List.countP_nil]
  refine
    { started := initial.started, inside := ?_, names := ?_, refs := fun ip _ => ?_, counts := fun ip => ?_, unique := ?_, leaving := ?_ }
  · rw [initial.held]
    exact fun _ own => absurd own List.not_mem_nil
  · rw [initial.held]
    exact fun _ own => absurd own List.not_mem_nil
  · rw [initial.unused, none]
    rfl
  · rw [none, (initial.counts ip).1, (initial.counts ip).2]
  · intro ip _ ip' _ used
    rw [initial.unused] at used
    exact absurd used (lt_irrefl 0)
  · intro thread ip leaves
    rw [initial.idle] at leaves
    simp at leaves

theorem Runs.counted (initial : start.Initial) (runs : start.Runs state) : state.Counted := by
  induction runs with
  | nil => exact initial.counted
  | step _ holds stepped ih => exact ih.step holds stepped

/-- `iget` goes on without a step of another thread in between: it returns, or it grows
the table and returns then. -/
def Returns (state : ItableThreads Thread) (thread : Thread) (inum : Nat) : Prop :=
  ∃ after, state.step (.next thread) = some after ∧
    (Got thread inum state after ∨ after = state.grow ∧ ∃ last, after.step (.next thread) = some last ∧ Got thread inum after last)

theorem next_getting (phase : state.phase thread = .getting inum) (free : state.lock = none) :
    state.step (.next thread) = some (state.search thread inum) := by
  show state.advance thread (state.phase thread) = _
  rw [phase]
  exact if_pos free

theorem Counted.returns (counted : state.Counted) (phase : state.phase thread = .getting inum) (free : state.lock = none) : state.Returns thread inum := by
  refine ⟨_, next_getting phase free, ?_⟩
  rcases counted.search_got thread inum with got | ⟨-, grown⟩
  · exact .inl got
  · rw [grown]
    refine .inr ⟨rfl, _, next_getting phase free, ?_⟩
    rcases counted.grow.search_got thread inum with got | ⟨full, -⟩
    · exact got
    · exact absurd full (grow_not_full counted.started)

/-- At any point: a number has one entry in use, its count is what was taken and not
dropped, every pointer leads to the entry of its number, which keeps it, and `iget` returns. -/
theorem itable_counts (initial : start.Initial) (runs : start.Runs state) :
    (∀ ip < state.ninode, ∀ ip' < state.ninode, 0 < (state.inode ip).ref → 0 < (state.inode ip').ref →
      (state.inode ip).inum = (state.inode ip').inum → ip = ip') ∧
    (∀ ip < state.ninode, (state.inode ip).ref = (state.taken ip : Int) - state.dropped ip) ∧
    (∀ reference ∈ state.held, reference.ip < state.ninode ∧ (state.inode reference.ip).inum = reference.inum ∧ 0 < (state.inode reference.ip).ref) ∧
    (∀ event after, state.Holds event → state.step event = some after → ∀ ip < state.ninode, 0 < (state.inode ip).ref →
      (after.inode ip).inum = (state.inode ip).inum) ∧
    ∀ thread inum, state.phase thread = .getting inum → state.lock = none → state.Returns thread inum := by
  have counted := runs.counted initial
  refine ⟨counted.unique, fun ip inside => ?_, fun reference own => ⟨counted.inside _ own, counted.names _ own, counted.live own⟩,
    fun _ _ _ stepped ip inside used => step_inum inside used stepped, fun _ _ => counted.returns⟩
  have refs := counted.refs ip inside
  have counts := counted.counts ip
  omega

/-! A run with a table of one entry: it grows, and one inode is freed. -/

/-- `Holds`, as a test. -/
def holdsNow (state : ItableThreads Nat) : ItableEvent Nat → Bool
  | .idup thread ip | .iput thread ip => state.held.any fun reference => reference.holder = thread ∧ reference.ip = ip
  | .pass reference _ => reference ∈ state.held
  | _ => true

theorem holds_of_now {state : ItableThreads Nat} {event : ItableEvent Nat} (now : state.holdsNow event = true) : state.Holds event := by
  have own {thread ip : Nat} (any : (state.held.any fun reference => reference.holder = thread ∧ reference.ip = ip) = true) :
      ∃ inum, ⟨thread, ip, inum⟩ ∈ state.held := by
    obtain ⟨⟨holder, place, number⟩, member, same⟩ := List.any_eq_true.mp any
    obtain ⟨rfl, rfl⟩ := of_decide_eq_true same
    exact ⟨number, member⟩
  cases event with
  | idup thread ip => exact own now
  | iput thread ip => exact own now
  | pass reference thread =>
    have own : reference ∈ state.held := of_decide_eq_true now
    exact own
  | _ => trivial

def runHeld (state : ItableThreads Nat) (events : List (ItableEvent Nat)) : Option (ItableThreads Nat) :=
  events.foldlM (fun state event => if state.holdsNow event then state.step event else none) state

theorem runs_of_held {start : ItableThreads Nat} : ∀ {events : List (ItableEvent Nat)} {state after : ItableThreads Nat}, start.Runs state →
    state.runHeld events = some after → start.Runs after
  | [], _, _, run, done => by
    cases done
    exact run
  | event :: events, state, after, run, done => by
    unfold runHeld at done
    rw [List.foldlM_cons] at done
    obtain ⟨middle, stepped, rest⟩ := Option.bind_eq_some_iff.mp done
    split at stepped
    next checked => exact runs_of_held (.step run (holds_of_now checked) stepped) rest
    next => cases stepped

def oneEntry : ItableThreads Nat :=
  { inode := fun _ => ⟨0, 0, none, false, Dinode.zero⟩, ninode := 1, lock := none, phase := fun _ => .idle, held := [], taken := fun _ => 0,
    dropped := fun _ => 0 }

theorem oneEntry_initial : oneEntry.Initial := ⟨by decide, fun _ => rfl, rfl, fun _ => rfl, rfl, fun _ => ⟨rfl, rfl⟩⟩

/-- Inode 5 is freed while thread 1 waits to look it up again, after a growth for inode 6. -/
def grownAndFreed : List (ItableEvent Nat) :=
  [.iget 0 5, .next 0, .iget 1 6, .next 1, .next 1, .change 0 none true Dinode.zero, .iput 0 0, .next 0, .iget 1 5, .next 0, .next 0]

theorem itable_counts_grown : ∃ state : ItableThreads Nat, oneEntry.Runs state ∧ state.ninode = 2 ∧ state.held = [⟨1, 1, 6⟩] ∧
    (state.inode 1).ref = (state.taken 1 : Int) - state.dropped 1 ∧ state.Returns 1 5 := by
  have ran : (oneEntry.runHeld grownAndFreed).map (fun state => ((state.ninode, state.held), state.phase 1, state.lock)) =
      some ((2, [⟨1, 1, 6⟩]), .getting 5, none) := by decide +kernel
  obtain ⟨state, done, results⟩ := Option.map_eq_some_iff.mp ran
  obtain ⟨table, thread⟩ := Prod.mk.inj results
  obtain ⟨size, held⟩ := Prod.mk.inj table
  obtain ⟨phase, free⟩ := Prod.mk.inj thread
  have runs := runs_of_held .nil done
  have counts := itable_counts oneEntry_initial runs
  exact ⟨state, runs, size, held, counts.2.1 1 (by omega), counts.2.2.2.2 1 5 phase free⟩

/-! The sequential `iget` is one search, or two where the table grows. -/

/-- The same table, its locks apart. -/
structure Mirrors (state : ItableThreads Thread) (fs : FS) : Prop where
  size : state.ninode = fs.ninode
  inum : ∀ ip, (state.inode ip).inum = (fs.inode ip).inum
  ref : ∀ ip, (state.inode ip).ref = (fs.inode ip).ref
  valid : ∀ ip, (state.inode ip).valid = (fs.inode ip).valid
  copy : ∀ ip, (state.inode ip).copy = (fs.inode ip).copy

theorem Mirrors.give {fs : FS} (mirrors : state.Mirrors fs) {inode : TableInode Thread} {entry : Inode} (inum : inode.inum = entry.inum)
    (ref : inode.ref = entry.ref) (valid : inode.valid = entry.valid) (copy : inode.copy = entry.copy) :
    (state.give thread ip inode).Mirrors { fs with inode := assign fs.inode ip entry } := by
  have pointwise {β : Type} (field : TableInode Thread → β) (field' : Inode → β) (new : field inode = field' entry)
      (old : ∀ other, field (state.inode other) = field' (fs.inode other)) (other : Nat) :
      field ((state.give thread ip inode).inode other) = field' (assign fs.inode ip entry other) := by
    by_cases here : other = ip
    · rw [here, give_inode, assign_self, new]
    · rw [give_other _ here, assign_of_ne here, old]
  exact ⟨mirrors.size, pointwise (·.inum) (·.inum) inum mirrors.inum, pointwise (·.ref) (·.ref) ref mirrors.ref,
    pointwise (·.valid) (·.valid) valid mirrors.valid, pointwise (·.copy) (·.copy) copy mirrors.copy⟩

omit [DecidableEq Thread] in
theorem Mirrors.grow {fs : FS} (mirrors : state.Mirrors fs) : Ensures FS.itableGrow fs (fun _ after => state.grow.Mirrors after) fun _ _ => False := by
  have pointwise {β : Type} (field : TableInode Thread → β) (field' : Inode → β) (new : field ⟨0, 0, none, false, Dinode.zero⟩ = field' Inode.zero)
      (old : ∀ ip, field (state.inode ip) = field' (fs.inode ip)) (ip : Nat) :
      field (state.grow.inode ip) = field' (if fs.ninode ≤ ip ∧ ip < fs.ninode * 2 then Inode.zero else fs.inode ip) := by
    rw [← mirrors.size]
    show field (if _ then _ else _) = _
    by_cases here : state.ninode ≤ ip ∧ ip < state.ninode * 2
    · rw [if_pos here, if_pos here, new]
    · rw [if_neg here, if_neg here, old]
  exact (ensures_modify _).mpr ⟨congrArg (· * 2) mirrors.size, pointwise (·.inum) (·.inum) rfl mirrors.inum, pointwise (·.ref) (·.ref) rfl mirrors.ref,
    pointwise (·.valid) (·.valid) rfl mirrors.valid, pointwise (·.copy) (·.copy) rfl mirrors.copy⟩

/-- After `itable_grow` the first new entry is taken. -/
theorem search_grown (full : state.Full inum) (started : 0 < state.ninode) :
    state.grow.search thread inum = state.grow.give thread state.ninode { state.grow.inode state.ninode with inum, ref := 1, valid := false } := by
  have fresh : (state.grow.inode state.ninode).ref = 0 := grow_new (Nat.le_refl _) (by omega)
  have none : (List.range state.grow.ninode).find? (fun ip => (state.grow.inode ip).inum = inum ∧ 0 < (state.grow.inode ip).ref) = none := by
    refine List.find?_eq_none.mpr fun ip inside found => ?_
    have inside : ip < state.ninode * 2 := List.mem_range.mp inside
    obtain ⟨same, used⟩ := of_decide_eq_true found
    by_cases old : ip < state.ninode
    · rw [grow_inode old] at same used
      exact full.1 ip old same used
    · rw [grow_new (Nat.not_lt.mp old) inside] at used
      exact absurd used (lt_irrefl 0)
  have first : (List.range state.grow.ninode).find? (fun ip => (state.grow.inode ip).ref = 0) = some state.ninode := by
    refine List.find?_range_eq_some.mpr ⟨decide_eq_true fresh, List.mem_range.mpr ?_, fun ip below => ?_⟩
    · show state.ninode < state.ninode * 2
      omega
    · rw [grow_inode below, decide_eq_false (full.2 ip below)]
      rfl
  unfold ItableThreads.search
  rw [none, first]

/-- The pointer that `iget` returns is the one the thread gets. -/
theorem iget_searches {fs : FS} (mirrors : state.Mirrors fs) (started : 0 < fs.ninode) (thread : Thread) (inum : Nat) :
    Ensures (FS.iget inum) fs (fun ip fs' => ∃ after : ItableThreads Thread, after.Mirrors fs' ∧ after.held = ⟨thread, ip, inum⟩ :: state.held ∧
      (state.search thread inum = after ∨ state.search thread inum = state.grow ∧ state.grow.search thread inum = after)) fun _ _ => False := by
  have used : ((List.range state.ninode).find? fun ip => (state.inode ip).inum = inum ∧ 0 < (state.inode ip).ref) =
      (List.range fs.ninode).find? fun ip => (fs.inode ip).inum = inum ∧ 0 < (fs.inode ip).ref := by
    simp only [← mirrors.inum, ← mirrors.ref, ← mirrors.size]
  have unused : ((List.range state.ninode).find? fun ip => (state.inode ip).ref = 0) =
      (List.range fs.ninode).find? fun ip => (fs.inode ip).ref = 0 := by
    simp only [← mirrors.ref, ← mirrors.size]
  unfold FS.iget
  refine ensures_bind.mpr (ensures_get.mpr ?_)
  split
  next ip found =>
    have same : (fs.inode ip).inum = inum ∧ 0 < (fs.inode ip).ref := by simpa using List.find?_some found
    have search : state.search thread inum = state.give thread ip { state.inode ip with ref := (state.inode ip).ref + 1 } := by
      simp only [ItableThreads.search, used, found]
    refine ensures_bind.mpr ((ensures_modify _).mpr ((ensures_pure _).mpr ?_))
    refine ⟨state.give thread ip { state.inode ip with ref := (state.inode ip).ref + 1 },
      mirrors.give (mirrors.inum ip) (congrArg (· + 1) (mirrors.ref ip)) (mirrors.valid ip) (mirrors.copy ip), ?_, .inl search⟩
    show _ :: state.held = _
    rw [mirrors.inum, same.1]
  next absent =>
    split
    next ip empty =>
      have search : state.search thread inum = state.give thread ip { state.inode ip with inum, ref := 1, valid := false } := by
        simp only [ItableThreads.search, used, absent, unused, empty]
      refine ensures_bind.mpr ((ensures_modify _).mpr ((ensures_pure _).mpr ?_))
      exact ⟨state.give thread ip { state.inode ip with inum, ref := 1, valid := false }, mirrors.give rfl rfl rfl (mirrors.copy ip), rfl, .inl search⟩
    next taken =>
      have search : state.search thread inum = state.grow := by
        simp only [ItableThreads.search, used, absent, unused, taken]
      have full : state.Full inum := by
        refine ⟨fun ip inside same live => ?_, fun ip inside empty => ?_⟩
        · rw [mirrors.size] at inside
          rw [mirrors.inum] at same
          rw [mirrors.ref] at live
          exact List.find?_eq_none.mp absent ip (List.mem_range.mpr inside) (decide_eq_true ⟨same, live⟩)
        · rw [mirrors.size] at inside
          rw [mirrors.ref] at empty
          exact List.find?_eq_none.mp taken ip (List.mem_range.mpr inside) (decide_eq_true empty)
      refine Ensures.bind mirrors.grow fun _ grown mirrors' => ?_
      refine ensures_bind.mpr ((ensures_modify _).mpr ((ensures_pure _).mpr ?_))
      refine ⟨state.grow.give thread fs.ninode { state.grow.inode fs.ninode with inum, ref := 1, valid := false },
        mirrors'.give rfl rfl rfl (mirrors'.copy fs.ninode), rfl, .inr ⟨search, ?_⟩⟩
      rw [← mirrors.size]
      exact search_grown full (mirrors.size ▸ started)

end ItableThreads
end Myfuse
