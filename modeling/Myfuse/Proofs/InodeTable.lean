import Myfuse.InodeThreads

/-! The inode table under any order of events: references are counted, one entry serves
an inode, locks are held by threads with a reference, and the lock guards the rest. -/

namespace Myfuse
open Library

namespace InodeThreads
variable {Thread : Type} [DecidableEq Thread]

/-- What a thread relies on where it stands. -/
def At (state : InodeThreads Thread) (thread : Thread) : InodePhase → Prop
  | .reading ip => (state.inode ip).owner = some thread
  | .truncating ip => (state.inode ip).owner = some thread ∧ (state.inode ip).ref = 1
  | .freeing ip => (state.inode ip).owner = some thread ∧ (state.inode ip).ref = 1
  | .invalidating ip => (state.inode ip).owner = some thread ∧ state.held.count (thread, ip) = 1
  | .dropping ip => (state.inode ip).owner ≠ some thread ∧ state.held.count (thread, ip) = 1
  | _ => True

structure Table (state : InodeThreads Thread) : Prop where
  unique : ∀ ip other, 0 < (state.inode ip).ref → 0 < (state.inode other).ref → (state.inode ip).inum = (state.inode other).inum → ip = other
  past : ∀ ip, state.ninode ≤ ip → (state.inode ip).ref = 0
  counted : ∀ ip, (state.inode ip).ref = (state.held.map Prod.snd).count ip
  owner : ∀ ip thread, (state.inode ip).owner = some thread → (thread, ip) ∈ state.held
  loaded : ∀ ip thread, (state.inode ip).owner = some thread → (state.inode ip).valid = true ∨ state.phase thread = .reading ip
  placed : ∀ thread, state.At thread (state.phase thread)

variable {state after : InodeThreads Thread} {thread : Thread} {ip inum : Nat}

theorem Table.ref_pos (table : state.Table) (own : (thread, ip) ∈ state.held) : 0 < (state.inode ip).ref := by
  have listed : ip ∈ state.held.map Prod.snd := List.mem_map_of_mem own
  have counted := List.count_pos_iff.mpr listed
  rw [table.counted]
  omega

theorem Table.unowned (table : state.Table) (unused : (state.inode ip).ref = 0) : (state.inode ip).owner = none := by
  cases owned : (state.inode ip).owner with
  | none => rfl
  | some thread =>
    have used := table.ref_pos (table.owner ip thread owned)
    omega

theorem Table.alone (table : state.Table) (single : (state.inode ip).ref = 1) {other : Thread} (own : (thread, ip) ∈ state.held)
    (also : (other, ip) ∈ state.held) : other = thread := by
  have listed : ∀ {part : List (Thread × Nat)}, (other, ip) ∈ part → 0 < (part.map Prod.snd).count ip := fun inside =>
    List.count_pos_iff.mpr (List.mem_map_of_mem inside)
  rw [table.counted] at single
  obtain ⟨before, rest, split⟩ := List.append_of_mem own
  rw [split, List.map_append, List.map_cons, List.count_append, List.count_cons_self] at single
  rw [split, List.mem_append, List.mem_cons] at also
  rcases also with here | same | here
  · have positive := listed here
    omega
  · exact congrArg Prod.fst same
  · have positive := listed here
    omega

/-- The last reference is one of its thread. -/
theorem Table.single (table : state.Table) (last : (state.inode ip).ref = 1) (own : (thread, ip) ∈ state.held) :
    state.held.count (thread, ip) = 1 := by
  have positive := List.count_pos_iff.mpr own
  have fewer : state.held.count (thread, ip) ≤ (state.held.map Prod.snd).count ip := List.count_le_count_map (f := Prod.snd)
  have counted := table.counted ip
  omega

/-- A thread that frees an inode is the only one to refer to it. -/
theorem Table.freeing_alone (table : state.Table) {other : Thread}
    (frees : state.phase thread = .truncating ip ∨ state.phase thread = .freeing ip) (also : (other, ip) ∈ state.held) : other = thread := by
  have placed := table.placed thread
  cases frees with
  | inl here =>
    rw [here] at placed
    exact table.alone placed.2 (table.owner ip thread placed.1) also
  | inr here =>
    rw [here] at placed
    exact table.alone placed.2 (table.owner ip thread placed.1) also

/-- A thread waits and works on one entry at a time, so that others may change elsewhere. -/
theorem At.other {phase : InodePhase} (placed : state.At thread phase)
    (owners : ∀ ip, (state.inode ip).owner = some thread → (after.inode ip).owner = some thread)
    (refs : ∀ ip, phase = .truncating ip ∨ phase = .freeing ip → (after.inode ip).ref = (state.inode ip).ref)
    (held : ∀ ip, after.held.count (thread, ip) = state.held.count (thread, ip))
    (not_owner : ∀ ip, (state.inode ip).owner ≠ some thread → (after.inode ip).owner ≠ some thread) : after.At thread phase := by
  cases phase with
  | reading ip => exact owners ip placed
  | truncating ip => exact ⟨owners ip placed.1, (refs ip (.inl rfl)).trans placed.2⟩
  | freeing ip => exact ⟨owners ip placed.1, (refs ip (.inr rfl)).trans placed.2⟩
  | invalidating ip => exact ⟨owners ip placed.1, (held ip).trans placed.2⟩
  | dropping ip => exact ⟨not_owner ip placed.1, (held ip).trans placed.2⟩
  | idle => trivial
  | scanning type inum => trivial
  | getting inum type => trivial

theorem enter_phase_self (phase : InodePhase) : (state.enter thread phase).phase thread = phase := assign_self _ _ _

theorem enter_phase_other {other : Thread} (apart : other ≠ thread) (phase : InodePhase) :
    (state.enter thread phase).phase other = state.phase other := assign_of_ne apart _ _

omit [DecidableEq Thread] in
theorem setInode_self (inode : TableInode Thread) : (state.setInode ip inode).inode ip = inode := assign_self _ _ _

omit [DecidableEq Thread] in
theorem setInode_other {other : Nat} (apart : other ≠ ip) (inode : TableInode Thread) : (state.setInode ip inode).inode other = state.inode other :=
  assign_of_ne apart _ _

/-- Events of one thread that leave numbers, references and owners as they are. -/
theorem Table.of_same (table : state.Table) (thread : Thread) (ninode : after.ninode = state.ninode) (held : after.held = state.held)
    (inodes : ∀ ip, (after.inode ip).inum = (state.inode ip).inum ∧ (after.inode ip).ref = (state.inode ip).ref ∧
      (after.inode ip).owner = (state.inode ip).owner)
    (valid : ∀ ip, (state.inode ip).valid = true → (after.inode ip).valid = true)
    (phases : ∀ other, other ≠ thread → after.phase other = state.phase other)
    (moved : ∀ ip, state.phase thread = .reading ip → after.phase thread = .reading ip ∨ (after.inode ip).valid = true)
    (placed : after.At thread (after.phase thread)) : after.Table where
  unique ip other := by
    rw [(inodes ip).1, (inodes ip).2.1, (inodes other).1, (inodes other).2.1]
    exact table.unique ip other
  past ip := by
    rw [ninode, (inodes ip).2.1]
    exact table.past ip
  counted ip := by
    rw [held, (inodes ip).2.1]
    exact table.counted ip
  owner ip other := by
    rw [held, (inodes ip).2.2]
    exact table.owner ip other
  loaded ip other owned := by
    rw [(inodes ip).2.2] at owned
    rcases table.loaded ip other owned with here | reading
    · exact .inl (valid ip here)
    · by_cases same : other = thread
      · subst same
        exact (moved ip reading).symm
      · rw [phases other same]
        exact .inr reading
  placed other := by
    by_cases same : other = thread
    · rw [same]
      exact placed
    · rw [phases other same]
      refine (table.placed other).other (fun ip owned => ?_) (fun ip _ => (inodes ip).2.1) (fun ip => ?_) fun ip owned => ?_
      · rw [(inodes ip).2.2]
        exact owned
      · rw [held]
      · rw [(inodes ip).2.2]
        exact owned

/-- A thread takes a lock, or gives up its own. -/
theorem Table.of_owner (table : state.Table) (ninode : after.ninode = state.ninode) (held : after.held = state.held)
    (here : (after.inode ip).inum = (state.inode ip).inum ∧ (after.inode ip).ref = (state.inode ip).ref)
    (elsewhere : ∀ other, other ≠ ip → after.inode other = state.inode other)
    (phases : ∀ other, other ≠ thread → after.phase other = state.phase other)
    (mine : ∀ other, other ≠ thread → (state.inode ip).owner ≠ some other ∧ (after.inode ip).owner ≠ some other)
    (own : (after.inode ip).owner = some thread → (thread, ip) ∈ state.held ∧ ((after.inode ip).valid = true ∨ after.phase thread = .reading ip))
    (moved : ∀ other, state.phase thread ≠ .reading other) (placed : after.At thread (after.phase thread)) : after.Table where
  unique := by
    have same : ∀ other, (after.inode other).inum = (state.inode other).inum ∧ (after.inode other).ref = (state.inode other).ref := by
      intro other
      by_cases this_one : other = ip
      · rw [this_one]
        exact here
      · rw [elsewhere other this_one]
        exact ⟨rfl, rfl⟩
    intro first second
    rw [(same first).1, (same first).2, (same second).1, (same second).2]
    exact table.unique first second
  past other := by
    rw [ninode]
    by_cases this_one : other = ip
    · rw [this_one, here.2]
      exact table.past ip
    · rw [elsewhere other this_one]
      exact table.past other
  counted other := by
    rw [held]
    by_cases this_one : other = ip
    · rw [this_one, here.2]
      exact table.counted ip
    · rw [elsewhere other this_one]
      exact table.counted other
  owner other holder owned := by
    rw [held]
    by_cases this_one : other = ip
    · subst this_one
      by_cases same : holder = thread
      · subst same
        exact (own owned).1
      · exact absurd owned (mine holder same).2
    · rw [elsewhere other this_one] at owned
      exact table.owner other holder owned
  loaded other holder owned := by
    by_cases this_one : other = ip
    · subst this_one
      by_cases same : holder = thread
      · subst same
        exact (own owned).2
      · exact absurd owned (mine holder same).2
    · rw [elsewhere other this_one] at owned ⊢
      rcases table.loaded other holder owned with valid | reading
      · exact .inl valid
      · have apart : holder ≠ thread := fun same => moved other (same ▸ reading)
        rw [phases holder apart]
        exact .inr reading
  placed other := by
    by_cases same : other = thread
    · rw [same]
      exact placed
    · rw [phases other same]
      refine (table.placed other).other (fun place owned => ?_) (fun place _ => ?_) (fun place => ?_) fun place owned => ?_
      · rw [elsewhere place fun this_one => (mine other same).1 (this_one ▸ owned)]
        exact owned
      · by_cases this_one : place = ip
        · rw [this_one]
          exact here.2
        · rw [elsewhere place this_one]
      · rw [held]
      · by_cases this_one : place = ip
        · rw [this_one]
          exact (mine other same).2
        · rw [elsewhere place this_one]
          exact owned

/-- A reference is dropped by a thread that keeps one if it holds the lock. -/
theorem Table.drop (table : state.Table) (own : (thread, ip) ∈ state.held)
    (phase : state.phase thread = .idle ∨ state.phase thread = .dropping ip)
    (keeps : (state.inode ip).owner = some thread → (thread, ip) ∈ state.held.erase (thread, ip)) : (state.drop thread ip).Table := by
  have elsewhere : ∀ other, other ≠ ip → (state.drop thread ip).inode other = state.inode other := fun other apart => assign_of_ne apart _ _
  have here : (state.drop thread ip).inode ip = { state.inode ip with ref := (state.inode ip).ref - 1 } := assign_self _ _ _
  have owners : ∀ other, ((state.drop thread ip).inode other).inum = (state.inode other).inum ∧
      ((state.drop thread ip).inode other).owner = (state.inode other).owner ∧ ((state.drop thread ip).inode other).valid = (state.inode other).valid ∧
      ((state.drop thread ip).inode other).ref ≤ (state.inode other).ref := by
    intro other
    by_cases this_one : other = ip
    · rw [this_one, here]
      exact ⟨rfl, rfl, rfl, by show _ - 1 ≤ _; omega⟩
    · rw [elsewhere other this_one]
      exact ⟨rfl, rfl, rfl, Int.le_refl _⟩
  have kept : ∀ holder place, holder ≠ thread → (state.held.erase (thread, ip)).count (holder, place) = state.held.count (holder, place) :=
    fun holder place apart => List.count_erase_of_ne fun same => apart (congrArg Prod.fst same)
  constructor
  case unique =>
    intro first second used also same
    rw [(owners first).1, (owners second).1] at same
    exact table.unique first second (lt_of_lt_of_le used (owners first).2.2.2) (lt_of_lt_of_le also (owners second).2.2.2) same
  case past =>
    intro other outside
    have apart : other ≠ ip := fun same => by
      have used := table.ref_pos own
      have unused := table.past other outside
      rw [same] at unused
      omega
    rw [elsewhere other apart]
    exact table.past other outside
  case counted =>
    intro other
    show _ = (((state.held.erase (thread, ip)).map Prod.snd).count other : Int)
    have permuted := ((List.perm_cons_erase own).map Prod.snd).count_eq other
    rw [List.map_cons, List.count_cons] at permuted
    have counted := table.counted other
    by_cases this_one : other = ip
    · subst this_one
      rw [here]
      simp only [beq_self_eq_true, if_true] at permuted
      show (state.inode other).ref - 1 = _
      omega
    · rw [elsewhere other this_one]
      have apart : ¬ ip = other := fun same => this_one same.symm
      simp only [beq_iff_eq, apart, if_false] at permuted
      omega
  case owner =>
    intro other holder owned
    rw [(owners other).2.1] at owned
    show (holder, other) ∈ state.held.erase (thread, ip)
    have inside := table.owner other holder owned
    by_cases same : (holder, other) = (thread, ip)
    · cases same
      exact keeps owned
    · exact (List.mem_erase_of_ne same).mpr inside
  case loaded =>
    intro other holder owned
    rw [(owners other).2.1] at owned
    rw [(owners other).2.2.1]
    rcases table.loaded other holder owned with valid | reading
    · exact .inl valid
    · refine .inr ?_
      have apart : holder ≠ thread := fun same => by
        rw [same] at reading
        cases phase with
        | inl idle => rw [idle] at reading; cases reading
        | inr dropping => rw [dropping] at reading; cases reading
      exact (enter_phase_other apart _).trans reading
  case placed =>
    intro other
    by_cases same : other = thread
    · have idle : (state.drop thread ip).phase other = .idle := by
        rw [same]
        exact enter_phase_self _
      rw [idle]
      trivial
    · have phase_same : (state.drop thread ip).phase other = state.phase other := enter_phase_other same _
      rw [phase_same]
      refine (table.placed other).other (fun place owned => ?_) (fun place putting => ?_) (fun place => kept other place same)
        fun place owned => ?_
      · rw [(owners place).2.1]
        exact owned
      · have apart : place ≠ ip := fun this_one => by
          subst this_one
          exact same (table.freeing_alone putting own).symm
        rw [elsewhere place apart]
      · rw [(owners place).2.1]
        exact owned

/-- One more reference to an entry with this number, or to an empty one that takes it. -/
theorem Table.gain (table : state.Table) {valid : Bool} (ninode : after.ninode = state.ninode) (held : after.held = (thread, ip) :: state.held)
    (here : after.inode ip = { state.inode ip with inum, ref := (state.inode ip).ref + 1, valid })
    (elsewhere : ∀ other, other ≠ ip → after.inode other = state.inode other) (inside : ip < state.ninode)
    (number : (state.inode ip).inum = inum ∧ valid = (state.inode ip).valid ∧ 0 < (state.inode ip).ref ∨
      (state.inode ip).ref = 0 ∧ ∀ other, 0 < (state.inode other).ref → (state.inode other).inum ≠ inum)
    (phases : ∀ other, other ≠ thread → after.phase other = state.phase other) (idle : after.phase thread = .idle)
    (outside : ∀ other, state.phase thread ≠ .reading other)
    (kept : ∀ other, ¬ (state.phase other = .truncating ip ∨ state.phase other = .freeing ip)) : after.Table := by
  have same_owner : ∀ other, (after.inode other).owner = (state.inode other).owner := by
    intro other
    by_cases this_one : other = ip
    · rw [this_one, here]
    · rw [elsewhere other this_one]
  constructor
  case unique =>
    have against : ∀ other, other ≠ ip → 0 < (state.inode other).ref → (state.inode other).inum ≠ inum := by
      intro other apart used same
      rcases number with ⟨found, -, pos⟩ | ⟨-, absent⟩
      · exact apart (table.unique other ip used pos (same.trans found.symm))
      · exact absent other used same
    intro first second used also same
    by_cases this_one : first = ip
    · by_cases that_one : second = ip
      · rw [this_one, that_one]
      · rw [elsewhere second that_one] at also same
        rw [this_one, here] at same
        exact absurd same.symm (against second that_one also)
    · rw [elsewhere first this_one] at used same
      by_cases that_one : second = ip
      · rw [that_one, here] at same
        exact absurd same (against first this_one used)
      · rw [elsewhere second that_one] at also same
        exact table.unique first second used also same
  case past =>
    intro other past
    rw [ninode] at past
    rw [elsewhere other (by omega)]
    exact table.past other past
  case counted =>
    intro other
    rw [held, List.map_cons, List.count_cons]
    have counted := table.counted other
    by_cases this_one : other = ip
    · subst this_one
      rw [here]
      simp only [beq_self_eq_true, if_true]
      omega
    · rw [elsewhere other this_one]
      have apart : ¬ ip = other := fun same => this_one same.symm
      simp only [beq_iff_eq, apart, if_false]
      omega
  case owner =>
    intro other holder owned
    rw [same_owner] at owned
    rw [held]
    exact List.mem_cons_of_mem _ (table.owner other holder owned)
  case loaded =>
    intro other holder owned
    rw [same_owner] at owned
    have before := table.loaded other holder owned
    have valid_kept : (state.inode other).valid = true → (after.inode other).valid = true := by
      intro valid_before
      by_cases this_one : other = ip
      · subst this_one
        rcases number with ⟨-, same, -⟩ | ⟨unused, -⟩
        · rw [here, same]
          exact valid_before
        · rw [table.unowned unused] at owned
          cases owned
      · rw [elsewhere other this_one]
        exact valid_before
    refine before.imp valid_kept fun reading => ?_
    have apart : holder ≠ thread := fun same => outside other (same ▸ reading)
    exact (phases holder apart).trans reading
  case placed =>
    intro other
    by_cases same : other = thread
    · rw [same, idle]
      trivial
    · rw [phases other same]
      refine (table.placed other).other (fun place owned => ?_) (fun place putting => ?_) (fun place => ?_) fun place owned => ?_
      · rw [same_owner]
        exact owned
      · rw [elsewhere place fun this_one => kept other (this_one ▸ putting)]
      · rw [held]
        exact List.count_cons_of_ne fun eq => same (congrArg Prod.fst eq).symm
      · rw [same_owner]
        exact owned

/-- `itable_grow` adds empty entries. -/
theorem Table.grow (table : state.Table) (held : after.held = state.held) (phases : after.phase = state.phase)
    (grown : state.ninode ≤ after.ninode)
    (inodes : ∀ ip, after.inode ip = state.inode ip ∨ state.ninode ≤ ip ∧ (after.inode ip).ref = 0 ∧ (after.inode ip).owner = none) :
    after.Table := by
  have used_before : ∀ ip, 0 < (after.inode ip).ref → after.inode ip = state.inode ip := fun ip used => by
    rcases inodes ip with same | ⟨-, unused, -⟩
    · exact same
    · omega
  have owned_before : ∀ ip thread, (after.inode ip).owner = some thread → after.inode ip = state.inode ip := fun ip thread owned => by
    rcases inodes ip with same | ⟨-, -, free⟩
    · exact same
    · rw [free] at owned
      cases owned
  constructor
  case unique =>
    intro first second used also same
    rw [used_before first used, used_before second also] at same
    exact table.unique first second (used_before first used ▸ used) (used_before second also ▸ also) same
  case past =>
    intro ip outside
    rcases inodes ip with same | ⟨-, unused, -⟩
    · rw [same]
      exact table.past ip (Nat.le_trans grown outside)
    · exact unused
  case counted =>
    intro ip
    rw [held, ← table.counted]
    rcases inodes ip with same | ⟨outside, unused, -⟩
    · rw [same]
    · rw [unused, table.past ip outside]
  case owner =>
    intro ip thread owned
    rw [owned_before ip thread owned] at owned
    rw [held]
    exact table.owner ip thread owned
  case loaded =>
    intro ip thread owned
    have same := owned_before ip thread owned
    rw [same] at owned ⊢
    rw [phases]
    exact table.loaded ip thread owned
  case placed =>
    intro thread
    rw [phases]
    have same : ∀ ip, (thread, ip) ∈ state.held → after.inode ip = state.inode ip := fun ip own => by
      rcases inodes ip with same | ⟨outside, -, -⟩
      · exact same
      · have used := table.ref_pos own
        have unused := table.past ip outside
        omega
    refine (table.placed thread).other (fun ip owned => ?_) (fun ip putting => ?_) (fun ip => ?_) fun ip free owned => ?_
    · rw [same ip (table.owner ip thread owned)]
      exact owned
    · have own : (thread, ip) ∈ state.held := by
        have placed := table.placed thread
        rcases putting with here | here
        · rw [here] at placed
          exact table.owner ip thread placed.1
        · rw [here] at placed
          exact table.owner ip thread placed.1
      rw [same ip own]
    · rw [held]
    · rw [owned_before ip thread owned] at owned
      exact free owned

end InodeThreads
end Myfuse
