import Myfuse.Proofs.InodeDinodes

/-! Every event keeps the protocol of the inode table, so in a run of threads that use
what they hold, and look up inodes in use, no inode is ever mixed with another. -/

namespace Myfuse
open Library

namespace InodeThreads
variable {Thread : Type} [DecidableEq Thread] {state after : InodeThreads Thread} {thread : Thread} {ip inum : Nat} 

/-- A thread that neither reads, nor puts, nor leaves moves to the next such place. -/
theorem Protocol.enter (protocol : state.Protocol) {phase : InodePhase}
    (before : ∀ place, state.phase thread ≠ .reading place ∧ ¬ state.Leaving thread place)
    (placed : (state.enter thread phase).At thread phase)
    (still : ∀ place, phase ≠ .invalidating place ∧ phase ≠ .dropping place)
    (claims : ∀ inum type, phase ≠ .getting inum (some type)) (scans : ∀ type inum, phase = .scanning type inum → type ≠ T_UNUSE_INODE_MYFUSE) :
    (state.enter thread phase).Protocol := by
  have mine : (state.enter thread phase).phase thread = phase := enter_phase_self phase
  have phases : ∀ other, other ≠ thread → (state.enter thread phase).phase other = state.phase other := fun other apart => enter_phase_other apart phase
  refine ⟨protocol.table.of_same thread rfl rfl (fun _ => ⟨rfl, rfl, rfl⟩) (fun _ => id) phases (fun place reading => absurd reading (before place).1) ?_, ?_⟩
  · rw [mine]
    exact placed
  · refine protocol.dinodes.frame rfl rfl protocol.dinodes.seen (fun given inside => ⟨inside, (protocol.dinodes.fresh given inside).held⟩)
      (fun _ => id) (fun _ used => ⟨used, rfl⟩) (fun _ _ => rfl) (fun place now => ⟨⟨now.1, fun holder invalidating => ?_⟩, rfl⟩)
      (fun holder place _ => ?_) (fun holder inum type getting => ?_) fun holder type inum scanning => ?_
    · have apart : holder ≠ thread := fun same => (before place).2 (.inl (same ▸ invalidating))
      exact now.2 holder ((phases holder apart).trans invalidating)
    · by_cases same : holder = thread
      · rw [same]
        refine iff_of_false (fun leaves => ?_) (before place).2
        rw [Leaving, mine] at leaves
        exact leaves.elim (still place).1 (still place).2
      · rw [Leaving, Leaving, phases holder same]
    · by_cases same : holder = thread
      · rw [same, mine] at getting
        exact absurd getting (claims inum type)
      · exact (phases holder same).symm.trans getting
    · by_cases same : holder = thread
      · rw [same, mine] at scanning
        exact scans type inum scanning
      · exact protocol.dinodes.scanning holder type inum ((phases holder same).symm.trans scanning)

omit [DecidableEq Thread] in
/-- Changes of the owner, and of the phase with it. -/
theorem Dinodes.of_owner (dinodes : state.Dinodes) (same : after.dinode = state.dinode ∧ after.live = state.live ∧ after.held = state.held)
    (seen : ∀ saw ∈ after.seen, saw.2 = Dinode.allocated saw.1) (fresh : ∀ given ∈ after.fresh, given ∈ state.fresh)
    (inodes : ∀ other, (after.inode other).inum = (state.inode other).inum ∧ (after.inode other).ref = (state.inode other).ref ∧
      (after.inode other).copy.type = (state.inode other).copy.type ∧ ((after.inode other).valid = true → (state.inode other).valid = true))
    (invalidating : ∀ holder place, state.phase holder = .invalidating place → after.phase holder = .invalidating place ∨ (after.inode place).valid = false)
    (leaving : ∀ holder place, after.Leaving holder place ↔ state.Leaving holder place)
    (outside : ∀ holder, (∀ type inum, after.phase holder = .scanning type inum → state.phase holder = .scanning type inum) ∧
      ∀ inum type, after.phase holder = .getting inum type → state.phase holder = .getting inum type) : after.Dinodes := by
  obtain ⟨dinode, live, held⟩ := same
  refine dinodes.frame dinode live seen (fun given inside => ⟨fresh given inside, held ▸ (dinodes.fresh given (fresh given inside)).held⟩)
    (fun pair inside => held ▸ inside) (fun other used => ⟨(inodes other).2.1 ▸ used, (inodes other).1⟩) (fun given _ => (inodes given.2.1).1)
    (fun other now => ⟨⟨(inodes other).2.2.2 now.1, fun holder before => ?_⟩, (inodes other).2.2.1⟩) (fun holder place _ => leaving holder place)
    (fun holder inum type => (outside holder).2 inum (some type)) fun holder type inum scanning => dinodes.scanning holder type inum ((outside holder).1 type inum scanning)
  rcases invalidating holder other before with still | invalid
  · exact now.2 holder still
  · rw [now.1] at invalid
    cases invalid

omit [DecidableEq Thread] in
theorem not_leaving {phase : InodePhase} (here : state.phase thread = phase) (stays : ∀ place, phase ≠ .invalidating place ∧ phase ≠ .dropping place)
    (place : Nat) : ¬ state.Leaving thread place := by
  rw [Leaving, here]
  exact fun leaves => leaves.elim (stays place).1 (stays place).2

/-- `Leaving` after a step of a thread that is not leaving before or after. -/
theorem leaving_enter {phase phase' : InodePhase} (here : state.phase thread = phase) (phases : after.phase = assign state.phase thread phase')
    (stays : ∀ place, (phase ≠ .invalidating place ∧ phase ≠ .dropping place) ∧ phase' ≠ .invalidating place ∧ phase' ≠ .dropping place)
    (holder : Thread) (place : Nat) : after.Leaving holder place ↔ state.Leaving holder place := by
  by_cases same : holder = thread
  · subst same
    have mine : after.phase holder = phase' := by rw [phases, assign_self]
    exact iff_of_false (not_leaving mine (fun place => (stays place).2) place) (not_leaving here (fun place => (stays place).1) place)
  · rw [Leaving, Leaving, phases, assign_of_ne same]

/-- `Dinodes.of_owner` for a step of one thread between places where it does not leave. -/
theorem Dinodes.of_enter (dinodes : state.Dinodes) {phase phase' : InodePhase} (here : state.phase thread = phase)
    (phases : after.phase = assign state.phase thread phase')
    (stays : ∀ place, (phase ≠ .invalidating place ∧ phase ≠ .dropping place) ∧ phase' ≠ .invalidating place ∧ phase' ≠ .dropping place)
    (outside : (∀ type inum, phase' ≠ .scanning type inum) ∧ ∀ inum type, phase' ≠ .getting inum type)
    (same : after.dinode = state.dinode ∧ after.live = state.live ∧ after.held = state.held)
    (seen : ∀ saw ∈ after.seen, saw.2 = Dinode.allocated saw.1) (fresh : ∀ given ∈ after.fresh, given ∈ state.fresh)
    (inodes : ∀ other, (after.inode other).inum = (state.inode other).inum ∧ (after.inode other).ref = (state.inode other).ref ∧
      (after.inode other).copy.type = (state.inode other).copy.type ∧ (after.inode other).valid = (state.inode other).valid) : after.Dinodes := by
  refine dinodes.of_owner same seen fresh (fun other => ⟨(inodes other).1, (inodes other).2.1, (inodes other).2.2.1, fun valid => (inodes other).2.2.2 ▸ valid⟩)
    (fun holder place before => .inl ?_) (leaving_enter here phases stays) fun holder => ⟨fun type inum now => ?_, fun inum type now => ?_⟩
  · have apart : holder ≠ thread := fun eq => (stays place).1.1 (by rw [← here, ← eq]; exact before)
    rw [phases, assign_of_ne apart]
    exact before
  · rw [phases, assign_apply] at now
    split at now
    · exact absurd now (outside.1 type inum)
    · exact now
  · rw [phases, assign_apply] at now
    split at now
    · exact absurd now (outside.2 inum type)
    · exact now

theorem Protocol.lock (protocol : state.Protocol) (idle : state.phase thread = .idle) (own : (thread, ip) ∈ state.held)
    (free : (state.inode ip).owner = none) : (state.lock thread ip).Protocol := by
  have inodes : ∀ other, ((state.setInode ip { state.inode ip with owner := some thread }).inode other).inum = (state.inode other).inum ∧
      ((state.setInode ip { state.inode ip with owner := some thread }).inode other).ref = (state.inode other).ref ∧
      ((state.setInode ip { state.inode ip with owner := some thread }).inode other).copy.type = (state.inode other).copy.type ∧
      ((state.setInode ip { state.inode ip with owner := some thread }).inode other).valid = (state.inode other).valid := by
    intro other
    by_cases this_one : other = ip
    · rw [this_one, setInode_self]
      exact ⟨rfl, rfl, rfl, rfl⟩
    · rw [setInode_other this_one]
      exact ⟨rfl, rfl, rfl, rfl⟩
  have here : (state.setInode ip { state.inode ip with owner := some thread }).inode ip = { state.inode ip with owner := some thread } := setInode_self _
  have others : ∀ other, other ≠ thread → (state.inode ip).owner ≠ some other ∧
      ((state.setInode ip { state.inode ip with owner := some thread }).inode ip).owner ≠ some other := by
    refine fun other apart => ⟨fun owned => ?_, fun owned => ?_⟩
    · rw [free] at owned
      cases owned
    · rw [here] at owned
      exact apart (Option.some.inj owned).symm
  have unread : ∀ place, state.phase thread ≠ .reading place := fun place reading => by
    rw [idle] at reading
    cases reading
  unfold InodeThreads.lock
  split
  next valid =>
    -- A copy that is valid here has been read since the number was claimed.
    have current : state.Current ip := by
      refine ⟨valid, fun holder invalidating => ?_⟩
      have placed := protocol.table.placed holder
      rw [invalidating] at placed
      cases free.symm.trans placed.1
    have gone : state.fresh.filter (isGift thread ip) = [] := by
      refine List.filter_eq_nil_iff.mpr fun given inside gift => ?_
      obtain ⟨-, same⟩ := mem_isGift.mp gift
      exact (protocol.dinodes.fresh given inside).quiet.stale (same ▸ current)
    refine ⟨?_, ?_⟩
    · refine protocol.table.of_owner rfl rfl ⟨(inodes ip).1, (inodes ip).2.1⟩ (fun other apart => setInode_other apart _)
        (fun other apart => enter_phase_other apart _) others (fun _ => ⟨own, .inl ?_⟩) unread ?_
      · exact (inodes ip).2.2.2.trans valid
      · have mine : (lockTaken (state.setInode ip { state.inode ip with owner := some thread }) thread ip).phase thread = .idle := assign_self _ _ _
        rw [mine]
        trivial
    · refine protocol.dinodes.of_enter idle rfl (fun _ => ⟨⟨InodePhase.noConfusion, InodePhase.noConfusion⟩, InodePhase.noConfusion, InodePhase.noConfusion⟩)
        ⟨fun _ _ => InodePhase.noConfusion, fun _ _ => InodePhase.noConfusion⟩ ⟨rfl, rfl, rfl⟩ (fun saw inside => ?_) (fun given inside => List.mem_of_mem_filter inside) inodes
      have inside : saw ∈ ((state.fresh.filter (isGift thread ip)).map fun given => (given.2.2, _)) ++ state.seen := inside
      rw [gone] at inside
      exact protocol.dinodes.seen saw inside
  next invalid =>
    refine ⟨?_, ?_⟩
    · have mine : ((state.setInode ip { state.inode ip with owner := some thread }).enter thread (.reading ip)).phase thread = .reading ip := assign_self _ _ _
      refine protocol.table.of_owner rfl rfl ⟨(inodes ip).1, (inodes ip).2.1⟩ (fun other apart => setInode_other apart _)
        (fun other apart => enter_phase_other apart _) others (fun _ => ⟨own, .inr mine⟩) unread ?_
      rw [mine]
      exact congrArg TableInode.owner here
    · exact protocol.dinodes.of_enter idle rfl (fun _ => ⟨⟨InodePhase.noConfusion, InodePhase.noConfusion⟩, InodePhase.noConfusion, InodePhase.noConfusion⟩)
        ⟨fun _ _ => InodePhase.noConfusion, fun _ _ => InodePhase.noConfusion⟩ ⟨rfl, rfl, rfl⟩ protocol.dinodes.seen (fun _ => id) inodes

/-- An idle thread changes an entry that it has locked, in fields that no other entry's state rests on. -/
theorem Protocol.unlock (protocol : state.Protocol) (idle : state.phase thread = .idle) (owned : (state.inode ip).owner = some thread) :
    (state.setInode ip { state.inode ip with owner := none }).Protocol := by
  have here : (state.setInode ip { state.inode ip with owner := none }).inode ip = { state.inode ip with owner := none } := setInode_self _
  have inodes : ∀ other, ((state.setInode ip { state.inode ip with owner := none }).inode other).inum = (state.inode other).inum ∧
      ((state.setInode ip { state.inode ip with owner := none }).inode other).ref = (state.inode other).ref ∧
      ((state.setInode ip { state.inode ip with owner := none }).inode other).copy.type = (state.inode other).copy.type ∧
      (((state.setInode ip { state.inode ip with owner := none }).inode other).valid = true → (state.inode other).valid = true) := by
    intro other
    by_cases this_one : other = ip
    · rw [this_one, here]
      exact ⟨rfl, rfl, rfl, id⟩
    · rw [setInode_other this_one]
      exact ⟨rfl, rfl, rfl, id⟩
  refine ⟨?_, protocol.dinodes.of_owner ⟨rfl, rfl, rfl⟩ protocol.dinodes.seen (fun _ => id) inodes (fun _ _ => .inl) (fun _ _ => Iff.rfl)
    fun _ => ⟨fun _ _ => id, fun _ _ => id⟩⟩
  refine protocol.table.of_owner rfl rfl ⟨(inodes ip).1, (inodes ip).2.1⟩ (fun other apart => setInode_other apart _) (fun _ _ => rfl)
    (fun other apart => ⟨fun also => apart (Option.some.inj (also.symm.trans owned)), fun also => ?_⟩) (fun also => ?_) (fun place reading => ?_) ?_
  · rw [here] at also
    cases also
  · rw [here] at also
    cases also
  · rw [idle] at reading
    cases reading
  · show At _ thread (state.phase thread)
    rw [idle]
    trivial

omit [DecidableEq Thread] in
theorem store_entry (copy : Dinode) (now : Timespec) (other : Nat) :
    ((state.store ip copy now).inode other).inum = (state.inode other).inum ∧ ((state.store ip copy now).inode other).ref = (state.inode other).ref ∧
      ((state.store ip copy now).inode other).owner = (state.inode other).owner ∧ ((state.store ip copy now).inode other).valid = (state.inode other).valid := by
  by_cases this_one : other = ip
  · subst this_one
    have here : (state.store other copy now).inode other = { state.inode other with copy := { copy with st_ctimespec := now } } := setInode_self _
    rw [here]
    exact ⟨rfl, rfl, rfl, rfl⟩
  · have same : (state.store ip copy now).inode other = state.inode other := setInode_other this_one _
    rw [same]
    exact ⟨rfl, rfl, rfl, rfl⟩

theorem Protocol.change (protocol : state.Protocol) (idle : state.phase thread = .idle) {copy : Dinode} (type : copy.type = (state.inode ip).copy.type) :
    (state.setInode ip { state.inode ip with copy }).Protocol := by
  have inodes : ∀ other, ((state.setInode ip { state.inode ip with copy }).inode other).inum = (state.inode other).inum ∧
      ((state.setInode ip { state.inode ip with copy }).inode other).ref = (state.inode other).ref ∧
      ((state.setInode ip { state.inode ip with copy }).inode other).owner = (state.inode other).owner ∧
      ((state.setInode ip { state.inode ip with copy }).inode other).copy.type = (state.inode other).copy.type ∧
      ((state.setInode ip { state.inode ip with copy }).inode other).valid = (state.inode other).valid := by
    intro other
    by_cases this_one : other = ip
    · rw [this_one, setInode_self]
      exact ⟨rfl, rfl, rfl, type, rfl⟩
    · rw [setInode_other this_one]
      exact ⟨rfl, rfl, rfl, rfl, rfl⟩
  refine ⟨protocol.table.of_same thread rfl rfl (fun other => ⟨(inodes other).1, (inodes other).2.1, (inodes other).2.2.1⟩)
    (fun other valid => (inodes other).2.2.2.2.trans valid) (fun _ _ => rfl) (fun _ reading => .inl reading) ?_, ?_⟩
  · show At _ thread (state.phase thread)
    rw [idle]
    trivial
  · exact protocol.dinodes.of_owner ⟨rfl, rfl, rfl⟩ protocol.dinodes.seen (fun _ => id)
      (fun other => ⟨(inodes other).1, (inodes other).2.1, (inodes other).2.2.2.1, fun valid => (inodes other).2.2.2.2 ▸ valid⟩) (fun _ _ => .inl)
      (fun _ _ => Iff.rfl) fun _ => ⟨fun _ _ => id, fun _ _ => id⟩

theorem Protocol.iupdate (protocol : state.Protocol) (idle : state.phase thread = .idle) (own : (thread, ip) ∈ state.held)
    (owned : (state.inode ip).owner = some thread) (now : Timespec) : (state.store ip (state.inode ip).copy now).Protocol := by
  refine ⟨protocol.table.of_same thread rfl rfl (fun other => ⟨(store_entry _ _ other).1, (store_entry _ _ other).2.1, (store_entry _ _ other).2.2.1⟩)
    (fun other valid => (store_entry _ _ other).2.2.2.trans valid) (fun _ _ => rfl) (fun _ reading => .inl reading) ?_, ?_⟩
  · show At _ thread (state.phase thread)
    rw [idle]
    trivial
  · have current := protocol.table.current owned (by rw [idle]; exact ⟨InodePhase.noConfusion, InodePhase.noConfusion⟩)
    have type : ({ (state.inode ip).copy with st_ctimespec := now } : Dinode).type = (state.inode ip).copy.type := rfl
    exact protocol.dinodes.store protocol.table (protocol.table.ref_pos own) current type rfl (setInode_self _) (fun other apart => setInode_other apart _)
      ⟨rfl, rfl, rfl, rfl⟩ (fun _ _ => ⟨Iff.rfl, Iff.rfl⟩) fun _ => ⟨fun _ _ => id, fun _ _ => id⟩

/-- `iput` finds the last reference to an inode without links. -/
theorem Protocol.puts (protocol : state.Protocol) (idle : state.phase thread = .idle) (own : (thread, ip) ∈ state.held) (last : state.Last ip)
    (free : (state.inode ip).owner = none) :
    ((state.setInode ip { state.inode ip with owner := some thread }).enter thread (.truncating ip)).Protocol := by
  set after := (state.setInode ip { state.inode ip with owner := some thread }).enter thread (.truncating ip) with after_eq
  have here : after.inode ip = { state.inode ip with owner := some thread } := setInode_self _
  have elsewhere : ∀ other, other ≠ ip → after.inode other = state.inode other := fun other apart => setInode_other apart _
  have inodes : ∀ other, (after.inode other).inum = (state.inode other).inum ∧ (after.inode other).ref = (state.inode other).ref ∧
      (after.inode other).copy.type = (state.inode other).copy.type ∧ (after.inode other).valid = (state.inode other).valid := by
    intro other
    by_cases this_one : other = ip
    · rw [this_one, here]
      exact ⟨rfl, rfl, rfl, rfl⟩
    · rw [elsewhere other this_one]
      exact ⟨rfl, rfl, rfl, rfl⟩
  have mine : after.phase thread = .truncating ip := enter_phase_self _
  refine ⟨?_, ?_⟩
  · refine protocol.table.of_owner rfl rfl ⟨(inodes ip).1, (inodes ip).2.1⟩ elsewhere (fun other apart => enter_phase_other apart _)
      (fun other apart => ⟨fun owned => ?_, fun owned => ?_⟩) (fun _ => ⟨own, .inl ((inodes ip).2.2.2.trans last.2.1)⟩) (fun place reading => ?_) ?_
    · cases free.symm.trans owned
    · rw [here] at owned
      exact apart (Option.some.inj owned).symm
    · rw [idle] at reading
      cases reading
    · rw [mine]
      exact ⟨congrArg TableInode.owner here, (inodes ip).2.1.trans last.1⟩
  · exact protocol.dinodes.of_enter idle rfl (fun _ => ⟨⟨InodePhase.noConfusion, InodePhase.noConfusion⟩, InodePhase.noConfusion, InodePhase.noConfusion⟩)
      ⟨fun _ _ => InodePhase.noConfusion, fun _ _ => InodePhase.noConfusion⟩ ⟨rfl, rfl, rfl⟩ protocol.dinodes.seen (fun _ => id) inodes

/-- A thread puts its reference, freeing nothing, or having freed the inode. -/
theorem Protocol.drop (protocol : state.Protocol) (own : (thread, ip) ∈ state.held) (phase : state.phase thread = .idle ∨ state.phase thread = .dropping ip)
    (keeps : (state.inode ip).owner = some thread → (thread, ip) ∈ state.held.erase (thread, ip)) : (state.drop thread ip).Protocol := by
  refine ⟨protocol.table.drop own phase keeps, ?_⟩
  have mine : (state.drop thread ip).phase thread = .idle := enter_phase_self _
  have phases : ∀ other, other ≠ thread → (state.drop thread ip).phase other = state.phase other := fun other apart => enter_phase_other apart _
  have inodes : ∀ other, ((state.drop thread ip).inode other).inum = (state.inode other).inum ∧
      ((state.drop thread ip).inode other).ref ≤ (state.inode other).ref ∧ ((state.drop thread ip).inode other).copy = (state.inode other).copy ∧
      ((state.drop thread ip).inode other).valid = (state.inode other).valid := by
    intro other
    by_cases this_one : other = ip
    · subst this_one
      have here : (state.drop thread other).inode other = { state.inode other with ref := (state.inode other).ref - 1 } := setInode_self _
      rw [here]
      exact ⟨rfl, by show _ - 1 ≤ _; omega, rfl, rfl⟩
    · have same : (state.drop thread ip).inode other = state.inode other := setInode_other this_one _
      rw [same]
      exact ⟨rfl, Int.le_refl _, rfl, rfl⟩
  refine protocol.dinodes.frame rfl rfl protocol.dinodes.seen (fun given inside => ?_) (fun pair inside => List.mem_of_mem_erase inside)
    (fun other used => ⟨lt_of_lt_of_le used (inodes other).2.1, (inodes other).1⟩) (fun given _ => (inodes given.2.1).1)
    (fun other now => ⟨⟨(inodes other).2.2.2 ▸ now.1, fun holder before => ?_⟩, congrArg Dinode.type (inodes other).2.2.1⟩)
    (fun holder place inside => ?_) (fun holder inum type getting => ?_) fun holder type inum scanning => ?_
  · obtain ⟨inside, other_one⟩ := List.mem_filter.mp inside
    refine ⟨inside, (List.mem_erase_of_ne fun same => ?_).mpr (protocol.dinodes.fresh given inside).held⟩
    have gift := mem_isGift.mpr (Prod.mk.inj same)
    rw [gift] at other_one
    cases other_one
  · have apart : holder ≠ thread := fun same => by
      rw [same] at before
      rcases phase with here | here
      · rw [here] at before
        cases before
      · rw [here] at before
        cases before
    exact now.2 holder ((phases holder apart).trans before)
  · by_cases same : holder = thread
    · subst same
      refine iff_of_false (fun leaves => ?_) fun leaves => ?_
      · rw [Leaving, mine] at leaves
        rcases leaves with same | same <;> cases same
      · rcases phase with here | here
        · rw [Leaving, here] at leaves
          rcases leaves with same | same <;> cases same
        · -- A leaving thread has one reference only, and this was it.
          have placed := protocol.table.placed holder
          rw [here] at placed
          rw [Leaving, here] at leaves
          rcases leaves with same | same
          · cases same
          · cases same
            have inside : (holder, ip) ∈ state.held.erase (holder, ip) := inside
            have gone : (state.held.erase (holder, ip)).count (holder, ip) = 0 := by
              rw [List.count_erase_self, placed.2]
            exact List.count_eq_zero.mp gone inside
    · rw [Leaving, Leaving, phases holder same]
  · have apart : holder ≠ thread := fun same => by
      rw [same, mine] at getting
      cases getting
    exact (phases holder apart).symm.trans getting
  · have apart : holder ≠ thread := fun same => by
      rw [same, mine] at scanning
      cases scanning
    exact protocol.dinodes.scanning holder type inum ((phases holder apart).symm.trans scanning)

theorem Protocol.truncates (protocol : state.Protocol) (phase : state.phase thread = .truncating ip) (now : Timespec) :
    ((state.store ip { (state.inode ip).copy with size := 0, addrs := fun _ => 0 } now).enter thread (.freeing ip)).Protocol := by
  set copy : Dinode := { (state.inode ip).copy with size := 0, addrs := fun _ => 0 } with copy_eq
  have placed := protocol.table.placed thread
  rw [phase] at placed
  obtain ⟨owned, single⟩ := placed
  have used : 0 < (state.inode ip).ref := by omega
  have current := protocol.table.current owned (by rw [phase]; exact ⟨InodePhase.noConfusion, InodePhase.noConfusion⟩)
  have mine : ((state.store ip copy now).enter thread (.freeing ip)).phase thread = .freeing ip := enter_phase_self _
  have phases : ∀ other, other ≠ thread → ((state.store ip copy now).enter thread (.freeing ip)).phase other = state.phase other :=
    fun other apart => enter_phase_other apart _
  refine ⟨?_, ?_⟩
  · refine protocol.table.of_same thread rfl rfl (fun other => ⟨(store_entry _ _ other).1, (store_entry _ _ other).2.1, (store_entry _ _ other).2.2.1⟩)
      (fun other valid => (store_entry _ _ other).2.2.2.trans valid) phases (fun place reading => ?_) ?_
    · rw [phase] at reading
      cases reading
    · rw [mine]
      exact ⟨(store_entry _ _ ip).2.2.1.trans owned, (store_entry _ _ ip).2.1.trans single⟩
  · have type : ({ copy with st_ctimespec := now } : Dinode).type = (state.inode ip).copy.type := rfl
    refine protocol.dinodes.store protocol.table used current type rfl (setInode_self _) (fun other apart => setInode_other apart _)
      ⟨rfl, rfl, rfl, rfl⟩ (fun holder place => ?_) fun holder => ?_
    · by_cases same : holder = thread
      · rw [same, mine, phase]
        exact ⟨⟨fun now => (by cases now), fun before => (by cases before)⟩, fun now => (by cases now), fun before => (by cases before)⟩
      · rw [phases holder same]
        exact ⟨Iff.rfl, Iff.rfl⟩
    · by_cases same : holder = thread
      · rw [same, mine]
        exact ⟨fun _ _ now => (by cases now), fun _ _ now => (by cases now)⟩
      · rw [phases holder same]
        exact ⟨fun _ _ => id, fun _ _ => id⟩

theorem Protocol.frees (protocol : state.Protocol) (phase : state.phase thread = .freeing ip) (now : Timespec)
    (stepped : state.advance thread now (.freeing ip) = some after) : after.Protocol := by
  refine ⟨?_, protocol.dinodes.free protocol.table phase now after stepped⟩
  have placed := protocol.table.placed thread
  rw [phase] at placed
  obtain ⟨owned, single⟩ := placed
  cases stepped
  refine protocol.table.of_same thread rfl rfl (fun other => ⟨(store_entry _ _ other).1, (store_entry _ _ other).2.1, (store_entry _ _ other).2.2.1⟩)
    (fun other valid => (store_entry _ _ other).2.2.2.trans valid) (fun other apart => enter_phase_other apart _) (fun place reading => ?_) ?_
  · rw [phase] at reading
    cases reading
  · rw [enter_phase_self]
    exact ⟨(store_entry _ _ ip).2.2.1.trans owned, protocol.table.single single (protocol.table.owner ip thread owned)⟩

/-- The freed copy goes out of use, and the lock is given up. -/
theorem Protocol.invalidates (protocol : state.Protocol) (phase : state.phase thread = .invalidating ip) :
    ((state.setInode ip { state.inode ip with valid := false, owner := none }).enter thread (.dropping ip)).Protocol := by
  set after := (state.setInode ip { state.inode ip with valid := false, owner := none }).enter thread (.dropping ip) with after_eq
  have placed := protocol.table.placed thread
  rw [phase] at placed
  obtain ⟨owned, single⟩ := placed
  have here : after.inode ip = { state.inode ip with valid := false, owner := none } := setInode_self _
  have elsewhere : ∀ other, other ≠ ip → after.inode other = state.inode other := fun other apart => setInode_other apart _
  have mine : after.phase thread = .dropping ip := enter_phase_self _
  have phases : ∀ other, other ≠ thread → after.phase other = state.phase other := fun other apart => enter_phase_other apart _
  have inodes : ∀ other, (after.inode other).inum = (state.inode other).inum ∧ (after.inode other).ref = (state.inode other).ref ∧
      (after.inode other).copy.type = (state.inode other).copy.type ∧ ((after.inode other).valid = true → (state.inode other).valid = true) := by
    intro other
    by_cases this_one : other = ip
    · rw [this_one, here]
      exact ⟨rfl, rfl, rfl, fun valid => (by cases valid)⟩
    · rw [elsewhere other this_one]
      exact ⟨rfl, rfl, rfl, id⟩
  refine ⟨?_, ?_⟩
  · refine protocol.table.of_owner rfl rfl ⟨(inodes ip).1, (inodes ip).2.1⟩ elsewhere phases
      (fun other apart => ⟨fun also => apart (Option.some.inj (also.symm.trans owned)), fun also => ?_⟩) (fun also => ?_) (fun place reading => ?_) ?_
    · rw [here] at also
      cases also
    · rw [here] at also
      cases also
    · rw [phase] at reading
      cases reading
    · rw [mine]
      refine ⟨fun also => ?_, single⟩
      rw [here] at also
      cases also
  · refine protocol.dinodes.of_owner ⟨rfl, rfl, rfl⟩ protocol.dinodes.seen (fun _ => id) inodes (fun holder place before => ?_) (fun holder place => ?_)
      fun holder => ?_
    · by_cases same : holder = thread
      · rw [same, phase] at before
        cases before
        exact .inr (congrArg TableInode.valid here)
      · exact .inl ((phases holder same).trans before)
    · by_cases same : holder = thread
      · rw [same, Leaving, Leaving, mine, phase]
        simp only [reduceCtorEq, InodePhase.dropping.injEq, InodePhase.invalidating.injEq, false_or, or_false]
      · rw [Leaving, Leaving, phases holder same]
    · by_cases same : holder = thread
      · rw [same, mine]
        exact ⟨fun _ _ now => (by cases now), fun _ _ now => (by cases now)⟩
      · rw [phases holder same]
        exact ⟨fun _ _ => id, fun _ _ => id⟩

/-- What is promised, also of a state that an exit has left. -/
def Unmixed (state : InodeThreads Thread) : Prop := state.live.Nodup ∧ ∀ saw ∈ state.seen, saw.2 = Dinode.allocated saw.1

/-- The process goes on in step with the protocol, or has ended with the promise kept. -/
def Follows (state : InodeThreads Thread) : Prop := (state.exited = none → state.Protocol) ∧ state.Unmixed

theorem Protocol.unmixed (protocol : state.Protocol) : state.Unmixed := ⟨protocol.dinodes.nodup, protocol.dinodes.seen⟩

theorem Protocol.follows (protocol : state.Protocol) : state.Follows := ⟨fun _ => protocol, protocol.unmixed⟩

theorem follows_exit {reason : Fatal} (unmixed : state.Unmixed) : (state.exit reason).Follows := ⟨fun alive => (by cases alive), unmixed⟩

theorem Protocol.scans (protocol : state.Protocol) {type : BitVec 16} (phase : state.phase thread = .scanning type inum) :
    (state.scan thread type inum).Follows := by
  have unread : ∀ place, state.phase thread ≠ .reading place ∧ ¬ state.Leaving thread place := by
    intro place
    rw [Leaving, phase]
    simp only [ne_eq, reduceCtorEq, not_false_eq_true, or_self, and_self]
  unfold scan
  split
  · exact follows_exit protocol.unmixed
  split
  next free =>
    have claimed := protocol.dinodes.claim phase free
    refine Protocol.follows ⟨?_, claimed⟩
    refine protocol.table.of_same thread rfl rfl (fun _ => ⟨rfl, rfl, rfl⟩) (fun _ => id) (fun other apart => enter_phase_other apart _)
      (fun place reading => absurd reading (unread place).1) ?_
    rw [enter_phase_self]
    trivial
  next used =>
    have scanned : (state.enter thread (.scanning type (inum + 1))).Protocol := by
      refine protocol.enter unread trivial (fun _ => ⟨InodePhase.noConfusion, InodePhase.noConfusion⟩) (fun _ _ => InodePhase.noConfusion)
        fun type' inum' same => ?_
      cases same
      exact protocol.dinodes.scanning thread type inum phase
    exact scanned.follows

theorem give_table (base : InodeThreads Thread) (thread : Thread) (inum ip : Nat) (type : Option (BitVec 16)) :
    (base.give thread inum ip type).ninode = base.ninode ∧ (base.give thread inum ip type).held = (thread, ip) :: base.held ∧
      (base.give thread inum ip type).inode = base.inode ∧ (base.give thread inum ip type).phase = assign base.phase thread .idle := by
  cases type with
  | none => exact ⟨rfl, rfl, rfl, rfl⟩
  | some type => exact ⟨rfl, rfl, rfl, rfl⟩

theorem Protocol.gains (protocol : state.Protocol) {valid : Bool} {type : Option (BitVec 16)} (phase : state.phase thread = .getting inum type)
    (sound : type = none → state.InUse inum) (serves : state.Serves ip inum valid) (inside : ip < state.ninode) :
    ((state.setInode ip { state.inode ip with inum, ref := (state.inode ip).ref + 1, valid }).give thread inum ip type).Protocol := by
  refine ⟨?_, protocol.dinodes.gain protocol.table phase sound serves⟩
  set base := state.setInode ip { state.inode ip with inum, ref := (state.inode ip).ref + 1, valid } with base_eq
  obtain ⟨ninode, held, inodes, phases⟩ := give_table base thread inum ip type
  refine protocol.table.gain ninode held ?_ (fun other apart => ?_) inside (serves.imp id fun empty => ⟨empty.1, empty.2.2⟩) (fun other apart => ?_) ?_
    (fun place reading => ?_) fun other putting => ?_
  · rw [inodes]
    exact setInode_self _
  · rw [inodes]
    exact setInode_other apart _
  · rw [phases]
    exact assign_of_ne apart _ _
  · rw [phases]
    exact assign_self _ _ _
  · rw [phase] at reading
    cases reading
  · have placed := protocol.table.placed other
    have putter : (state.inode ip).owner = some other ∧ (state.inode ip).ref = 1 := by
      rcases putting with here | here
      · rw [here] at placed
        exact placed
      · rw [here] at placed
        exact placed
    rcases serves with ⟨found, -, used⟩ | ⟨unused, -⟩
    · cases type with
      | none => exact (sound rfl).kept other ip putting found
      | some type =>
        have quiet := (protocol.dinodes.claimed thread inum type phase).quiet ip used found
        rcases quiet.others other (protocol.table.owner ip other putter.1) with impossible | leaves
        · exact impossible
        · rcases putting with here | here
          · rw [Leaving, here] at leaves
            rcases leaves with same | same <;> cases same
          · rw [Leaving, here] at leaves
            rcases leaves with same | same <;> cases same
    · omega

theorem Protocol.gets (protocol : state.Protocol) {type : Option (BitVec 16)} (phase : state.phase thread = .getting inum type)
    (sound : type = none → state.InUse inum) : (state.get thread inum type).Protocol := by
  unfold InodeThreads.get
  split
  next ip found =>
    have holds := List.find?_some found
    have inside := List.mem_range.mp (List.mem_of_find?_eq_some found)
    obtain ⟨number, used⟩ := of_decide_eq_true holds
    have same : ({ state.inode ip with ref := (state.inode ip).ref + 1 } : TableInode Thread) =
        { state.inode ip with inum, ref := (state.inode ip).ref + 1, valid := (state.inode ip).valid } := by
      rw [← number]
    rw [same]
    exact protocol.gains phase sound (.inl ⟨number, rfl, used⟩) inside
  next absent =>
    have unserved : ∀ other, 0 < (state.inode other).ref → (state.inode other).inum ≠ inum := by
      intro other used number
      have inside : other < state.ninode := by
        by_contra outside
        have unused := protocol.table.past other (Nat.not_lt.mp outside)
        omega
      have passed := List.find?_eq_none.mp absent other (List.mem_range.mpr inside)
      exact passed (decide_eq_true ⟨number, used⟩)
    split
    next ip empty =>
      have holds := List.find?_some empty
      have unused : (state.inode ip).ref = 0 := of_decide_eq_true holds
      have inside := List.mem_range.mp (List.mem_of_find?_eq_some empty)
      have same : ({ state.inode ip with inum, ref := 1, valid := false } : TableInode Thread) =
          { state.inode ip with inum, ref := (state.inode ip).ref + 1, valid := false } := by
        rw [unused]
        rfl
      rw [same]
      exact protocol.gains phase sound (.inr ⟨unused, rfl, unserved⟩) inside
    next =>
      have kept : ∀ ip, state.ninode ≤ ip → (state.inode ip).ref = 0 := protocol.table.past
      set after : InodeThreads Thread :=
        { state with
          ninode := state.ninode * 2
          inode := fun ip => if state.ninode ≤ ip ∧ ip < state.ninode * 2 then ⟨0, 0, none, false, Dinode.zero⟩ else state.inode ip } with after_eq
      have inodes : ∀ ip, after.inode ip = state.inode ip ∨
          state.ninode ≤ ip ∧ (after.inode ip).ref = 0 ∧ (after.inode ip).owner = none ∧ (after.inode ip).valid = false := by
        intro ip
        by_cases new : state.ninode ≤ ip ∧ ip < state.ninode * 2
        · have fresh_entry : after.inode ip = ⟨0, 0, none, false, Dinode.zero⟩ := if_pos new
          rw [fresh_entry]
          exact .inr ⟨new.1, rfl, rfl, rfl⟩
        · exact .inl (if_neg new)
      have used_before : ∀ ip, 0 < (state.inode ip).ref → after.inode ip = state.inode ip := by
        intro ip used
        rcases inodes ip with same | ⟨outside, -⟩
        · exact same
        · have unused := kept ip outside
          omega
      refine ⟨protocol.table.grow rfl rfl (Nat.le_mul_of_pos_right _ (by decide)) fun ip => (inodes ip).imp id fun new => ⟨new.1, new.2.1, new.2.2.1⟩, ?_⟩
      refine protocol.dinodes.frame rfl rfl protocol.dinodes.seen (fun given inside => ⟨inside, (protocol.dinodes.fresh given inside).held⟩) (fun _ => id)
        (fun ip used => ?_) (fun given inside => ?_) (fun ip now => ?_) (fun _ _ _ => Iff.rfl) (fun _ _ _ => id) protocol.dinodes.scanning
      · rcases inodes ip with same | ⟨-, unused, -⟩
        · rw [same] at used ⊢
          exact ⟨used, rfl⟩
        · omega
      · rw [used_before _ (protocol.table.ref_pos (protocol.dinodes.fresh given inside).held)]
      · rcases inodes ip with same | ⟨-, -, -, invalid⟩
        · exact ⟨⟨same ▸ now.1, now.2⟩, by rw [same]⟩
        · rw [now.1] at invalid
          cases invalid

theorem Protocol.reads (protocol : state.Protocol) (phase : state.phase thread = .reading ip) : (state.read thread ip).Follows := by
  unfold InodeThreads.read
  dsimp only
  split
  · exact follows_exit protocol.unmixed
  next typed =>
    split
    · exact follows_exit protocol.unmixed
    · set base := state.setInode ip { state.inode ip with copy := state.dinode (state.inode ip).inum, valid := true } with base_eq
      have entries : ∀ other, (base.inode other).inum = (state.inode other).inum ∧ (base.inode other).ref = (state.inode other).ref ∧
          (base.inode other).owner = (state.inode other).owner ∧ ((state.inode other).valid = true → (base.inode other).valid = true) := by
        intro other
        by_cases this_one : other = ip
        · rw [this_one, base_eq, setInode_self]
          exact ⟨rfl, rfl, rfl, fun _ => rfl⟩
        · rw [base_eq, setInode_other this_one]
          exact ⟨rfl, rfl, rfl, id⟩
      have mine : (base.lockTaken thread ip).phase thread = .idle := assign_self _ _ _
      refine Protocol.follows ⟨?_, protocol.dinodes.load protocol.table phase typed⟩
      refine protocol.table.of_same thread rfl rfl (fun other => ⟨(entries other).1, (entries other).2.1, (entries other).2.2.1⟩)
        (fun other => (entries other).2.2.2) (fun other apart => assign_of_ne apart _ _) (fun place reading => .inr ?_) ?_
      · rw [phase] at reading
        cases reading
        show (base.inode ip).valid = true
        rw [base_eq, setInode_self]
      · rw [mine]
        trivial

/-- One event of threads that use what they hold, and know what they look for. -/
theorem Protocol.step {event : InodeEvent Thread} (protocol : state.Protocol) (holds : state.Holds event) (sound : state.Sound event)
    (stepped : state.step event = some after) : after.Follows := by
  unfold InodeThreads.step at stepped
  split at stepped
  · cases stepped
  have idle_facts : ∀ {thread : Thread}, state.phase thread = .idle →
      ∀ place, state.phase thread ≠ .reading place ∧ ¬ state.Leaving thread place := by
    intro thread idle place
    rw [Leaving, idle]
    simp only [ne_eq, reduceCtorEq, not_false_eq_true, or_self, and_self]
  cases event with
  | ialloc thread type =>
    dsimp only at stepped
    split at stepped
    next idle =>
      cases stepped
      have entered : (state.enter thread (.scanning type 1)).Protocol := by
        refine protocol.enter (idle_facts idle) trivial (fun _ => ⟨InodePhase.noConfusion, InodePhase.noConfusion⟩) (fun _ _ => InodePhase.noConfusion)
          fun type' inum same => ?_
        cases same
        exact sound
      exact entered.follows
    next => cases stepped
  | iget thread inum =>
    dsimp only at stepped
    split at stepped
    next idle =>
      cases stepped
      have entered : (state.enter thread (.getting inum none)).Protocol :=
        protocol.enter (idle_facts idle) trivial (fun _ => ⟨InodePhase.noConfusion, InodePhase.noConfusion⟩) (fun _ _ same => by cases same)
          fun _ _ => InodePhase.noConfusion
      exact entered.follows
    next => cases stepped
  | ilock thread ip =>
    dsimp only at stepped
    split at stepped
    · cases stepped
    next idle =>
      split at stepped
      · cases stepped
        exact follows_exit protocol.unmixed
      · split at stepped
        next free =>
          cases stepped
          exact (protocol.lock (not_not.mp idle) holds free).follows
        next => cases stepped
  | iunlock thread ip =>
    dsimp only at stepped
    split at stepped
    next idle =>
      cases stepped
      exact (protocol.unlock idle holds.2).follows
    next => cases stepped
  | change thread ip set =>
    dsimp only at stepped
    split at stepped
    next idle =>
      cases stepped
      have type : ({ set (state.inode ip).copy with type := (state.inode ip).copy.type } : Dinode).type = (state.inode ip).copy.type := rfl
      exact (protocol.change idle type).follows
    next => cases stepped
  | iupdate thread ip now =>
    dsimp only at stepped
    split at stepped
    next idle =>
      cases stepped
      exact (protocol.iupdate idle holds.1 holds.2 now).follows
    next => cases stepped
  | iput thread ip =>
    dsimp only at stepped
    split at stepped
    · cases stepped
    next idle =>
      split at stepped
      next last =>
        split at stepped
        next free =>
          cases stepped
          exact (protocol.puts (not_not.mp idle) holds.1 last free).follows
        next => cases stepped
      next =>
        cases stepped
        exact (protocol.drop holds.1 (.inl (not_not.mp idle)) holds.2).follows
  | next thread now =>
    dsimp only at stepped
    cases phase : state.phase thread with
    | idle =>
      rw [phase] at stepped
      cases stepped
    | scanning type inum =>
      rw [phase] at stepped
      cases stepped
      exact protocol.scans phase
    | getting inum type =>
      rw [phase] at stepped
      cases stepped
      exact (protocol.gets phase fun outside => sound inum (outside ▸ phase)).follows
    | reading ip =>
      rw [phase] at stepped
      cases stepped
      exact protocol.reads phase
    | truncating ip =>
      rw [phase] at stepped
      cases stepped
      exact (protocol.truncates phase now).follows
    | freeing ip =>
      rw [phase] at stepped
      exact (protocol.frees phase now stepped).follows
    | invalidating ip =>
      rw [phase] at stepped
      cases stepped
      exact (protocol.invalidates phase).follows
    | dropping ip =>
      rw [phase] at stepped
      cases stepped
      have placed := protocol.table.placed thread
      rw [phase] at placed
      have own : (thread, ip) ∈ state.held := List.count_pos_iff.mp (by rw [placed.2]; decide)
      exact (protocol.drop own (.inr phase) fun owned => absurd owned placed.1).follows

theorem Initial.protocol (initial : state.Initial) : state.Protocol := by
  obtain ⟨unused, idle, held, live, fresh, seen⟩ := initial
  have free : ∀ ip, ¬ 0 < (state.inode ip).ref := fun ip used => by
    have none_used := (unused ip).1
    omega
  have resting : ∀ {thread : Thread} {phase : InodePhase}, phase ≠ .idle → state.phase thread ≠ phase := fun other here => other (here.symm.trans (idle _))
  refine ⟨⟨fun ip _ used => absurd used (free ip), fun ip _ => (unused ip).1, fun ip => ?_, fun ip thread owned => ?_, fun ip thread owned => ?_, fun thread => ?_⟩,
    ⟨fun ip used => absurd used (free ip), fun ip used => absurd used (free ip), fun thread type inum here => absurd here (resting InodePhase.noConfusion),
      fun thread inum type here => absurd here (resting InodePhase.noConfusion), fun given inside => ?_, ?_, fun inum inside => ?_, fun saw inside => ?_⟩⟩
  · rw [(unused ip).1, held]
    rfl
  · rw [(unused ip).2] at owned
    cases owned
  · rw [(unused ip).2] at owned
    cases owned
  · rw [idle]
    trivial
  · rw [fresh] at inside
    cases inside
  · rw [live]
    exact List.nodup_nil
  · rw [live] at inside
    cases inside
  · rw [seen] at inside
    cases inside

theorem Runs.follows {rule : InodeThreads Thread → InodeEvent Thread → Prop} {start : InodeThreads Thread} (run : Runs rule start state)
    (follows : start.Follows) (obeys : ∀ state event, rule state event → state.Holds event ∧ state.Sound event) : state.Follows := by
  induction run with
  | nil => exact follows
  | step before allowed stepped ih =>
    have rules := obeys _ _ allowed
    have alive := stepped
    unfold InodeThreads.step at alive
    split at alive
    · cases alive
    next running =>
      have protocol := ih.1 (Option.isNone_iff_eq_none.mp (by simpa using running))
      exact protocol.step rules.1 rules.2 stepped

/-- Numbers handed out are distinct, and an allocated inode is found as `ialloc` wrote it. -/
theorem inodes_unmixed {start : InodeThreads Thread} (initial : start.Initial)
    (run : Runs (fun state event => state.Holds event ∧ state.Sound event) start state) : state.Unmixed :=
  (run.follows initial.protocol.follows fun _ _ rules => rules).2

/-! Runs on fixed events, and a run in which `iget` is called for a number that `ialloc` has just claimed. -/

instance (state : InodeThreads Thread) : ∀ event, Decidable (state.Holds event)
  | .ilock thread ip => inferInstanceAs (Decidable ((thread, ip) ∈ state.held))
  | .iunlock thread ip => inferInstanceAs (Decidable ((thread, ip) ∈ state.held ∧ (state.inode ip).owner = some thread))
  | .change thread ip _ => inferInstanceAs (Decidable ((thread, ip) ∈ state.held ∧ (state.inode ip).owner = some thread))
  | .iupdate thread ip _ => inferInstanceAs (Decidable ((thread, ip) ∈ state.held ∧ (state.inode ip).owner = some thread))
  | .iput thread ip =>
    inferInstanceAs (Decidable ((thread, ip) ∈ state.held ∧ ((state.inode ip).owner = some thread → (thread, ip) ∈ state.held.erase (thread, ip))))
  | .ialloc _ _ => isTrue trivial
  | .iget _ _ => isTrue trivial
  | .next _ _ => isTrue trivial

def runChecked (check : InodeThreads Thread → InodeEvent Thread → Bool) (state : InodeThreads Thread) (events : List (InodeEvent Thread)) :
    Option (InodeThreads Thread) :=
  events.foldlM (fun state event => if check state event then state.step event else none) state

theorem runs_of_checked {check : InodeThreads Thread → InodeEvent Thread → Bool} {rule : InodeThreads Thread → InodeEvent Thread → Prop}
    (implies : ∀ state event, check state event = true → rule state event) {start : InodeThreads Thread} :
    ∀ {events : List (InodeEvent Thread)} {state : InodeThreads Thread}, Runs rule start state → runChecked check state events = some after →
      Runs rule start after
  | [], _, run, done => by
    cases done
    exact run
  | event :: events, state, run, done => by
    unfold runChecked at done
    rw [List.foldlM_cons] at done
    obtain ⟨middle, stepped, rest⟩ := Option.bind_eq_some_iff.mp done
    split at stepped
    next checked => exact runs_of_checked implies (.step run (implies state event checked) stepped) rest
    next => cases stepped

/-- One inode number, and one table entry. -/
def oneNumber : InodeThreads Nat :=
  { ninodes := 2, dinode := fun _ => Dinode.zero, inode := fun _ => ⟨0, 0, none, false, Dinode.zero⟩, ninode := 1, phase := fun _ => .idle,
    exited := none, held := [], live := [], fresh := [], seen := [] }

theorem oneNumber_initial : oneNumber.Initial := ⟨fun _ => ⟨rfl, rfl⟩, fun _ => rfl, rfl, rfl, rfl, rfl⟩

/-- A file is asked for, and `iget` is left to `ialloc`. -/
def Plain (state : InodeThreads Nat) : InodeEvent Nat → Bool
  | .ialloc _ type => type ≠ T_UNUSE_INODE_MYFUSE
  | .next thread _ => match state.phase thread with
    | .getting _ none => false
    | _ => true
  | _ => true

/-- Thread 1 allocates the number again while thread 0 is still freeing it. -/
def reallocated : List (InodeEvent Nat) :=
  [.ialloc 0 T_FILE_INODE_MYFUSE, .next 0 ⟨0, 0⟩, .next 0 ⟨0, 0⟩, .ilock 0 0, .next 0 ⟨0, 0⟩, .iunlock 0 0, .iput 0 0, .next 0 ⟨0, 0⟩, .next 0 ⟨0, 0⟩,
    .ialloc 1 T_DIR_INODE_MYFUSE, .next 1 ⟨0, 0⟩, .next 1 ⟨0, 0⟩, .next 0 ⟨0, 0⟩, .ilock 1 0, .next 0 ⟨0, 0⟩, .next 1 ⟨0, 0⟩]

theorem inodes_unmixed_reallocated : ∃ state : InodeThreads Nat, state.live = [1] ∧ state.seen.map Prod.fst = [T_DIR_INODE_MYFUSE, T_FILE_INODE_MYFUSE] ∧
    state.Unmixed := by
  have ran : (runChecked (fun state event => decide (state.Holds event) && Plain state event) oneNumber reallocated).map
      (fun state => (state.live, state.seen.map Prod.fst)) = some ([1], [T_DIR_INODE_MYFUSE, T_FILE_INODE_MYFUSE]) := by decide +kernel
  obtain ⟨state, done, results⟩ := Option.map_eq_some_iff.mp ran
  obtain ⟨live, seen⟩ := Prod.mk.inj results
  refine ⟨state, live, seen, inodes_unmixed oneNumber_initial (runs_of_checked (fun state event checked => ?_) (.nil _) done)⟩
  obtain ⟨holds, plain⟩ := Bool.and_eq_true_iff.mp checked
  refine ⟨of_decide_eq_true holds, ?_⟩
  cases event with
  | ialloc thread type =>
    have typed : type ≠ T_UNUSE_INODE_MYFUSE := of_decide_eq_true plain
    exact typed
  | next thread now =>
    intro inum getting
    simp only [Plain, getting, Bool.false_eq_true] at plain
  | _ => trivial

/-- Thread 1 looks up the number between the two steps of thread 0's `ialloc`, and puts it: that frees it. -/
def stolen : List (InodeEvent Nat) :=
  [.ialloc 0 T_FILE_INODE_MYFUSE, .next 0 ⟨0, 0⟩, .iget 1 1, .next 1 ⟨0, 0⟩, .ilock 1 0, .next 1 ⟨0, 0⟩, .iunlock 1 0, .iput 1 0, .next 1 ⟨0, 0⟩,
    .next 1 ⟨0, 0⟩, .next 1 ⟨0, 0⟩, .next 1 ⟨0, 0⟩, .next 0 ⟨0, 0⟩, .ialloc 1 T_FILE_INODE_MYFUSE, .next 1 ⟨0, 0⟩, .next 1 ⟨0, 0⟩]

theorem looked_up_while_allocated : ¬ ∀ start state : InodeThreads Nat, start.Initial → Runs (fun state event => state.Holds event) start state →
    state.Unmixed := by
  intro claimed
  have ran : (runChecked (fun state event => decide (state.Holds event)) oneNumber stolen).map (·.live) = some [1, 1] := by decide +kernel
  obtain ⟨state, done, live⟩ := Option.map_eq_some_iff.mp ran
  have unmixed := claimed oneNumber state oneNumber_initial (runs_of_checked (fun state event checked => of_decide_eq_true checked) (.nil _) done)
  have distinct := unmixed.1
  rw [live] at distinct
  exact absurd distinct (by decide)

end InodeThreads
end Myfuse
