import Myfuse.Proofs.InodeTable

/-! Dinodes and the copies of the table: a number that `ialloc` has taken is not touched
before its thread has locked it, however far another thread is in freeing its older inode. -/

namespace Myfuse
open Library

namespace InodeThreads
variable {Thread : Type} [DecidableEq Thread]

/-- `iput` has freed the inode, and the thread is about to drop its reference. -/
def Leaving (state : InodeThreads Thread) (thread : Thread) (ip : Nat) : Prop :=
  state.phase thread = .invalidating ip ∨ state.phase thread = .dropping ip

/-- The copy is valid, and will stay so. -/
def Current (state : InodeThreads Thread) (ip : Nat) : Prop :=
  (state.inode ip).valid = true ∧ ∀ thread, state.phase thread ≠ .invalidating ip

/-- Apart from `own`, only threads that are leaving refer to the entry, and its copy is out of date. -/
structure Quiet (state : InodeThreads Thread) (ip : Nat) (own : Thread → Prop) : Prop where
  others : ∀ thread, (thread, ip) ∈ state.held → own thread ∨ state.Leaving thread ip
  stale : ¬ state.Current ip

structure Claimed (state : InodeThreads Thread) (thread : Thread) (inum : Nat) (type : BitVec 16) : Prop where
  written : state.dinode inum = Dinode.allocated type
  type : type ≠ T_UNUSE_INODE_MYFUSE
  unlisted : inum ∉ state.live
  alone : ∀ other type', state.phase other = .getting inum (some type') → other = thread
  quiet : ∀ ip, 0 < (state.inode ip).ref → (state.inode ip).inum = inum → state.Quiet ip fun _ => False

structure Fresh (state : InodeThreads Thread) (thread : Thread) (ip : Nat) (type : BitVec 16) : Prop where
  held : (thread, ip) ∈ state.held
  stays : ¬ state.Leaving thread ip
  written : state.dinode (state.inode ip).inum = Dinode.allocated type
  type : type ≠ T_UNUSE_INODE_MYFUSE
  quiet : state.Quiet ip fun other => other = thread

structure Dinodes (state : InodeThreads Thread) : Prop where
  matched : ∀ ip, 0 < (state.inode ip).ref → state.Current ip →
    (state.dinode (state.inode ip).inum).type = (state.inode ip).copy.type ∧ (state.inode ip).copy.type ≠ T_UNUSE_INODE_MYFUSE
  unused : ∀ ip, 0 < (state.inode ip).ref → (state.dinode (state.inode ip).inum).type = T_UNUSE_INODE_MYFUSE → state.Quiet ip fun _ => False
  scanning : ∀ thread type inum, state.phase thread = .scanning type inum → type ≠ T_UNUSE_INODE_MYFUSE
  claimed : ∀ thread inum type, state.phase thread = .getting inum (some type) → state.Claimed thread inum type
  fresh : ∀ given ∈ state.fresh, state.Fresh given.1 given.2.1 given.2.2
  nodup : state.live.Nodup
  live : ∀ inum ∈ state.live, (state.dinode inum).type ≠ T_UNUSE_INODE_MYFUSE
  seen : ∀ saw ∈ state.seen, saw.2 = Dinode.allocated saw.1

variable {state after : InodeThreads Thread} {thread : Thread} {ip inum : Nat} {own : Thread → Prop}

omit [DecidableEq Thread] in
theorem Quiet.transport (quiet : state.Quiet ip own) (held : ∀ thread, (thread, ip) ∈ after.held → (thread, ip) ∈ state.held)
    (leaving : ∀ thread, (thread, ip) ∈ after.held → state.Leaving thread ip → after.Leaving thread ip)
    (current : after.Current ip → state.Current ip) : after.Quiet ip own :=
  ⟨fun thread inside => (quiet.others thread (held thread inside)).imp id (leaving thread inside), fun here => quiet.stale (current here)⟩

omit [DecidableEq Thread] in
/-- Events that write no dinode, give out no reference and load no copy. -/
theorem Dinodes.frame (dinodes : state.Dinodes) (dinode : after.dinode = state.dinode) (live : after.live = state.live)
    (seen : ∀ saw ∈ after.seen, saw.2 = Dinode.allocated saw.1)
    (fresh : ∀ given ∈ after.fresh, given ∈ state.fresh ∧ (given.1, given.2.1) ∈ after.held)
    (held : ∀ pair ∈ after.held, pair ∈ state.held)
    (inodes : ∀ ip, 0 < (after.inode ip).ref → 0 < (state.inode ip).ref ∧ (after.inode ip).inum = (state.inode ip).inum)
    (numbers : ∀ given ∈ after.fresh, (after.inode given.2.1).inum = (state.inode given.2.1).inum)
    (current : ∀ ip, after.Current ip → state.Current ip ∧ (after.inode ip).copy.type = (state.inode ip).copy.type)
    (leaving : ∀ thread ip, (thread, ip) ∈ after.held → (after.Leaving thread ip ↔ state.Leaving thread ip))
    (claims : ∀ thread inum type, after.phase thread = .getting inum (some type) → state.phase thread = .getting inum (some type))
    (scans : ∀ thread type inum, after.phase thread = .scanning type inum → type ≠ T_UNUSE_INODE_MYFUSE) : after.Dinodes := by
  have quiet : ∀ {ip : Nat} {own : Thread → Prop}, state.Quiet ip own → after.Quiet ip own := fun quiet =>
    quiet.transport (fun thread inside => held _ inside) (fun thread inside => (leaving thread _ inside).mpr) fun here => (current _ here).1
  constructor
  case matched =>
    intro ip used here
    obtain ⟨before, same⟩ := inodes ip used
    rw [dinode, same, (current ip here).2]
    exact dinodes.matched ip before (current ip here).1
  case unused =>
    intro ip used unused
    obtain ⟨before, same⟩ := inodes ip used
    rw [dinode, same] at unused
    exact quiet (dinodes.unused ip before unused)
  case scanning => exact scans
  case claimed =>
    intro thread inum type getting
    obtain ⟨written, allocated, unlisted, alone, others⟩ := dinodes.claimed thread inum type (claims thread inum type getting)
    refine ⟨dinode ▸ written, allocated, live ▸ unlisted, fun other type' also => alone other type' (claims other inum type' also), fun ip used same => ?_⟩
    obtain ⟨before, number⟩ := inodes ip used
    exact quiet (others ip before (number ▸ same))
  case fresh =>
    intro given inside
    obtain ⟨before, still⟩ := fresh given inside
    obtain ⟨-, stays, written, type, others⟩ := dinodes.fresh given before
    refine ⟨still, fun leaves => stays ((leaving _ _ still).mp leaves), ?_, type, quiet others⟩
    rw [dinode, numbers given inside]
    exact written
  case nodup =>
    rw [live]
    exact dinodes.nodup
  case live =>
    rw [live, dinode]
    exact dinodes.live
  case seen => exact seen

/-- The two halves of what holds between the events. -/
structure Protocol (state : InodeThreads Thread) : Prop where
  table : state.Table
  dinodes : state.Dinodes

/-- While its thread neither waits for the dinode nor frees it, a locked entry is current. -/
theorem Table.current (table : state.Table) (owned : (state.inode ip).owner = some thread)
    (phase : state.phase thread ≠ .reading ip ∧ state.phase thread ≠ .invalidating ip) : state.Current ip := by
  refine ⟨(table.loaded ip thread owned).resolve_right phase.1, fun other invalidating => ?_⟩
  have placed := table.placed other
  rw [invalidating] at placed
  have same : other = thread := Option.some.inj (placed.1.symm.trans owned)
  exact phase.2 (same ▸ invalidating)

/-- A current entry serves neither a claimed number nor one that its thread has yet to lock. -/
theorem Dinodes.settled (dinodes : state.Dinodes) (table : state.Table) (used : 0 < (state.inode ip).ref) (current : state.Current ip) :
    (∀ thread type, state.phase thread ≠ .getting (state.inode ip).inum (some type)) ∧
      ∀ given ∈ state.fresh, (state.inode given.2.1).inum ≠ (state.inode ip).inum := by
  refine ⟨fun thread type getting => ?_, fun given inside same => ?_⟩
  · exact ((dinodes.claimed thread _ type getting).quiet ip used rfl).stale current
  · have fresh := dinodes.fresh given inside
    have here := table.unique given.2.1 ip (table.ref_pos fresh.held) used same
    rw [← here] at current
    exact fresh.quiet.stale current

/-- Writing the copy of a current entry to its dinode: `iupdate`, and the truncation of `iput`. -/
theorem Dinodes.store (dinodes : state.Dinodes) (table : state.Table) (used : 0 < (state.inode ip).ref) (current : state.Current ip)
    {written : Dinode} (type : written.type = (state.inode ip).copy.type)
    (dinode : after.dinode = assign state.dinode (state.inode ip).inum written)
    (here : after.inode ip = { state.inode ip with copy := written })
    (elsewhere : ∀ other, other ≠ ip → after.inode other = state.inode other)
    (rest : after.live = state.live ∧ after.seen = state.seen ∧ after.fresh = state.fresh ∧ after.held = state.held)
    (leaving : ∀ thread place, (after.phase thread = .invalidating place ↔ state.phase thread = .invalidating place) ∧
      (after.phase thread = .dropping place ↔ state.phase thread = .dropping place))
    (outside : ∀ thread, (∀ type inum, after.phase thread = .scanning type inum → state.phase thread = .scanning type inum) ∧
      ∀ inum type, after.phase thread = .getting inum type → state.phase thread = .getting inum type) : after.Dinodes := by
  obtain ⟨live, seen, fresh, held⟩ := rest
  obtain ⟨unclaimed, locked⟩ := dinodes.settled table used current
  have allocated : written.type ≠ T_UNUSE_INODE_MYFUSE := type ▸ (dinodes.matched ip used current).2
  have same_entry : ∀ other, (after.inode other).ref = (state.inode other).ref ∧ (after.inode other).inum = (state.inode other).inum ∧
      (after.inode other).valid = (state.inode other).valid := by
    intro other
    by_cases this_one : other = ip
    · rw [this_one, here]
      exact ⟨rfl, rfl, rfl⟩
    · rw [elsewhere other this_one]
      exact ⟨rfl, rfl, rfl⟩
  have current_before : ∀ other, after.Current other → state.Current other := fun other now =>
    ⟨(same_entry other).2.2 ▸ now.1, fun thread invalidating => now.2 thread ((leaving thread other).1.mpr invalidating)⟩
  have quiet : ∀ {other : Nat} {own : Thread → Prop}, state.Quiet other own → after.Quiet other own := fun quiet =>
    quiet.transport (fun thread inside => held ▸ inside)
      (fun thread _ leaves => leaves.imp (leaving thread _).1.mpr (leaving thread _).2.mpr) (current_before _)
  have other_number : ∀ other, other ≠ ip → 0 < (state.inode other).ref → (state.inode other).inum ≠ (state.inode ip).inum :=
    fun other apart also same => apart (table.unique other ip also used same)
  constructor
  case matched =>
    intro other also now
    rw [(same_entry other).1] at also
    by_cases this_one : other = ip
    · rw [this_one, dinode, here]
      exact ⟨congrArg Dinode.type (assign_self _ _ _), allocated⟩
    · rw [elsewhere other this_one, dinode, assign_of_ne (other_number other this_one also)]
      exact dinodes.matched other also (current_before other now)
  case unused =>
    intro other also unused
    rw [(same_entry other).1] at also
    rw [(same_entry other).2.1, dinode] at unused
    by_cases this_one : other = ip
    · rw [this_one, assign_self] at unused
      exact absurd unused allocated
    · rw [assign_of_ne (other_number other this_one also)] at unused
      exact quiet (dinodes.unused other also unused)
  case scanning => exact fun thread type inum now => dinodes.scanning thread type inum ((outside thread).1 type inum now)
  case claimed =>
    intro thread inum type now
    have before := (outside thread).2 inum (some type) now
    obtain ⟨claim, allocated, unlisted, alone, others⟩ := dinodes.claimed thread inum type before
    refine ⟨?_, allocated, live ▸ unlisted, fun other type' also => alone other type' ((outside other).2 inum (some type') also), fun other also same => ?_⟩
    · have apart : inum ≠ (state.inode ip).inum := by
        rintro rfl
        exact unclaimed thread type before
      rw [dinode, assign_of_ne apart]
      exact claim
    · rw [(same_entry other).1] at also
      rw [(same_entry other).2.1] at same
      exact quiet (others other also same)
  case fresh =>
    intro given inside
    rw [fresh] at inside
    obtain ⟨own, stays, claim, allocated, others⟩ := dinodes.fresh given inside
    refine ⟨held ▸ own, fun leaves => stays (leaves.imp (leaving _ _).1.mp (leaving _ _).2.mp), ?_, allocated, quiet others⟩
    rw [(same_entry given.2.1).2.1, dinode, assign_of_ne (locked given inside)]
    exact claim
  case nodup =>
    rw [live]
    exact dinodes.nodup
  case live =>
    intro inum inside
    rw [live] at inside
    rw [dinode, assign_apply]
    split
    · exact allocated
    · exact dinodes.live inum inside
  case seen =>
    rw [seen]
    exact dinodes.seen

/-- The last write of `iput`: the number is free. -/
theorem Dinodes.free (dinodes : state.Dinodes) (table : state.Table) (phase : state.phase thread = .freeing ip) (now : Timespec) :
    ∀ after, state.advance thread now (.freeing ip) = some after → after.Dinodes := by
  rintro _ ⟨⟩
  have placed := table.placed thread
  rw [phase] at placed
  obtain ⟨owned, single⟩ := placed
  have used : 0 < (state.inode ip).ref := by omega
  have current := table.current owned ⟨by rw [phase]; exact fun same => (by cases same), by rw [phase]; exact fun same => (by cases same)⟩
  obtain ⟨unclaimed, locked⟩ := dinodes.settled table used current
  set written : Dinode := { (state.inode ip).copy with type := T_UNUSE_INODE_MYFUSE, st_ctimespec := now } with written_eq
  set after : InodeThreads Thread :=
    { state with
      inode := assign state.inode ip { state.inode ip with copy := written }
      dinode := assign state.dinode (state.inode ip).inum written
      live := state.live.erase (state.inode ip).inum
      phase := assign state.phase thread (.invalidating ip) } with after_eq
  show after.Dinodes
  have other_number : ∀ other, other ≠ ip → 0 < (state.inode other).ref → (state.inode other).inum ≠ (state.inode ip).inum :=
    fun other apart also same => apart (table.unique other ip also used same)
  have here : after.inode ip = { state.inode ip with copy := written } := assign_self _ _ _
  have elsewhere : ∀ other, other ≠ ip → after.inode other = state.inode other := fun other apart => assign_of_ne apart _ _
  have mine : after.phase thread = .invalidating ip := assign_self _ _ _
  have phases : ∀ other, other ≠ thread → after.phase other = state.phase other := fun other apart => assign_of_ne apart _ _
  have same_entry : ∀ other, (after.inode other).ref = (state.inode other).ref ∧ (after.inode other).inum = (state.inode other).inum ∧
      (after.inode other).valid = (state.inode other).valid := by
    intro other
    by_cases this_one : other = ip
    · rw [this_one, here]
      exact ⟨rfl, rfl, rfl⟩
    · rw [elsewhere other this_one]
      exact ⟨rfl, rfl, rfl⟩
  have leaves_after : ∀ other place, state.Leaving other place → after.Leaving other place := by
    intro other place leaves
    have apart : other ≠ thread := fun same => by
      rw [same, Leaving, phase] at leaves
      rcases leaves with same | same <;> cases same
    rw [Leaving, phases other apart]
    exact leaves
  have current_before : ∀ other, after.Current other → state.Current other := by
    intro other now
    refine ⟨(same_entry other).2.2 ▸ now.1, fun holder invalidating => ?_⟩
    have apart : holder ≠ thread := fun same => by
      rw [same, phase] at invalidating
      cases invalidating
    exact now.2 holder ((phases holder apart).trans invalidating)
  have quiet : ∀ {other : Nat} {own : Thread → Prop}, state.Quiet other own → after.Quiet other own := fun quiet =>
    quiet.transport (fun _ inside => inside) (fun other _ leaves => leaves_after other _ leaves) (current_before _)
  have getting_before : ∀ other inum type, after.phase other = .getting inum type → other ≠ thread ∧ state.phase other = .getting inum type := by
    intro other inum type now
    have apart : other ≠ thread := fun same => by
      rw [same, mine] at now
      cases now
    exact ⟨apart, (phases other apart).symm.trans now⟩
  constructor
  case matched =>
    intro other also now
    have apart : other ≠ ip := fun same => now.2 thread (same ▸ mine)
    rw [elsewhere other apart] at also ⊢
    show (assign state.dinode _ _ _).type = _ ∧ _
    rw [assign_of_ne (other_number other apart also)]
    exact dinodes.matched other also (current_before other now)
  case unused =>
    intro other also unused
    by_cases this_one : other = ip
    · subst this_one
      exact ⟨fun holder inside => .inr (.inl (table.freeing_alone (.inr phase) inside ▸ mine)), fun now => now.2 thread mine⟩
    · rw [elsewhere other this_one] at also unused
      have unused : (assign state.dinode (state.inode ip).inum written (state.inode other).inum).type = T_UNUSE_INODE_MYFUSE := unused
      rw [assign_of_ne (other_number other this_one also)] at unused
      exact quiet (dinodes.unused other also unused)
  case scanning =>
    intro other type inum scanning
    have apart : other ≠ thread := fun same => by
      rw [same, mine] at scanning
      cases scanning
    exact dinodes.scanning other type inum ((phases other apart).symm.trans scanning)
  case claimed =>
    intro other inum type now
    obtain ⟨-, before⟩ := getting_before other inum (some type) now
    obtain ⟨claim, allocated, unlisted, alone, others⟩ := dinodes.claimed other inum type before
    refine ⟨?_, allocated, fun inside => unlisted (List.mem_of_mem_erase inside),
      fun another type' also => alone another type' (getting_before another inum (some type') also).2, fun place also same => ?_⟩
    · have apart : inum ≠ (state.inode ip).inum := by
        rintro rfl
        exact unclaimed other type before
      exact (assign_of_ne apart _ _).trans claim
    · rw [(same_entry place).1] at also
      rw [(same_entry place).2.1] at same
      exact quiet (others place also same)
  case fresh =>
    intro given inside
    obtain ⟨own, stays, claim, allocated, others⟩ := dinodes.fresh given inside
    refine ⟨own, fun leaves => ?_, ?_, allocated, quiet others⟩
    · by_cases same : given.1 = thread
      · rw [same, Leaving, mine] at leaves
        have place : given.2.1 = ip := by
          rcases leaves with same | same
          · cases same
            rfl
          · cases same
        exact locked given inside (place ▸ rfl)
      · rw [Leaving, phases _ same] at leaves
        exact stays leaves
    · rw [(same_entry given.2.1).2.1]
      exact (assign_of_ne (locked given inside) _ _).trans claim
  case nodup => exact dinodes.nodup.erase _
  case live =>
    intro inum inside
    obtain ⟨apart, before⟩ := (dinodes.nodup.mem_erase_iff).mp inside
    show (assign state.dinode (state.inode ip).inum written inum).type ≠ _
    rw [assign_of_ne apart]
    exact dinodes.live inum before
  case seen => exact dinodes.seen

/-- `ialloc` takes an unused number. -/
theorem Dinodes.claim (dinodes : state.Dinodes) {type : BitVec 16} (phase : state.phase thread = .scanning type inum)
    (free : (state.dinode inum).type = T_UNUSE_INODE_MYFUSE) :
    ({ state with dinode := assign state.dinode inum (Dinode.allocated type) }.enter thread (.getting inum (some type))).Dinodes := by
  set after := { state with dinode := assign state.dinode inum (Dinode.allocated type) }.enter thread (.getting inum (some type)) with after_eq
  have allocated := dinodes.scanning thread type inum phase
  have mine : after.phase thread = .getting inum (some type) := assign_self _ _ _
  have phases : ∀ other, other ≠ thread → after.phase other = state.phase other := fun other apart => assign_of_ne apart _ _
  have leaving : ∀ other place, after.Leaving other place ↔ state.Leaving other place := by
    intro other place
    by_cases same : other = thread
    · rw [Leaving, Leaving, same, mine, phase]
      simp only [reduceCtorEq, or_self]
    · rw [Leaving, Leaving, phases other same]
  have current_before : ∀ other, after.Current other → state.Current other := by
    refine fun other now => ⟨now.1, fun holder invalidating => ?_⟩
    have apart : holder ≠ thread := fun same => by
      rw [same, phase] at invalidating
      cases invalidating
    exact now.2 holder ((phases holder apart).trans invalidating)
  have quiet : ∀ {other : Nat} {own : Thread → Prop}, state.Quiet other own → after.Quiet other own := fun quiet =>
    quiet.transport (fun _ inside => inside) (fun other _ leaves => (leaving other _).mpr leaves) (current_before _)
  -- A claimed dinode has a type, so this number is nobody else's.
  have unclaimed : ∀ other type', state.phase other ≠ .getting inum (some type') := by
    intro other type' getting
    have claimed := dinodes.claimed other inum type' getting
    rw [claimed.written] at free
    exact claimed.type free
  constructor
  case matched =>
    intro other used now
    show (assign state.dinode inum (Dinode.allocated type) (state.inode other).inum).type = _ ∧ _
    have before := current_before other now
    have apart : (state.inode other).inum ≠ inum := fun same => (dinodes.unused other used (same ▸ free)).stale before
    rw [assign_of_ne apart]
    exact dinodes.matched other used before
  case unused =>
    intro other used unused
    have unused : (assign state.dinode inum (Dinode.allocated type) (state.inode other).inum).type = T_UNUSE_INODE_MYFUSE := unused
    rw [assign_apply] at unused
    split at unused
    · exact absurd unused allocated
    · exact quiet (dinodes.unused other used unused)
  case scanning =>
    intro other type' inum' scanning
    have apart : other ≠ thread := fun same => by
      rw [same, mine] at scanning
      cases scanning
    exact dinodes.scanning other type' inum' ((phases other apart).symm.trans scanning)
  case claimed =>
    intro other inum' type' getting
    by_cases same : other = thread
    · rw [same, mine] at getting
      cases getting
      subst same
      refine ⟨assign_self _ _ _, allocated, fun inside => dinodes.live inum inside free, fun another type' also => ?_, fun place used here => ?_⟩
      · by_contra apart
        exact unclaimed another type' ((phases another apart).symm.trans also)
      · have here : (state.inode place).inum = inum := here
        exact quiet (dinodes.unused place used (here ▸ free))
    · rw [phases other same] at getting
      have apart : inum' ≠ inum := by
        rintro rfl
        exact unclaimed other type' getting
      obtain ⟨claim, allocated, unlisted, alone, others⟩ := dinodes.claimed other inum' type' getting
      refine ⟨(assign_of_ne apart _ _).trans claim, allocated, unlisted, fun another type'' also => ?_, fun place used here => quiet (others place used here)⟩
      have moved : another ≠ thread := fun eq => by
        rw [eq, mine] at also
        cases also
        exact apart rfl
      exact alone another type'' ((phases another moved).symm.trans also)
  case fresh =>
    intro given inside
    obtain ⟨own, stays, claim, allocated, others⟩ := dinodes.fresh given inside
    refine ⟨own, fun leaves => stays ((leaving _ _).mp leaves), ?_, allocated, quiet others⟩
    have apart : (state.inode given.2.1).inum ≠ inum := by
      rintro rfl
      rw [claim] at free
      exact allocated free
    exact (assign_of_ne apart _ _).trans claim
  case nodup => exact dinodes.nodup
  case live =>
    intro other inside
    show (assign state.dinode inum (Dinode.allocated type) other).type ≠ _
    rw [assign_apply]
    split
    · exact allocated
    · exact dinodes.live other inside
  case seen => exact dinodes.seen

theorem mem_isGift {given : Thread × Nat × BitVec 16} : isGift thread ip given = true ↔ given.1 = thread ∧ given.2.1 = ip := decide_eq_true_iff

/-- The copy is read, and the thread has the lock. -/
theorem Dinodes.load (dinodes : state.Dinodes) (table : state.Table) (phase : state.phase thread = .reading ip)
    (typed : (state.dinode (state.inode ip).inum).type ≠ T_UNUSE_INODE_MYFUSE) :
    ((state.setInode ip { state.inode ip with copy := state.dinode (state.inode ip).inum, valid := true }).lockTaken thread ip).Dinodes := by
  set after := (state.setInode ip { state.inode ip with copy := state.dinode (state.inode ip).inum, valid := true }).lockTaken thread ip with after_eq
  have owned : (state.inode ip).owner = some thread := by
    have placed := table.placed thread
    rw [phase] at placed
    exact placed
  have own := table.owner ip thread owned
  have here : after.inode ip = { state.inode ip with copy := state.dinode (state.inode ip).inum, valid := true } := assign_self _ _ _
  have elsewhere : ∀ other, other ≠ ip → after.inode other = state.inode other := fun other apart => assign_of_ne apart _ _
  have mine : after.phase thread = .idle := assign_self _ _ _
  have phases : ∀ other, other ≠ thread → after.phase other = state.phase other := fun other apart => assign_of_ne apart _ _
  have not_leaving : ∀ place, ¬ state.Leaving thread place := by
    intro place leaves
    rw [Leaving, phase] at leaves
    rcases leaves with same | same <;> cases same
  have leaving : ∀ other place, after.Leaving other place ↔ state.Leaving other place := by
    intro other place
    by_cases same : other = thread
    · subst same
      refine iff_of_false (fun leaves => ?_) (not_leaving place)
      rw [Leaving, mine] at leaves
      rcases leaves with same | same <;> cases same
    · rw [Leaving, Leaving, phases other same]
  have current_before : ∀ other, other ≠ ip → after.Current other → state.Current other := by
    intro other apart now
    refine ⟨elsewhere other apart ▸ now.1, fun holder invalidating => ?_⟩
    have moved : holder ≠ thread := fun same => by
      rw [same, phase] at invalidating
      cases invalidating
    exact now.2 holder ((phases holder moved).trans invalidating)
  have quiet : ∀ {other : Nat} {own : Thread → Prop}, other ≠ ip → state.Quiet other own → after.Quiet other own := fun apart quiet =>
    quiet.transport (fun _ inside => inside) (fun other _ leaves => (leaving other _).mpr leaves) (current_before _ apart)
  have same_entry : ∀ other, (after.inode other).ref = (state.inode other).ref ∧ (after.inode other).inum = (state.inode other).inum := by
    intro other
    by_cases this_one : other = ip
    · rw [this_one, here]
      exact ⟨rfl, rfl⟩
    · rw [elsewhere other this_one]
      exact ⟨rfl, rfl⟩
  constructor
  case matched =>
    intro other used now
    by_cases this_one : other = ip
    · rw [this_one, here]
      exact ⟨rfl, typed⟩
    · rw [elsewhere other this_one] at used ⊢
      exact dinodes.matched other used (current_before other this_one now)
  case unused =>
    intro other used unused
    rw [(same_entry other).1] at used
    rw [(same_entry other).2] at unused
    have apart : other ≠ ip := fun same => typed (same ▸ unused)
    exact quiet apart (dinodes.unused other used unused)
  case scanning =>
    intro other type inum scanning
    have apart : other ≠ thread := fun same => by
      rw [same, mine] at scanning
      cases scanning
    exact dinodes.scanning other type inum ((phases other apart).symm.trans scanning)
  case claimed =>
    have before : ∀ other inum type, after.phase other = .getting inum (some type) → state.phase other = .getting inum (some type) := by
      intro other inum type getting
      have apart : other ≠ thread := fun same => by
        rw [same, mine] at getting
        cases getting
      exact (phases other apart).symm.trans getting
    intro other inum type getting
    obtain ⟨claim, allocated, unlisted, alone, others⟩ := dinodes.claimed other inum type (before other inum type getting)
    refine ⟨claim, allocated, unlisted, fun another type' also => alone another type' (before another inum type' also), fun place used same => ?_⟩
    rw [(same_entry place).1] at used
    rw [(same_entry place).2] at same
    have still := others place used same
    refine quiet (fun this_one => ?_) still
    subst this_one
    exact (still.others thread own).elim id (not_leaving place)
  case fresh =>
    intro given inside
    obtain ⟨inside, other_one⟩ := List.mem_filter.mp inside
    obtain ⟨held, stays, claim, allocated, others⟩ := dinodes.fresh given inside
    have apart : given.2.1 ≠ ip := by
      intro same
      rcases others.others thread (same ▸ own) with mine | leaves
      · exact absurd (mem_isGift.mpr ⟨mine.symm, same⟩) (by simpa using other_one)
      · exact not_leaving _ leaves
    refine ⟨held, fun leaves => stays ((leaving _ _).mp leaves), ?_, allocated, quiet apart others⟩
    rw [(same_entry given.2.1).2]
    exact claim
  case nodup => exact dinodes.nodup
  case live => exact dinodes.live
  case seen =>
    intro saw inside
    rcases List.mem_append.mp inside with now | before
    · obtain ⟨given, gift, rfl⟩ := List.mem_map.mp now
      obtain ⟨inside, mine⟩ := List.mem_filter.mp gift
      obtain ⟨-, same⟩ := mem_isGift.mp mine
      have fresh := dinodes.fresh given inside
      show ((state.setInode ip { state.inode ip with copy := state.dinode (state.inode ip).inum, valid := true }).inode ip).copy = _
      rw [setInode_self]
      exact same ▸ fresh.written
    · exact dinodes.seen saw before

/-- The entry found, or an empty one. -/
def Serves (state : InodeThreads Thread) (ip inum : Nat) (valid : Bool) : Prop :=
  (state.inode ip).inum = inum ∧ valid = (state.inode ip).valid ∧ 0 < (state.inode ip).ref ∨
    (state.inode ip).ref = 0 ∧ valid = false ∧ ∀ other, 0 < (state.inode other).ref → (state.inode other).inum ≠ inum

/-- `iget` for a number in use, or for the number that the thread has claimed. -/
theorem Dinodes.gain (dinodes : state.Dinodes) (table : state.Table) {valid : Bool} {type : Option (BitVec 16)}
    (phase : state.phase thread = .getting inum type) (sound : type = none → state.InUse inum) (serves : state.Serves ip inum valid) :
    ((state.setInode ip { state.inode ip with inum, ref := (state.inode ip).ref + 1, valid }).give thread inum ip type).Dinodes := by
  set base := state.setInode ip { state.inode ip with inum, ref := (state.inode ip).ref + 1, valid } with base_eq
  have here : base.inode ip = { state.inode ip with inum, ref := (state.inode ip).ref + 1, valid } := assign_self _ _ _
  have elsewhere : ∀ other, other ≠ ip → base.inode other = state.inode other := fun other apart => assign_of_ne apart _ _
  have typed : (state.dinode inum).type ≠ T_UNUSE_INODE_MYFUSE := by
    cases type with
    | none => exact (sound rfl).allocated
    | some type =>
      have claimed := dinodes.claimed thread inum type phase
      rw [claimed.written]
      exact claimed.type
  have unclaimed : ∀ other type', other ≠ thread → state.phase other ≠ .getting inum (some type') := by
    intro other type' apart getting
    cases type with
    | none => exact (sound rfl).given other type' getting
    | some type => exact apart ((dinodes.claimed thread inum type phase).alone other type' getting)
  have not_fresh : ∀ given ∈ state.fresh, given.2.1 ≠ ip := by
    intro given inside same
    have fresh := dinodes.fresh given inside
    rcases serves with ⟨found, -, used⟩ | ⟨unused, -⟩
    · cases type with
      | none => exact (sound rfl).locked given inside (same ▸ found)
      | some type =>
        have quiet := (dinodes.claimed thread inum type phase).quiet ip used found
        exact (quiet.others given.1 (same ▸ fresh.held)).elim id (same ▸ fresh.stays)
    · have used := table.ref_pos fresh.held
      rw [same, unused] at used
      exact absurd used (by decide)
  -- The parts that are the same with and without a type.
  have common : ∀ after : InodeThreads Thread, after.inode = base.inode → after.dinode = state.dinode → after.held = (thread, ip) :: state.held →
      after.phase = assign state.phase thread .idle →
      (∀ {other : Nat} {own : Thread → Prop}, other ≠ ip → state.Quiet other own → after.Quiet other own) ∧
      (∀ other, 0 < (after.inode other).ref → after.Current other →
        (after.dinode (after.inode other).inum).type = (after.inode other).copy.type ∧ (after.inode other).copy.type ≠ T_UNUSE_INODE_MYFUSE) ∧
      (∀ other, 0 < (after.inode other).ref → (after.dinode (after.inode other).inum).type = T_UNUSE_INODE_MYFUSE → after.Quiet other fun _ => False) ∧
      (∀ other type inum, after.phase other = .scanning type inum → type ≠ T_UNUSE_INODE_MYFUSE) ∧
      (∀ other inum' type', after.phase other = .getting inum' (some type') → other ≠ thread ∧ inum' ≠ inum ∧ state.phase other = .getting inum' (some type')) ∧
      ∀ other place, after.Leaving other place ↔ state.Leaving other place := by
    intro after inodes dinode held moved
    have mine : after.phase thread = .idle := by rw [moved, assign_self]
    have phases : ∀ other, other ≠ thread → after.phase other = state.phase other := fun other apart => by rw [moved, assign_of_ne apart]
    have leaving : ∀ other place, after.Leaving other place ↔ state.Leaving other place := by
      intro other place
      by_cases same : other = thread
      · rw [Leaving, Leaving, same, mine, phase]
        simp only [reduceCtorEq, or_self]
      · rw [Leaving, Leaving, phases other same]
    have invalidating : ∀ other place, state.phase other = .invalidating place → after.phase other = .invalidating place := by
      intro other place now
      have apart : other ≠ thread := fun same => by
        rw [same, phase] at now
        cases now
      exact (phases other apart).trans now
    have current_before : ∀ other, other ≠ ip → after.Current other → state.Current other := fun other apart now =>
      ⟨by rw [← elsewhere other apart, ← inodes]; exact now.1, fun holder before => now.2 holder (invalidating holder other before)⟩
    have quiet : ∀ {other : Nat} {own : Thread → Prop}, other ≠ ip → state.Quiet other own → after.Quiet other own := by
      intro other own apart quiet
      refine quiet.transport (fun holder inside => ?_) (fun holder _ leaves => (leaving holder _).mpr leaves) (current_before other apart)
      rw [held, List.mem_cons] at inside
      exact inside.resolve_left fun same => apart (congrArg Prod.snd same)
    refine ⟨quiet, fun other used now => ?_, fun other used unused => ?_, fun other type' inum' scanning => ?_, fun other inum' type' getting => ?_, leaving⟩
    · rw [dinode]
      by_cases this_one : other = ip
      · subst this_one
        have now_valid := now.1
        rw [inodes, here] at now_valid ⊢
        rcases serves with ⟨found, same, used⟩ | ⟨-, invalid, -⟩
        · have before : state.Current other :=
            ⟨same ▸ now_valid, fun holder before => now.2 holder (invalidating holder other before)⟩
          show (state.dinode inum).type = _ ∧ _
          rw [← found]
          exact dinodes.matched other used before
        · rw [invalid] at now_valid
          cases now_valid
      · rw [inodes, elsewhere other this_one] at used ⊢
        exact dinodes.matched other used (current_before other this_one now)
    · rw [dinode] at unused
      by_cases this_one : other = ip
      · subst this_one
        rw [inodes, here] at unused
        exact absurd unused typed
      · rw [inodes, elsewhere other this_one] at used unused
        exact quiet this_one (dinodes.unused other used unused)
    · have apart : other ≠ thread := fun same => by
        rw [same, mine] at scanning
        cases scanning
      exact dinodes.scanning other type' inum' ((phases other apart).symm.trans scanning)
    · have apart : other ≠ thread := fun same => by
        rw [same, mine] at getting
        cases getting
      rw [phases other apart] at getting
      refine ⟨apart, ?_, getting⟩
      rintro rfl
      exact unclaimed other type' apart getting
  have claims : ∀ after : InodeThreads Thread, after.inode = base.inode → after.dinode = state.dinode → after.held = (thread, ip) :: state.held →
      after.phase = assign state.phase thread .idle → (∀ other ∈ after.live, other ∈ state.live ∨ other = inum) →
      ∀ other inum' type', after.phase other = .getting inum' (some type') → after.Claimed other inum' type' := by
    intro after inodes dinode held moved listed other inum' type' getting
    obtain ⟨quiet, -, -, -, before, -⟩ := common after inodes dinode held moved
    obtain ⟨-, other_number, was⟩ := before other inum' type' getting
    obtain ⟨claim, allocated, unlisted, alone, others⟩ := dinodes.claimed other inum' type' was
    refine ⟨dinode ▸ claim, allocated, fun inside => (listed inum' inside).elim unlisted other_number,
      fun another type'' also => alone another type'' (before another inum' type'' also).2.2, fun place used same => ?_⟩
    rw [inodes] at used same
    have apart : place ≠ ip := by
      rintro rfl
      rw [here] at same
      exact other_number same.symm
    rw [elsewhere place apart] at used same
    exact quiet apart (others place used same)
  have old_fresh : ∀ after : InodeThreads Thread, after.inode = base.inode → after.dinode = state.dinode → after.held = (thread, ip) :: state.held →
      after.phase = assign state.phase thread .idle → ∀ given ∈ state.fresh, after.Fresh given.1 given.2.1 given.2.2 := by
    intro after inodes dinode held moved given inside
    obtain ⟨quiet, -, -, -, -, leaving⟩ := common after inodes dinode held moved
    obtain ⟨own, stays, claim, allocated, others⟩ := dinodes.fresh given inside
    refine ⟨held ▸ List.mem_cons_of_mem _ own, fun leaves => stays ((leaving _ _).mp leaves), ?_, allocated, quiet (not_fresh given inside) others⟩
    rw [dinode, inodes, elsewhere _ (not_fresh given inside)]
    exact claim
  cases type with
  | none =>
    obtain ⟨-, matched, unused, scanning, -, -⟩ := common (base.give thread inum ip none) rfl rfl rfl rfl
    exact ⟨matched, unused, scanning, claims _ rfl rfl rfl rfl fun _ inside => .inl inside, old_fresh _ rfl rfl rfl rfl,
      dinodes.nodup, dinodes.live, dinodes.seen⟩
  | some type =>
    obtain ⟨-, matched, unused, scanning, -, leaving⟩ := common (base.give thread inum ip (some type)) rfl rfl rfl rfl
    have claimed := dinodes.claimed thread inum type phase
    refine ⟨matched, unused, scanning, claims _ rfl rfl rfl rfl fun _ inside => (List.mem_cons.mp inside).symm, fun given inside => ?_,
      List.nodup_cons.mpr ⟨claimed.unlisted, dinodes.nodup⟩, fun other inside => ?_, dinodes.seen⟩
    · rcases List.mem_cons.mp inside with rfl | before
      · have stale : ∀ holder, (holder, ip) ∈ state.held → state.Leaving holder ip := by
          intro holder own
          rcases serves with ⟨found, -, used⟩ | ⟨unused, -⟩
          · exact ((claimed.quiet ip used found).others holder own).resolve_left id
          · have used := table.ref_pos own
            rw [unused] at used
            exact absurd used (by decide)
        refine ⟨List.mem_cons_self, fun leaves => ?_, ?_, claimed.type, fun holder inside => ?_, fun now => ?_⟩
        · rw [leaving, Leaving, phase] at leaves
          rcases leaves with same | same <;> cases same
        · show state.dinode (base.inode ip).inum = _
          rw [here]
          exact claimed.written
        · exact (List.mem_cons.mp inside).imp (congrArg Prod.fst) fun own => (leaving holder ip).mpr (stale holder own)
        · have now_valid : (base.inode ip).valid = true := now.1
          rw [here] at now_valid
          rcases serves with ⟨found, same, used⟩ | ⟨-, invalid, -⟩
          · refine (claimed.quiet ip used found).stale ⟨same ▸ now_valid, fun holder before => ?_⟩
            have apart : holder ≠ thread := fun eq => by
              rw [eq, phase] at before
              cases before
            exact now.2 holder ((assign_of_ne apart _ _).trans before)
          · rw [invalid] at now_valid
            cases now_valid
      · exact old_fresh (base.give thread inum ip (some type)) rfl rfl rfl rfl given before
    · rcases List.mem_cons.mp inside with rfl | before
      · exact typed
      · exact dinodes.live other before

end InodeThreads
end Myfuse
