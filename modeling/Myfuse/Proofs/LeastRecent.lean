import Myfuse.LinkedCache
import Myfuse.Proofs.HashedCache

/-! Which buffer `bget` recycles. In another list it is the least recently released one,
in the block's own list the free one nearest the end. -/

namespace Myfuse
namespace Bcache
variable {c after : Bcache} {buffers : List Nat} {b blockno hashid hidx : Nat}

def HasFree (c : Bcache) (buffers : List Nat) : Prop := ∃ b ∈ buffers, (c.buf b).refcnt = 0

/-- The list to take a buffer from: the block's own when it has a free one, or else the
first other one that has. -/
def TakesFrom (c : Bcache) (hashid hidx : Nat) : Prop :=
  (c.HasFree (c.hash hashid) ∧ hidx = hashid) ∨
    (¬ c.HasFree (c.hash hashid) ∧ hidx ≠ hashid ∧ hidx < BCACHE_HASH_SIZE ∧ c.HasFree (c.hash hidx) ∧
      ∀ earlier < hidx, earlier ≠ hashid → ¬ c.HasFree (c.hash earlier))

/-- A free buffer, and no free one of the list has an earlier time stamp. -/
def Least (c : Bcache) (buffers : List Nat) (b : Nat) : Prop :=
  b ∈ buffers ∧ (c.buf b).refcnt = 0 ∧
    ∀ other ∈ buffers, (c.buf other).refcnt = 0 → (c.buf b).timestamp ≤ (c.buf other).timestamp

def RecyclesLeast (c : Bcache) (blockno b : Nat) : Prop := ∃ hidx, c.TakesFrom (bcacheHash blockno) hidx ∧ c.Least (c.hash hidx) b

/-- The last free buffer of a list has no later time stamp than the free ones in front of it. -/
def LastIsLeast (c : Bcache) (buffers : List Nat) : Prop :=
  ∀ front b back, buffers = front ++ b :: back → (c.buf b).refcnt = 0 → (∀ behind ∈ back, (c.buf behind).refcnt ≠ 0) →
    ∀ other ∈ front, (c.buf other).refcnt = 0 → (c.buf b).timestamp ≤ (c.buf other).timestamp

/-! The running minimum of the scan. -/

/-- One turn of the scan. -/
private def keepLeast (c : Bcache) (least : Option Nat × BitVec 64) (b : Nat) : Option Nat × BitVec 64 :=
  if (c.buf b).refcnt = 0 then
    if (c.buf b).timestamp ≤ least.2 then (some b, (c.buf b).timestamp) else least
  else least

private theorem keepLeast_le (least : Option Nat × BitVec 64) (b : Nat) : (c.keepLeast least b).2 ≤ least.2 := by
  unfold keepLeast
  split
  · split
    next older => exact older
    next => exact BitVec.le_refl _
  · exact BitVec.le_refl _

private theorem keepLeast_below (least : Option Nat × BitVec 64) (free : (c.buf b).refcnt = 0) :
    (c.keepLeast least b).2 ≤ (c.buf b).timestamp := by
  unfold keepLeast
  rw [if_pos free]
  split
  next => exact BitVec.le_refl _
  next newer => exact BitVec.le_of_lt (BitVec.not_le.mp newer)

/-- The scan carries the time stamp of the buffer it keeps, and goes down only. -/
private theorem scan_least (buffers : List Nat) (least : Option Nat × BitVec 64)
    (stamped : ∀ b, least.1 = some b → least.2 = (c.buf b).timestamp) :
    (∀ b, (buffers.foldl c.keepLeast least).1 = some b → (buffers.foldl c.keepLeast least).2 = (c.buf b).timestamp) ∧
      (buffers.foldl c.keepLeast least).2 ≤ least.2 ∧
      ∀ other ∈ buffers, (c.buf other).refcnt = 0 → (buffers.foldl c.keepLeast least).2 ≤ (c.buf other).timestamp := by
  induction buffers generalizing least with
  | nil => exact ⟨stamped, BitVec.le_refl _, by simp⟩
  | cons head tail ih =>
    rw [List.foldl_cons]
    have stamped' : ∀ b, (c.keepLeast least head).1 = some b → (c.keepLeast least head).2 = (c.buf b).timestamp := by
      intro b kept
      unfold keepLeast at kept ⊢
      split
      · split
        · simp_all
        · simp_all
      · simp_all
    obtain ⟨stamp, below, all⟩ := ih (c.keepLeast least head) stamped'
    refine ⟨stamp, BitVec.le_trans below (keepLeast_le least head), fun other member free => ?_⟩
    rcases List.mem_cons.mp member with rfl | member
    · exact BitVec.le_trans below (keepLeast_below least free)
    · exact all other member free

theorem leastRecent_least (found : c.leastRecent buffers = some b) : c.Least buffers b := by
  obtain ⟨member, free⟩ := leastRecent_some found
  refine ⟨member, free, fun other inside unused => ?_⟩
  obtain ⟨stamp, -, all⟩ := scan_least (c := c) buffers (none, BitVec.allOnes 64) (by simp)
  have scanned : (buffers.foldl c.keepLeast (none, BitVec.allOnes 64)).1 = some b := found
  rw [← stamp b scanned]
  exact all other inside unused

theorem Least.reverse (least : c.Least buffers.reverse b) : c.Least buffers b := by
  obtain ⟨member, free, all⟩ := least
  exact ⟨List.mem_reverse.mp member, free, fun other inside => all other (List.mem_reverse.mpr inside)⟩

/-- The first other list with a free buffer, and its least recent one. -/
theorem victim_least (found : c.victim hashid = some (hidx, b)) : hidx ≠ hashid ∧ hidx < BCACHE_HASH_SIZE ∧
    (∀ earlier < hidx, earlier ≠ hashid → ¬ c.HasFree (c.hash earlier)) ∧ c.Least (c.hash hidx) b := by
  obtain ⟨before, index, after, split_, here, none⟩ := List.findSome?_eq_some_iff.mp found
  split at here
  · cases here
  next apart =>
    obtain ⟨other, least, same⟩ := Option.map_eq_some_iff.mp here
    obtain ⟨rfl, rfl⟩ := Prod.mk.inj same
    have range : before = List.range index ∧ index < BCACHE_HASH_SIZE := by
      have inside : index ∈ List.range BCACHE_HASH_SIZE := split_ ▸ by simp
      have small := List.mem_range.mp inside
      have length : before.length = index := by
        have at_ := congrArg (·[before.length]?) split_
        simp only [List.getElem?_append_right (Nat.le_refl _), Nat.sub_self, List.getElem?_cons_zero] at at_
        obtain ⟨_, value⟩ := List.getElem?_eq_some_iff.mp at_
        simpa using value
      refine ⟨?_, small⟩
      have front := congrArg (List.take before.length) split_
      rw [List.take_left', List.take_range, length, Nat.min_eq_left (Nat.le_of_lt small)] at front
      · exact front.symm
      · rfl
    refine ⟨apart, range.2, fun earlier sooner away => ?_, (leastRecent_least least).reverse⟩
    have missing := none earlier (range.1 ▸ List.mem_range.mpr sooner)
    rw [if_neg away, Option.map_eq_none_iff] at missing
    rintro ⟨free, member, unused⟩
    exact leastRecent_none missing free (List.mem_reverse.mpr member) unused

/-- The free buffer nearest the end of the list. -/
theorem recyclable_iff : c.recyclable hashid = some b ↔ ∃ front back, c.hash hashid = front ++ b :: back ∧
    (c.buf b).refcnt = 0 ∧ ∀ behind ∈ back, (c.buf behind).refcnt ≠ 0 := by
  have any : ∀ b, decide ((c.buf b).timestamp ≤ BitVec.allOnes 64) = true := fun b => decide_eq_true (timestamp_le _)
  simp only [recyclable, any, Bool.and_true]
  rw [List.find?_eq_some_iff_append]
  constructor
  · rintro ⟨free, before, after, shape, busy⟩
    refine ⟨after.reverse, before.reverse, by simpa using congrArg List.reverse shape, beq_iff_eq.mp free, fun behind member unused => ?_⟩
    have missed := busy behind (List.mem_reverse.mp member)
    simp [unused] at missed
  · rintro ⟨front, back, shape, free, busy⟩
    refine ⟨beq_iff_eq.mpr free, back.reverse, front.reverse, by simp [shape], fun behind member => ?_⟩
    simp [busy behind (List.mem_reverse.mp member)]

/-- A buffer that `bget` recycles is the least recently used free one of the list it comes from
exactly when the block's own list has its least recent free buffer last. -/
theorem recycles_least_iff (missing : c.cached blockno = none) (found : c.bget blockno = some (b, after)) :
    c.RecyclesLeast blockno b ↔ c.LastIsLeast (c.hash (bcacheHash blockno)) := by
  unfold bget at found
  rw [missing] at found
  split at found
  · contradiction
  split at found
  next own =>
    -- The block's own list has a free buffer.
    obtain ⟨rfl, -⟩ := Prod.mk.inj (Option.some.inj found)
    obtain ⟨front, back, shape, free, busy⟩ := recyclable_iff.mp own
    have some_ : c.HasFree (c.hash (bcacheHash blockno)) := ⟨_, (recyclable_some own).1, free⟩
    constructor
    · rintro ⟨hidx, ⟨-, rfl⟩ | ⟨none, -⟩, member, -, least⟩
      · intro front' b' back' shape' free' busy' other inside unused
        obtain rfl := Option.some.inj (own.symm.trans (recyclable_iff.mpr ⟨front', back', shape', free', busy'⟩))
        exact least other (shape' ▸ List.mem_append_left _ inside) unused
      · exact absurd some_ none
    · intro last
      refine ⟨_, .inl ⟨some_, rfl⟩, (recyclable_some own).1, free, fun other member unused => ?_⟩
      rw [shape] at member
      rcases List.mem_append.mp member with before | rest
      · exact last front _ back shape free busy other before unused
      · rcases List.mem_cons.mp rest with rfl | behind
        · exact BitVec.le_refl _
        · exact absurd unused (busy other behind)
  next none =>
    obtain ⟨⟨hidx, other⟩, taken, same⟩ := Option.map_eq_some_iff.mp found
    obtain ⟨rfl, -⟩ := Prod.mk.inj same
    obtain ⟨apart, small, first, least⟩ := victim_least taken
    have full : ¬ c.HasFree (c.hash (bcacheHash blockno)) := fun ⟨free, member, unused⟩ => recyclable_none none free member unused
    refine iff_of_true ⟨hidx, .inr ⟨full, apart, small, ⟨_, least.1, least.2.1⟩, first⟩, least⟩ ?_
    rintro front b' back shape free - - - -
    exact absurd ⟨b', shape ▸ by simp, free⟩ full

/-! Blocks 1 and 30 share a list. Block 30 is released first, but its buffer is in front. -/

/-- The cache after `bget(1)`, `bget(30)` and the releases of 30 and of 1. -/
def releasedInTurn : Option Bcache := do
  let (first, c) ← init.bget 1
  let (second, c) ← c.bget 30
  pure ((c.setBuf second (BcacheBuf.release 1)).setBuf first (BcacheBuf.release 2))

set_option maxRecDepth 10000 in
theorem releasedInTurn_seen : (releasedInTurn.map fun c => (c.cached 59, (c.bget 59).map (·.1), c.hash 1)) = some (none, some 1015, [1014, 1015]) ∧
    (releasedInTurn.map fun c => ((c.buf 1014).refcnt, (c.buf 1014).timestamp, (c.buf 1015).timestamp)) = some (0, 1, 2) := by
  decide +kernel

/-- Block 59 gets the buffer released last. -/
theorem takes_newer : ∃ c b after, releasedInTurn = some c ∧ c.cached 59 = none ∧ c.bget 59 = some (b, after) ∧
    ¬ c.RecyclesLeast 59 b := by
  obtain ⟨lists, stamps⟩ := releasedInTurn_seen
  obtain ⟨c, same, seen⟩ := Option.map_eq_some_iff.mp lists
  rw [same] at stamps
  simp only [Option.map_some, Option.some.injEq, Prod.mk.injEq] at seen stamps
  obtain ⟨missing, taken, list⟩ := seen
  obtain ⟨free, older, newer⟩ := stamps
  obtain ⟨⟨b, after⟩, found, rfl⟩ := Option.map_eq_some_iff.mp taken
  refine ⟨c, 1015, after, same, missing, found, ?_⟩
  have own : c.hash (bcacheHash 59) = [1014, 1015] := list
  have some_ : c.HasFree (c.hash (bcacheHash 59)) := ⟨1014, by simp [own], free⟩
  rintro ⟨hidx, ⟨-, rfl⟩ | ⟨none, -⟩, -, -, least⟩
  · have order := least 1014 (by simp [own]) free
    rw [newer, older] at order
    exact absurd order (by decide)
  · exact none some_

set_option maxRecDepth 10000 in
theorem init_takes : init.cached 1 = none ∧ (init.bget 1).isSome = true := by decide +kernel

theorem recycles_least_iff_first : ∃ b after, init.bget 1 = some (b, after) ∧
    (init.RecyclesLeast 1 b ↔ init.LastIsLeast (init.hash (bcacheHash 1))) := by
  obtain ⟨⟨b, after⟩, found⟩ := Option.isSome_iff_exists.mp init_takes.2
  exact ⟨b, after, found, recycles_least_iff init_takes.1 found⟩

end Bcache
end Myfuse
