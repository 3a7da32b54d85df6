import Mathlib.Data.List.Find
import Mathlib.Data.List.Nodup
import Myfuse.BufCache

/-! The buffers of `buf_cache.c` as a map from blocks to buffers: what each hash list
serves, and what a search that recycles a buffer does to it. -/

namespace Myfuse

section
variable {α : Type} [DecidableEq α] {p : α → Bool} {list : List α} {a b : α}

/-- An element that does not match does not matter. -/
theorem find_filter_ne (miss : p b = false) : (list.filter (· != b)).find? p = list.find? p := by
  rw [List.find?_filter]
  refine List.find?_congr fun x _ => ?_
  by_cases same : x = b <;> simp [same, miss]

/-- Nor does one behind the match. -/
theorem find_filter_of_found (found : list.find? p = some a) (apart : a ≠ b) :
    (list.filter (· != b)).find? p = some a := by
  induction list with
  | nil => cases found
  | cons head tail ih =>
    rw [List.find?_cons] at found
    cases hit : p head with
    | true =>
      rw [hit] at found
      obtain rfl := Option.some.inj found
      rw [List.filter_cons_of_pos (by simpa using apart), List.find?_cons, hit]
    | false =>
      rw [hit] at found
      by_cases same : head = b
      · subst same
        simpa using ih found
      · rw [List.filter_cons_of_pos (by simpa using same), List.find?_cons, hit]
        exact ih found

end

namespace Bcache
variable {c : Bcache} {b blockno hashid : Nat}

/-- The cached contents of a block, as the crash model keeps them. -/
def lookup (c : Bcache) (blockno : Nat) : Option Buf :=
  (c.cached blockno).bind fun b =>
    if (c.buf b).valid then some { data := (c.buf b).data, refcnt := (c.buf b).refcnt } else none

/-- The lists hold each buffer once, in its block's list; `handed` is the buffers given out and locked. -/
structure Serves (c : Bcache) (cache : Nat → Option Buf) (handed : Nat → Option Handle) : Prop where
  hashed : ∀ hashid b, b ∈ c.hash hashid → bcacheHash (c.buf b).blockno = hashid
  distinct : ∀ hashid, (c.hash hashid).Nodup
  covered : ∀ b < NCACHE_BUF, ∃ hashid < BCACHE_HASH_SIZE, b ∈ c.hash hashid
  /-- No list has a second buffer in front of a valid one. -/
  first : ∀ hashid b, b ∈ c.hash hashid → (c.buf b).valid = true → c.cached (c.buf b).blockno = some b
  idle : ∀ hashid b, b ∈ c.hash hashid → (c.buf b).valid = false → (c.buf b).refcnt = 0
  locked : ∀ hashid b, b ∈ c.hash hashid → ((c.buf b).locked = true ↔ handed (c.buf b).blockno = some b)
  given : ∀ blockno b, handed blockno = some b → c.cached blockno = some b ∧ (c.buf b).valid = true ∧ 0 < (c.buf b).refcnt
  served : cache = c.lookup

/-- Every buffer is on one list, that of its block. -/
structure Listed (c : Bcache) : Prop where
  hashed : ∀ hashid b, b ∈ c.hash hashid → bcacheHash (c.buf b).blockno = hashid
  distinct : ∀ hashid, (c.hash hashid).Nodup
  covered : ∀ b < NCACHE_BUF, ∃ hashid < BCACHE_HASH_SIZE, b ∈ c.hash hashid

theorem Serves.listed {cache : Nat → Option Buf} {handed : Nat → Option Handle} (serves : c.Serves cache handed) : c.Listed :=
  ⟨serves.hashed, serves.distinct, serves.covered⟩

theorem cached_some (found : c.cached blockno = some b) : b ∈ c.hash (bcacheHash blockno) ∧ (c.buf b).blockno = blockno :=
  ⟨List.mem_of_find?_eq_some found, by simpa using List.find?_some found⟩

theorem cached_none (missing : c.cached blockno = none) (member : b ∈ c.hash (bcacheHash blockno)) :
    (c.buf b).blockno ≠ blockno := by
  have := List.find?_eq_none.mp missing b member
  simpa using this

variable {cache : Nat → Option Buf} {handed : Nat → Option Handle}

theorem Serves.member (serves : c.Serves cache handed) (member : b ∈ c.hash hashid) :
    b ∈ c.hash (bcacheHash (c.buf b).blockno) := by
  rw [serves.hashed hashid b member]
  exact member

/-- A served block has a valid buffer, the one its list finds. -/
theorem Serves.cache_some (serves : c.Serves cache handed) {buf : Buf} : cache blockno = some buf ↔
    ∃ b ∈ c.hash (bcacheHash blockno), (c.buf b).blockno = blockno ∧ (c.buf b).valid = true ∧
      buf = { data := (c.buf b).data, refcnt := (c.buf b).refcnt } := by
  rw [serves.served, lookup, Option.bind_eq_some_iff]
  constructor
  · rintro ⟨b, found, valid⟩
    obtain ⟨valid, same⟩ := Option.ite_none_right_eq_some.mp valid
    obtain ⟨member, named⟩ := cached_some found
    exact ⟨b, member, named, valid, (Option.some.inj same).symm⟩
  · rintro ⟨b, member, named, valid, rfl⟩
    refine ⟨b, ?_, by rw [if_pos valid]⟩
    rw [← named]
    exact serves.first _ b member valid

theorem Serves.cache_of_cached (serves : c.Serves cache handed) (found : c.cached blockno = some b)
    (valid : (c.buf b).valid = true) : cache blockno = some { data := (c.buf b).data, refcnt := (c.buf b).refcnt } :=
  serves.cache_some.mpr ⟨b, (cached_some found).1, (cached_some found).2, valid, rfl⟩

/-- A change that leaves the block number alone moves no buffer. -/
theorem cached_setBuf {change : BcacheBuf → BcacheBuf} (named : (change (c.buf b)).blockno = (c.buf b).blockno)
    (blockno : Nat) : (c.setBuf b change).cached blockno = c.cached blockno := by
  refine List.find?_congr fun other _ => ?_
  by_cases same : other = b
  · subst same
    simp [setBuf, named]
  · simp [setBuf, Function.update_of_ne same]

/-- Changing the buffer of one block, to one that is valid and locked exactly when it is handed out. -/
theorem Serves.setBuf (serves : c.Serves cache handed) (found : c.cached blockno = some b) {change : BcacheBuf → BcacheBuf}
    {given : Option Handle} (named : (change (c.buf b)).blockno = blockno) (valid : (change (c.buf b)).valid = true)
    (locked : (change (c.buf b)).locked = true ↔ given = some b) (self : ∀ other, given = some other → other = b)
    (held : given = some b → 0 < (change (c.buf b)).refcnt) :
    (c.setBuf b change).Serves
      (Function.update cache blockno (some { data := (change (c.buf b)).data, refcnt := (change (c.buf b)).refcnt }))
      (Function.update handed blockno given) := by
  obtain ⟨member, was⟩ := cached_some found
  have lists : ∀ other, (c.setBuf b change).cached other = c.cached other := cached_setBuf (named.trans was.symm)
  have here : (c.setBuf b change).buf b = change (c.buf b) := Function.update_self _ _ _
  have elsewhere : ∀ other, other ≠ b → (c.setBuf b change).buf other = c.buf other := fun other apart =>
    Function.update_of_ne apart _ _
  have sole : ∀ hashid other, other ∈ c.hash hashid → other ≠ b → (c.buf other).valid = true →
      (c.buf other).blockno ≠ blockno := fun hashid other inside apart isValid same => by
    have := serves.first hashid other inside isValid
    rw [same, found] at this
    exact apart (Option.some.inj this).symm
  constructor
  case hashed =>
    intro hashid other inside
    by_cases same : other = b
    · subst same
      rw [here, named, ← was]
      exact serves.hashed hashid other inside
    · rw [elsewhere other same]
      exact serves.hashed hashid other inside
  case distinct => exact serves.distinct
  case covered => exact serves.covered
  case first =>
    intro hashid other inside isValid
    rw [lists]
    by_cases same : other = b
    · subst same
      rw [here, named, found]
    · rw [elsewhere other same] at isValid ⊢
      exact serves.first hashid other inside isValid
  case idle =>
    intro hashid other inside isInvalid
    by_cases same : other = b
    · subst same
      simp [here, valid] at isInvalid
    · rw [elsewhere other same] at isInvalid ⊢
      exact serves.idle hashid other inside isInvalid
  case locked =>
    intro hashid other inside
    by_cases same : other = b
    · subst same
      rw [here, named, Function.update_self]
      exact locked
    · rw [elsewhere other same, serves.locked hashid other inside]
      by_cases block : (c.buf other).blockno = blockno
      · rw [block, Function.update_self]
        refine iff_of_false (fun out => ?_) fun out => same (self other out)
        have := (serves.given _ _ out).1
        rw [found] at this
        exact same (Option.some.inj this).symm
      · rw [Function.update_of_ne block]
  case given =>
    intro block other out
    rw [lists]
    by_cases same : block = blockno
    · subst same
      rw [Function.update_self] at out
      obtain rfl := self other out
      rw [here]
      exact ⟨found, valid, held out⟩
    · rw [Function.update_of_ne same] at out
      obtain ⟨cached, isValid, referenced⟩ := serves.given block other out
      have apart : other ≠ b := by
        rintro rfl
        exact same ((cached_some cached).2.symm.trans was)
      rw [elsewhere other apart]
      exact ⟨cached, isValid, referenced⟩
  case served =>
    funext block
    rw [lookup, lists]
    by_cases same : block = blockno
    · subst same
      rw [Function.update_self, found, Option.bind_some, here, if_pos valid]
    · rw [Function.update_of_ne same, serves.served, lookup]
      cases cached : c.cached block with
      | none => rfl
      | some other =>
        have apart : other ≠ b := by
          rintro rfl
          exact same ((cached_some cached).2.symm.trans was)
        rw [Option.bind_some, Option.bind_some, elsewhere other apart]

/-- A buffer gets another block number and is then in that block's list only; the order of the others stays. -/
structure Rekeyed (c after : Bcache) (blockno b : Nat) : Prop where
  named : (after.buf b).blockno = blockno
  elsewhere : ∀ other, other ≠ b → after.buf other = c.buf other
  lists : ∀ hashid, (after.hash hashid).filter (· != b) = (c.hash hashid).filter (· != b)
  placed : ∀ hashid, b ∈ after.hash hashid ↔ hashid = bcacheHash blockno
  distinct : ∀ hashid, (after.hash hashid).Nodup

section
variable {after : Bcache} (rekeyed : Rekeyed c after blockno b)
include rekeyed

theorem Rekeyed.mem (hashid other : Nat) (apart : other ≠ b) : other ∈ after.hash hashid ↔ other ∈ c.hash hashid := by
  have same := congrArg (other ∈ ·) (rekeyed.lists hashid)
  simpa [List.mem_filter, apart] using same

/-- Another block's search skips the buffer. -/
theorem Rekeyed.search {block : Nat} (apart : block ≠ blockno) :
    after.cached block = ((c.hash (bcacheHash block)).filter (· != b)).find? fun other => (c.buf other).blockno == block := by
  have skips : ((after.hash (bcacheHash block)).filter (· != b)).find? (fun other => (after.buf other).blockno == block) =
      after.cached block := find_filter_ne (by simp [rekeyed.named, Ne.symm apart])
  rw [← skips, rekeyed.lists]
  refine List.find?_congr fun other member => ?_
  rw [rekeyed.elsewhere other (by simpa using (List.mem_filter.mp member).2)]

/-- Another block keeps its buffer. -/
theorem Rekeyed.stays {block other : Nat} (apart : block ≠ blockno) (found : c.cached block = some other) (away : other ≠ b) :
    after.cached block = some other := by
  rw [rekeyed.search apart]
  exact find_filter_of_found found away

theorem Rekeyed.self (listed : c.Listed) (missing : c.cached blockno = none) : after.cached blockno = some b := by
  have some : (after.cached blockno).isSome = true := by
    unfold cached
    rw [List.find?_isSome]
    exact ⟨b, (rekeyed.placed _).mpr rfl, by simp [rekeyed.named]⟩
  obtain ⟨found, cached⟩ := Option.isSome_iff_exists.mp some
  obtain ⟨member, same⟩ := cached_some cached
  by_cases other : found = b
  · rw [cached, other]
  · rw [rekeyed.elsewhere found other] at same
    have before := (rekeyed.mem _ found other).mp member
    exact absurd same (cached_none missing (listed.hashed _ _ before ▸ same ▸ before))

theorem Rekeyed.listed (listed : c.Listed) : after.Listed where
  hashed hashid other member := by
    by_cases same : other = b
    · subst same
      rw [rekeyed.named]
      exact ((rekeyed.placed hashid).mp member).symm
    · rw [rekeyed.elsewhere other same]
      exact listed.hashed hashid other ((rekeyed.mem hashid other same).mp member)
  distinct := rekeyed.distinct
  covered other small := by
    by_cases same : other = b
    · exact ⟨bcacheHash blockno, Nat.mod_lt _ (by decide), by rw [same, rekeyed.placed]⟩
    · obtain ⟨hashid, bound, member⟩ := listed.covered other small
      exact ⟨hashid, bound, (rekeyed.mem hashid other same).mpr member⟩

end

/-- Taking over a free buffer for a block that has none: its old block is no longer served. -/
theorem Serves.takeover (serves : c.Serves cache handed) (missing : c.cached blockno = none) {after : Bcache}
    (inList : b ∈ c.hash hashid) (free : (c.buf b).refcnt = 0) (named : (after.buf b).blockno = blockno)
    (valid : (after.buf b).valid = true) (locked : (after.buf b).locked = true) (held : (after.buf b).refcnt = 1)
    (elsewhere : ∀ other, other ≠ b → after.buf other = c.buf other)
    (lists : ∀ hashid, (after.hash hashid).filter (· != b) = (c.hash hashid).filter (· != b))
    (placed : ∀ hashid, b ∈ after.hash hashid ↔ hashid = bcacheHash blockno)
    (distinct : ∀ hashid, (after.hash hashid).Nodup) :
    after.Serves
      (Function.update
        (fun block => (cache block).filter fun buf =>
          !(buf.refcnt == 0 && (block == (c.buf b).blockno && (c.buf b).valid)))
        blockno (some { data := (after.buf b).data, refcnt := 1 }))
      (Function.update handed blockno (some b)) := by
  have rekeyed : Rekeyed c after blockno b := ⟨named, elsewhere, lists, placed, distinct⟩
  have listed := serves.listed
  have inside := rekeyed.mem
  have notHere : ∀ hashid other, other ∈ c.hash hashid → (c.buf other).blockno ≠ blockno :=
    fun hashid other member same => cached_none missing (same ▸ serves.member member) same
  have self := rekeyed.self listed missing
  have listed' := rekeyed.listed listed
  constructor
  case hashed => exact listed'.hashed
  case distinct => exact listed'.distinct
  case covered => exact listed'.covered
  case first =>
    intro hashid other member isValid
    by_cases same : other = b
    · rw [same, named, self]
    · rw [elsewhere other same] at isValid ⊢
      have before := (inside hashid other same).mp member
      exact rekeyed.stays (notHere hashid other before) (serves.first hashid other before isValid) same
  case idle =>
    intro hashid other member isInvalid
    by_cases same : other = b
    · simp [same, valid] at isInvalid
    · rw [elsewhere other same] at isInvalid ⊢
      exact serves.idle hashid other ((inside hashid other same).mp member) isInvalid
  case locked =>
    intro hashid other member
    by_cases same : other = b
    · rw [same, named, Function.update_self]
      simp [locked]
    · have before := (inside hashid other same).mp member
      rw [elsewhere other same, Function.update_of_ne (notHere hashid other before)]
      exact serves.locked hashid other before
  case given =>
    intro block other out
    by_cases same : block = blockno
    · subst same
      rw [Function.update_self, Option.some.injEq] at out
      subst out
      exact ⟨self, valid, by omega⟩
    · rw [Function.update_of_ne same] at out
      obtain ⟨cached, isValid, referenced⟩ := serves.given block other out
      have away : other ≠ b := by
        rintro rfl
        omega
      rw [elsewhere other away]
      exact ⟨rekeyed.stays same cached away, isValid, referenced⟩
  case served =>
    funext block
    rw [lookup]
    by_cases same : block = blockno
    · rw [same, Function.update_self, self, Option.bind_some, if_pos valid, held]
    rw [Function.update_of_ne same, serves.served, lookup]
    cases found : c.cached block with
    | none =>
      rw [rekeyed.search same]
      have absent : ((c.hash (bcacheHash block)).filter (· != b)).find? (fun other => (c.buf other).blockno == block) = none :=
        List.find?_eq_none.mpr fun other member => List.find?_eq_none.mp found other (List.mem_filter.mp member).1
      rw [absent]
      rfl
    | some other =>
      obtain ⟨member, its⟩ := cached_some found
      by_cases away : other = b
      · -- The block that loses its buffer.
        subst away
        have before : ((some other).bind fun b =>
            if (c.buf b).valid then some ({ data := (c.buf b).data, refcnt := (c.buf b).refcnt } : Buf) else none).filter
              (fun buf => !(buf.refcnt == 0 && (block == (c.buf other).blockno && (c.buf other).valid))) = none := by
          cases isValid : (c.buf other).valid <;> simp [isValid, free, its]
        rw [before]
        cases next : after.cached block with
        | none => rfl
        | some twin =>
          obtain ⟨twinMember, twinNamed⟩ := cached_some next
          have apart : twin ≠ other := by
            rintro rfl
            exact same (twinNamed.symm.trans named)
          rw [elsewhere twin apart] at twinNamed
          have stale : (c.buf twin).valid = false := by
            by_contra isValid
            have := serves.first _ twin ((inside _ twin apart).mp twinMember) (Bool.not_eq_false _ ▸ isValid)
            rw [twinNamed, found] at this
            exact apart (Option.some.inj this).symm
          rw [Option.bind_some, elsewhere twin apart, stale]
          rfl
      · rw [rekeyed.stays same found away, Option.bind_some, Option.bind_some, elsewhere other away]
        cases isValid : (c.buf other).valid with
        | false => rfl
        | true =>
          have kept : (block == (c.buf b).blockno && (c.buf b).valid) = false := by
            by_contra hit
            simp only [Bool.not_eq_false, Bool.and_eq_true, beq_iff_eq] at hit
            have := serves.first _ b (serves.member inList) hit.2
            rw [← hit.1, found] at this
            exact away (Option.some.inj this)
          simp [kept]

theorem init_serves : Bcache.init.Serves (fun _ => none) (fun _ => none) where
  hashed hashid b member := by
    by_cases zero : hashid = 0
    · rw [zero]
      rfl
    · simp [Bcache.init, zero] at member
  distinct hashid := by
    by_cases zero : hashid = 0
    · have whole : Bcache.init.hash hashid = (List.range NCACHE_BUF).reverse := if_pos zero
      rw [whole, List.nodup_reverse]
      exact List.nodup_range
    · simp [Bcache.init, zero]
  covered b small := ⟨0, by decide, by simpa [Bcache.init] using small⟩
  first hashid b _ isValid := by simp [Bcache.init] at isValid
  idle _ _ _ _ := rfl
  locked _ _ _ := by simp [Bcache.init]
  given _ _ out := by simp at out
  served := by
    funext block
    unfold lookup
    cases Bcache.init.cached block <;> rfl

/-! What the searches of `bget` find. -/

theorem timestamp_le (timestamp : BitVec 64) : timestamp ≤ BitVec.allOnes 64 := by
  rw [BitVec.le_def, BitVec.toNat_allOnes]
  omega

private theorem leastRecent_scan (buffers : List Nat) (least : Option Nat × BitVec 64)
    (fresh : least.1 = none → least.2 = BitVec.allOnes 64) :
    let found := buffers.foldl (fun (least : Option Nat × BitVec 64) b =>
      if (c.buf b).refcnt = 0 then
        if (c.buf b).timestamp ≤ least.2 then (some b, (c.buf b).timestamp) else least
      else least) least
    (∀ b, found.1 = some b → least.1 = some b ∨ (b ∈ buffers ∧ (c.buf b).refcnt = 0)) ∧
      (found.1 = none → least.1 = none ∧ ∀ b ∈ buffers, (c.buf b).refcnt ≠ 0) := by
  induction buffers generalizing least with
  | nil => exact ⟨fun _ found => .inl found, fun none => ⟨none, by simp⟩⟩
  | cons head tail ih =>
    intro found
    by_cases free : (c.buf head).refcnt = 0
    · by_cases older : (c.buf head).timestamp ≤ least.2
      · have step := ih (some head, (c.buf head).timestamp) (by simp)
        simp only [found, List.foldl_cons, if_pos free, if_pos older]
        refine ⟨fun b hit => ?_, fun none => by simp at step; exact absurd none step.2⟩
        rcases step.1 b hit with same | ⟨member, zero⟩
        · obtain rfl := Option.some.inj same
          exact .inr ⟨List.mem_cons_self, free⟩
        · exact .inr ⟨List.mem_cons_of_mem _ member, zero⟩
      · have step := ih least fresh
        simp only [found, List.foldl_cons, if_pos free, if_neg older]
        refine ⟨fun b hit => (step.1 b hit).imp id fun ⟨member, zero⟩ => ⟨List.mem_cons_of_mem _ member, zero⟩, ?_⟩
        intro none
        have all := fresh (step.2 none).1
        exact absurd (all ▸ timestamp_le (c.buf head).timestamp) older
    · have step := ih least fresh
      simp only [found, List.foldl_cons, if_neg free]
      refine ⟨fun b hit => (step.1 b hit).imp id fun ⟨member, zero⟩ => ⟨List.mem_cons_of_mem _ member, zero⟩, ?_⟩
      intro none
      obtain ⟨start, rest⟩ := step.2 none
      refine ⟨start, fun b member => ?_⟩
      rcases List.mem_cons.mp member with rfl | member
      · exact free
      · exact rest b member

theorem leastRecent_some {buffers : List Nat} (found : c.leastRecent buffers = some b) :
    b ∈ buffers ∧ (c.buf b).refcnt = 0 := by
  have scan := (leastRecent_scan buffers (none, BitVec.allOnes 64) fun _ => rfl).1 b found
  simpa using scan

theorem leastRecent_none {buffers : List Nat} (found : c.leastRecent buffers = none) :
    ∀ b ∈ buffers, (c.buf b).refcnt ≠ 0 :=
  ((leastRecent_scan buffers (none, BitVec.allOnes 64) fun _ => rfl).2 found).2

theorem recyclable_some (found : c.recyclable hashid = some b) : b ∈ c.hash hashid ∧ (c.buf b).refcnt = 0 := by
  refine ⟨List.mem_reverse.mp (List.mem_of_find?_eq_some found), ?_⟩
  have := List.find?_some found
  simp only [Bool.and_eq_true, beq_iff_eq] at this
  exact this.1

theorem recyclable_none (found : c.recyclable hashid = none) : ∀ b ∈ c.hash hashid, (c.buf b).refcnt ≠ 0 := by
  intro b member zero
  refine List.find?_eq_none.mp found b (List.mem_reverse.mpr member) ?_
  rw [zero, decide_eq_true (timestamp_le _)]
  rfl

theorem victim_some {hidx : Nat} (found : c.victim hashid = some (hidx, b)) :
    hidx ≠ hashid ∧ b ∈ c.hash hidx ∧ (c.buf b).refcnt = 0 := by
  obtain ⟨index, _, here⟩ := List.exists_of_findSome?_eq_some found
  split at here
  · cases here
  next apart =>
    obtain ⟨other, least, same⟩ := Option.map_eq_some_iff.mp here
    obtain ⟨rfl, rfl⟩ := Prod.mk.inj same
    obtain ⟨member, zero⟩ := leastRecent_some least
    exact ⟨apart, List.mem_reverse.mp member, zero⟩

theorem victim_none (found : c.victim hashid = none) {hidx : Nat} (bound : hidx < BCACHE_HASH_SIZE) (apart : hidx ≠ hashid) :
    ∀ b ∈ c.hash hidx, (c.buf b).refcnt ≠ 0 := by
  intro b member
  have none := List.findSome?_eq_none_iff.mp found hidx (List.mem_range.mpr bound)
  rw [if_neg apart, Option.map_eq_none_iff] at none
  exact leastRecent_none none b (List.mem_reverse.mpr member)

/-- `bget` searches for ever only when every buffer is referenced. -/
theorem Listed.bget_none (listed : c.Listed) (stuck : c.bget blockno = none) :
    ∀ b < NCACHE_BUF, 0 < (c.buf b).refcnt := by
  intro b small
  obtain ⟨hashid, bound, member⟩ := listed.covered b small
  unfold bget at stuck
  split at stuck
  · cases stuck
  split at stuck
  · cases stuck
  next own =>
    by_cases same : hashid = bcacheHash blockno
    · subst same
      exact Nat.pos_of_ne_zero (recyclable_none own b member)
    · exact Nat.pos_of_ne_zero (victim_none (Option.map_eq_none_iff.mp stuck) bound same b member)

@[simp] theorem setBuf_setBuf (c : Bcache) (b : Nat) (first second : BcacheBuf → BcacheBuf) :
    (c.setBuf b first).setBuf b second = c.setBuf b fun buf => second (first buf) := by
  simp [setBuf]

@[simp] theorem setBuf_buf (c : Bcache) (b : Nat) (change : BcacheBuf → BcacheBuf) :
    (c.setBuf b change).buf b = change (c.buf b) := Function.update_self _ _ _

/-- A free buffer is nobody's. -/
theorem Serves.unlocked (serves : c.Serves cache handed) (member : b ∈ c.hash hashid) (free : (c.buf b).refcnt = 0) :
    (c.buf b).locked = false := by
  by_contra held
  have := (serves.given _ b ((serves.locked hashid b member).mp (Bool.not_eq_false _ ▸ held))).2.2
  omega

/-- What `bget` does when the block is not cached: a free buffer becomes its buffer, in its list. -/
structure Claimed (c after : Bcache) (blockno b : Nat) : Prop where
  free : ∃ hashid, b ∈ c.hash hashid ∧ (c.buf b).refcnt = 0
  here : after.buf b = { c.buf b with blockno, refcnt := 1, valid := false }
  elsewhere : ∀ other, other ≠ b → after.buf other = c.buf other
  lists : ∀ hashid, (after.hash hashid).filter (· != b) = (c.hash hashid).filter (· != b)
  placed : ∀ hashid, b ∈ after.hash hashid ↔ hashid = bcacheHash blockno
  distinct : ∀ hashid, (after.hash hashid).Nodup

theorem Claimed.rekeyed {after : Bcache} (claimed : Claimed c after blockno b) : Rekeyed c after blockno b :=
  ⟨by rw [claimed.here], claimed.elsewhere, claimed.lists, claimed.placed, claimed.distinct⟩

theorem Listed.claim (listed : c.Listed) (member : b ∈ c.hash (bcacheHash blockno)) (free : (c.buf b).refcnt = 0) :
    Claimed c (c.claim b blockno) blockno b where
  free := ⟨_, member, free⟩
  here := setBuf_buf _ _ _
  elsewhere _ apart := Function.update_of_ne apart _ _
  lists _ := rfl
  placed hashid := by
    refine ⟨fun inside => ?_, fun same => same ▸ member⟩
    rw [← listed.hashed hashid b inside, listed.hashed _ b member]
  distinct := listed.distinct

theorem Listed.move (listed : c.Listed) {hidx : Nat} (apart : hidx ≠ bcacheHash blockno) (member : b ∈ c.hash hidx)
    (free : (c.buf b).refcnt = 0) : Claimed c ((c.claim b blockno).move b hidx (bcacheHash blockno)) blockno b := by
  have only : ∀ hashid, b ∈ c.hash hashid → hashid = hidx := fun hashid inside => by
    rw [← listed.hashed hashid b inside, listed.hashed hidx b member]
  have erased : (c.hash hidx).erase b = (c.hash hidx).filter (· != b) := (listed.distinct hidx).erase_eq_filter b
  have lists : ∀ hashid, ((c.claim b blockno).move b hidx (bcacheHash blockno)).hash hashid =
      if hashid = bcacheHash blockno then b :: c.hash hashid
      else if hashid = hidx then (c.hash hashid).erase b else c.hash hashid := fun hashid => by
    by_cases own : hashid = bcacheHash blockno
    · subst own
      simp [Bcache.move, Bcache.claim, Bcache.setBuf, Function.update_of_ne (Ne.symm apart)]
    · by_cases from_ : hashid = hidx
      · subst from_
        simp [Bcache.move, Bcache.claim, Bcache.setBuf, own]
      · simp [Bcache.move, Bcache.claim, Bcache.setBuf, own, from_]
  constructor
  case free => exact ⟨hidx, member, free⟩
  case here => exact Function.update_self _ _ _
  case elsewhere => exact fun _ away => Function.update_of_ne away _ _
  case lists =>
    intro hashid
    rw [lists]
    split
    · simp
    split
    next same =>
      subst same
      rw [erased, List.filter_filter]
      simp
    · rfl
  case placed =>
    intro hashid
    rw [lists]
    split
    next own => simp [own]
    next other =>
      split
      next same =>
        subst same
        simp [erased, other]
      next away => exact iff_of_false (fun inside => away (only hashid inside)) other
  case distinct =>
    intro hashid
    rw [lists]
    split
    next own =>
      refine List.nodup_cons.mpr ⟨fun inside => apart ?_, listed.distinct hashid⟩
      rw [← only hashid inside, own]
    split
    · exact (listed.distinct hashid).erase b
    · exact listed.distinct hashid

theorem Listed.bget_some (listed : c.Listed) {after : Bcache} (found : c.bget blockno = some (b, after)) :
    (c.cached blockno = some b ∧ after = c.setBuf b fun buf => { buf with refcnt := buf.refcnt + 1 }) ∨
      (c.cached blockno = none ∧ Claimed c after blockno b) := by
  unfold bget at found
  split at found
  next hit =>
    obtain ⟨rfl, rfl⟩ := Prod.mk.inj (Option.some.inj found)
    exact .inl ⟨hit, rfl⟩
  next missing =>
    refine .inr ⟨missing, ?_⟩
    split at found
    next own =>
      obtain ⟨rfl, rfl⟩ := Prod.mk.inj (Option.some.inj found)
      obtain ⟨member, free⟩ := recyclable_some own
      exact listed.claim member free
    next =>
      obtain ⟨⟨hidx, other⟩, taken, same⟩ := Option.map_eq_some_iff.mp found
      obtain ⟨rfl, rfl⟩ := Prod.mk.inj same
      obtain ⟨apart, member, free⟩ := victim_some taken
      exact listed.move apart member free

end Bcache
end Myfuse
