import Mathlib.Data.Finset.Card
import Myfuse.LinkedCache
import Myfuse.Proofs.HashedCache

/-! The linked lists of `buf_cache.c` are those of the list model, and what the cache keeps
over every run of gets, releases, pins and unpins. -/

namespace Myfuse
open Library

namespace Bcache
variable {c after : Bcache} {b blockno : Nat}

/-- Every list holds buffers of the table, and a block number other than 0 has one buffer. -/
structure Kept (c : Bcache) : Prop where
  listed : c.Listed
  inside : ∀ hashid b, b ∈ c.hash hashid → b < NCACHE_BUF
  unique : ∀ b < NCACHE_BUF, (c.buf b).blockno ≠ 0 → c.cached (c.buf b).blockno = some b

theorem init_kept : Bcache.init.Kept where
  listed := init_serves.listed
  inside hashid b member := by
    by_cases zero : hashid = 0
    · simpa [Bcache.init, zero] using member
    · simp [Bcache.init, zero] at member
  unique b _ named := absurd rfl named

theorem Kept.setBuf (kept : c.Kept) {change : BcacheBuf → BcacheBuf} (named : (change (c.buf b)).blockno = (c.buf b).blockno) :
    (c.setBuf b change).Kept := by
  have blockno : ∀ other, ((c.setBuf b change).buf other).blockno = (c.buf other).blockno := fun other => by
    by_cases same : other = b
    · subst same
      rw [setBuf_buf, named]
    · rw [show (c.setBuf b change).buf other = c.buf other from Function.update_of_ne same _ _]
  refine ⟨⟨fun hashid other member => ?_, kept.listed.distinct, kept.listed.covered⟩, kept.inside, fun other inside isNamed => ?_⟩
  · rw [blockno]
    exact kept.listed.hashed hashid other member
  · rw [blockno] at isNamed ⊢
    rw [cached_setBuf named]
    exact kept.unique other inside isNamed

theorem Kept.claimed (kept : c.Kept) (missing : c.cached blockno = none) (claimed : Claimed c after blockno b) : after.Kept := by
  have rekeyed := claimed.rekeyed
  refine ⟨rekeyed.listed kept.listed, fun hashid other member => ?_, fun other inside isNamed => ?_⟩
  · by_cases same : other = b
    · obtain ⟨from_, taken, -⟩ := claimed.free
      exact same ▸ kept.inside from_ b taken
    · exact kept.inside hashid other ((rekeyed.mem hashid other same).mp member)
  · by_cases same : other = b
    · rw [same, rekeyed.named]
      exact rekeyed.self kept.listed missing
    · rw [rekeyed.elsewhere other same] at isNamed ⊢
      have found := kept.unique other inside isNamed
      refine rekeyed.stays (fun equal => ?_) found same
      rw [equal, missing] at found
      cases found

/-- What `bget` can do. -/
theorem Kept.bget (kept : c.Kept) (found : c.bget blockno = some (b, after)) : after.Kept ∧ b < NCACHE_BUF ∧
    ((c.cached blockno = some b ∧ after = c.setBuf b BcacheBuf.pin) ∨ (c.cached blockno = none ∧ Claimed c after blockno b)) := by
  rcases kept.listed.bget_some found with ⟨hit, rfl⟩ | ⟨missing, claimed⟩
  · exact ⟨kept.setBuf rfl, kept.inside _ b (cached_some hit).1, .inl ⟨hit, rfl⟩⟩
  · obtain ⟨from_, taken, -⟩ := claimed.free
    exact ⟨kept.claimed missing claimed, kept.inside from_ b taken, .inr ⟨missing, claimed⟩⟩

/-- A list has no more buffers than the table. -/
theorem Kept.length_le (kept : c.Kept) (hashid : Nat) : (c.hash hashid).length ≤ NCACHE_BUF := by
  have within : (c.hash hashid).toFinset ⊆ Finset.range NCACHE_BUF := fun b member =>
    Finset.mem_range.mpr (kept.inside hashid b (List.mem_toFinset.mp member))
  have few := Finset.card_le_card within
  rwa [List.toFinset_card_of_nodup (kept.listed.distinct hashid), Finset.card_range] at few

end Bcache

namespace LinkedBcache
variable {c : LinkedBcache} {l : Bcache} {b blockno hashid hidx : Nat}

/-- The links are those of the lists. -/
structure Lists (c : LinkedBcache) (l : Bcache) : Prop where
  buf : c.buf = l.buf
  rings : ∀ hashid < BCACHE_HASH_SIZE, c.links.Ring (.head hashid) ((l.hash hashid).map .buf)

theorem buf_injective : Function.Injective CacheNode.buf := fun _ _ => CacheNode.buf.inj

/-- The lists share no node. -/
theorem apart (listed : l.Listed) {first second : Nat} (other : first ≠ second) :
    ∀ shared ∈ CacheNode.head first :: (l.hash first).map .buf, shared ∉ CacheNode.head second :: (l.hash second).map .buf := by
  intro shared here there
  rcases List.mem_cons.mp here with rfl | here
  · rcases List.mem_cons.mp there with same | there
    · exact other (CacheNode.head.inj same)
    · obtain ⟨_, _, same⟩ := List.mem_map.mp there
      cases same
  · obtain ⟨b, member, rfl⟩ := List.mem_map.mp here
    rcases List.mem_cons.mp there with same | there
    · cases same
    · obtain ⟨b', member', same⟩ := List.mem_map.mp there
      obtain rfl := CacheNode.buf.inj same
      exact other ((listed.hashed first _ member).symm.trans (listed.hashed second _ member'))

/-! `bcache_init`. -/

theorem heads_joined (raw : Links CacheNode) (count : Nat) : ∀ hashid < count,
    let links := (List.range count).foldl (fun links i => (links.setPrev (.head i) (.head i)).setNext (.head i) (.head i)) raw
    links.next (.head hashid) = .head hashid ∧ links.prev (.head hashid) = .head hashid := by
  induction count with
  | zero => simp
  | succ count ih =>
    intro hashid small
    rw [List.range_succ, List.foldl_append]
    simp only [List.foldl_cons, List.foldl_nil, Links.setNext, Links.setPrev, assign_apply]
    by_cases last : hashid = count
    · simp [last]
    · have other : CacheNode.head hashid ≠ CacheNode.head count := fun same => last (CacheNode.head.inj same)
      rw [if_neg other, if_neg other]
      exact ih hashid (by omega)

theorem init_rings (raw : Links CacheNode) (heads : ∀ hashid < BCACHE_HASH_SIZE, raw.Ring (.head hashid) []) (count : Nat) :
    ∀ hashid < BCACHE_HASH_SIZE, ((List.range count).foldl (fun links b => links.insertFront (.head 0) (.buf b)) raw).Ring
      (.head hashid) ((if hashid = 0 then (List.range count).reverse else []).map .buf) := by
  induction count with
  | zero =>
    intro hashid small
    simpa using heads hashid small
  | succ count ih =>
    intro hashid small
    rw [List.range_succ, List.foldl_append, List.foldl_cons, List.foldl_nil]
    have first := ih 0 (by decide)
    rw [if_pos rfl] at first
    have fresh : CacheNode.buf count ∉ CacheNode.head 0 :: (List.range count).reverse.map .buf := by simp
    by_cases zero : hashid = 0
    · rw [zero, if_pos rfl, List.reverse_append, List.reverse_singleton, List.singleton_append, List.map_cons]
      exact first.insertFront fresh
    · have other := ih hashid small
      rw [if_neg zero] at other ⊢
      refine other.insertFront_other first (by simp) (fun shared member => ?_) (by simp)
      obtain rfl : shared = .head hashid := by simpa using member
      simpa using zero

theorem init_lists (raw : Links CacheNode) : (init raw).Lists Bcache.init := by
  have heads := heads_joined raw BCACHE_HASH_SIZE
  unfold init
  generalize (List.range BCACHE_HASH_SIZE).foldl _ raw = links at heads
  have empty : ∀ hashid < BCACHE_HASH_SIZE, links.Ring (.head hashid) [] := fun hashid small =>
    ⟨heads hashid small, List.nodup_singleton _⟩
  constructor
  · rfl
  · intro hashid small
    have list : Bcache.init.hash hashid = if hashid = 0 then (List.range NCACHE_BUF).reverse else [] := rfl
    dsimp only
    rw [list]
    exact init_rings links empty NCACHE_BUF hashid small

/-! The loops of `bget`. -/

section
variable (lists : c.Lists l) (kept : l.Kept)
include lists

theorem Lists.find_test (hit : BcacheBuf → Bool) (buffers : List Nat) :
    ((buffers.map CacheNode.buf).find? (c.test hit)).bind index = buffers.find? fun b => hit (l.buf b) := by
  rw [List.find?_map]
  have same : c.test hit ∘ CacheNode.buf = fun b => hit (l.buf b) := by
    funext b
    simp [test, lists.buf]
  rw [same]
  cases buffers.find? fun b => hit (l.buf b) <;> rfl

include kept

omit lists in
theorem enough (hashid : Nat) : ((l.hash hashid).map CacheNode.buf).length < turns := by
  rw [List.length_map]
  exact Nat.lt_succ_of_le (kept.length_le hashid)

theorem Lists.searchForward (small : hashid < BCACHE_HASH_SIZE) (hit : BcacheBuf → Bool) :
    c.searchForward hashid hit = some ((l.hash hashid).find? fun b => hit (l.buf b)) := by
  rw [LinkedBcache.searchForward, (lists.rings hashid small).search (enough kept hashid), Option.map_some, lists.find_test]

theorem Lists.searchBackward (small : hashid < BCACHE_HASH_SIZE) (hit : BcacheBuf → Bool) :
    c.searchBackward hashid hit = some ((l.hash hashid).reverse.find? fun b => hit (l.buf b)) := by
  rw [LinkedBcache.searchBackward, (lists.rings hashid small).search_back (enough kept hashid), Option.map_some,
    ← List.map_reverse, lists.find_test]

theorem Lists.leastRecent (small : hidx < BCACHE_HASH_SIZE) :
    c.leastRecent hidx = some (l.leastRecent (l.hash hidx).reverse) := by
  rw [LinkedBcache.leastRecent, (lists.rings hidx small).scan_back (enough kept hidx), Option.map_some, ← List.map_reverse,
    List.foldl_map]
  simp only [older, lists.buf]
  rfl

theorem Lists.victim {others : List Nat} (small : ∀ hidx ∈ others, hidx < BCACHE_HASH_SIZE) :
    c.victim hashid others = some (others.findSome? fun hidx =>
      if hidx = hashid then none else (l.leastRecent (l.hash hidx).reverse).map fun b => (hidx, b)) := by
  induction others with
  | nil => rfl
  | cons hidx others ih =>
    have rest := ih fun other member => small other (List.mem_cons_of_mem _ member)
    rw [LinkedBcache.victim, List.findSome?_cons]
    split
    · exact rest
    · rw [lists.leastRecent kept (small hidx List.mem_cons_self)]
      cases l.leastRecent (l.hash hidx).reverse with
      | none => exact rest
      | some b => rfl

end

/-! What a call leaves. -/

theorem Lists.setBuf (lists : c.Lists l) (b : Nat) (change : BcacheBuf → BcacheBuf) : (c.setBuf b change).Lists (l.setBuf b change) :=
  ⟨by simp only [LinkedBcache.setBuf, Bcache.setBuf, lists.buf], lists.rings⟩

/-- A buffer moves from its list to the front of another. -/
theorem Lists.relink (lists : c.Lists l) (listed : l.Listed) (small : hidx < BCACHE_HASH_SIZE) (small' : hashid < BCACHE_HASH_SIZE)
    (other : hidx ≠ hashid) (member : b ∈ l.hash hidx) :
    ((c.claim b blockno).relink b hashid).Lists ((l.claim b blockno).move b hidx hashid) := by
  obtain ⟨front, back, shape⟩ := List.append_of_mem member
  have ring := lists.rings hidx small
  rw [shape, List.map_append, List.map_cons] at ring
  have erased : (l.hash hidx).erase b = front ++ back := by
    have distinct := listed.distinct hidx
    rw [shape] at distinct ⊢
    have away : b ∉ front := fun inside => List.disjoint_of_nodup_append distinct inside List.mem_cons_self
    rw [List.erase_append_right _ away, List.erase_cons_head]
  have sharing : ∀ hashid', hashid' ≠ hidx → ∀ shared ∈ CacheNode.head hashid' :: (l.hash hashid').map .buf,
      shared ∉ CacheNode.head hidx :: (front.map .buf ++ CacheNode.buf b :: back.map .buf) := fun hashid' apart' shared inside => by
    have apart_ := apart listed apart' shared inside
    rwa [shape, List.map_append, List.map_cons] at apart_
  have unlinked := ring.unlink
  have others : ∀ hashid' < BCACHE_HASH_SIZE, hashid' ≠ hidx →
      (c.links.unlink (.buf b)).Ring (.head hashid') ((l.hash hashid').map .buf) := fun hashid' bound apart' =>
    ring.unlink_other (lists.rings hashid' bound) (sharing hashid' apart')
  have target := others hashid small' (Ne.symm other)
  have absent : ∀ hashid', hashid' ≠ hidx → CacheNode.buf b ∉ CacheNode.head hashid' :: (l.hash hashid').map .buf :=
    fun hashid' apart' inside => sharing hashid' apart' _ inside (by simp)
  refine ⟨(lists.setBuf b fun buf => { buf with blockno, refcnt := 1, valid := false }).buf, fun hashid' bound => ?_⟩
  simp only [LinkedBcache.relink, Bcache.move, LinkedBcache.claim, Bcache.claim, LinkedBcache.setBuf, Bcache.setBuf]
  by_cases own : hashid' = hashid
  · subst own
    rw [Function.update_self, Function.update_of_ne (Ne.symm other), List.map_cons]
    exact target.insertFront (absent hashid' (Ne.symm other))
  · rw [Function.update_of_ne own]
    by_cases from_ : hashid' = hidx
    · subst from_
      rw [Function.update_self, erased, List.map_append]
      refine unlinked.insertFront_other target (by simp) (fun shared inside there => ?_) ?_
      · refine sharing hashid (Ne.symm other) shared there ?_
        rcases List.mem_cons.mp inside with rfl | inside
        · simp
        · rcases List.mem_append.mp inside with before | behind
          · simp [before]
          · simp [behind]
      · exact ring.rest.2
    · rw [Function.update_of_ne from_]
      exact (others hashid' bound from_).insertFront_other target (by simp) (apart listed own) (absent hashid' from_)

/-- The linked cache does what the list model does. -/
theorem Lists.bget (lists : c.Lists l) (kept : l.Kept) (blockno : Nat) :
    (l.bget blockno = none → c.bget blockno = none) ∧
      ∀ b after, l.bget blockno = some (b, after) → ∃ c', c.bget blockno = some (b, c') ∧ c'.Lists after := by
  have small : bcacheHash blockno < BCACHE_HASH_SIZE := Nat.mod_lt _ (by decide)
  have forward : c.searchForward (bcacheHash blockno) (fun buf => buf.blockno == blockno) = some (l.cached blockno) :=
    lists.searchForward kept small _
  have backward : c.searchBackward (bcacheHash blockno) (fun buf => buf.refcnt == 0 && decide (buf.timestamp ≤ BitVec.allOnes 64)) =
      some (l.recyclable (bcacheHash blockno)) := lists.searchBackward kept small _
  have scanned : c.victim (bcacheHash blockno) (List.range BCACHE_HASH_SIZE) = some (l.victim (bcacheHash blockno)) :=
    lists.victim kept fun hidx => List.mem_range.mp
  simp only [LinkedBcache.bget, Bcache.bget, forward, backward, scanned]
  cases hit : l.cached blockno with
  | some b =>
    refine ⟨by simp, ?_⟩
    rintro _ _ ⟨⟩
    exact ⟨_, rfl, lists.setBuf b BcacheBuf.pin⟩
  | none =>
    cases own : l.recyclable (bcacheHash blockno) with
    | some b =>
      refine ⟨by simp, ?_⟩
      rintro _ _ ⟨⟩
      exact ⟨_, rfl, lists.setBuf b _⟩
    | none =>
      cases taken : l.victim (bcacheHash blockno) with
      | none => exact ⟨fun _ => rfl, by simp⟩
      | some place =>
        obtain ⟨hidx, b⟩ := place
        obtain ⟨other, member, -⟩ := Bcache.victim_some taken
        have small' : hidx < BCACHE_HASH_SIZE := by
          rw [← kept.listed.hashed hidx b member]
          exact Nat.mod_lt _ (by decide)
        refine ⟨by simp, ?_⟩
        rintro _ _ ⟨⟩
        exact ⟨_, rfl, lists.relink kept.listed small' small other member⟩

/-- With a free buffer, or one for the block, the search ends. -/
theorem Lists.bget_some (lists : c.Lists l) (kept : l.Kept)
    (some_ : (∃ b < NCACHE_BUF, (c.buf b).blockno = blockno) ∨ ∃ b < NCACHE_BUF, (c.buf b).refcnt = 0) : (c.bget blockno).isSome = true := by
  obtain ⟨-, found⟩ := lists.bget kept blockno
  cases result : l.bget blockno with
  | some pair =>
    obtain ⟨c', same, -⟩ := found pair.1 pair.2 result
    rw [same]
    rfl
  | none =>
    rw [lists.buf] at some_
    rcases some_ with ⟨b, small, named⟩ | ⟨b, small, free⟩
    · obtain ⟨hashid, -, member⟩ := kept.listed.covered b small
      have own := kept.listed.hashed hashid b member
      rw [named] at own
      have missing : l.cached blockno = none := by
        unfold Bcache.bget at result
        split at result
        · cases result
        next missing => exact missing
      exact absurd named (Bcache.cached_none missing (own ▸ member))
    · exact absurd (kept.listed.bget_none result b small) (by omega)

end LinkedBcache

namespace CacheUse
open Bcache
variable {use after : CacheUse} {l : Bcache}

/-- What holds of the cache and the gets and pins outstanding. -/
structure Sound (use : CacheUse) : Prop where
  /-- The links form one ring around each head, and every buffer is on the list of its block only. -/
  lists : ∃ lists : Nat → List Nat,
    (∀ hashid < BCACHE_HASH_SIZE, use.cache.links.Ring (.head hashid) ((lists hashid).map .buf) ∧ ∀ b ∈ lists hashid, b < NCACHE_BUF) ∧
      ∀ b < NCACHE_BUF, ∀ hashid < BCACHE_HASH_SIZE, b ∈ lists hashid ↔ hashid = bcacheHash (use.cache.buf b).blockno
  unique : ∀ first < NCACHE_BUF, ∀ second < NCACHE_BUF, (use.cache.buf first).blockno = (use.cache.buf second).blockno →
    (use.cache.buf first).blockno ≠ 0 → first = second
  counted : ∀ b < NCACHE_BUF, (use.cache.buf b).refcnt = use.gets b + use.pins b

/-- The lists behind a run, and its counts. -/
structure Tallies (use : CacheUse) (l : Bcache) : Prop where
  lists : use.cache.Lists l
  kept : l.Kept
  counted : ∀ b < NCACHE_BUF, (l.buf b).refcnt = use.gets b + use.pins b
  within : ∀ b, NCACHE_BUF ≤ b → use.gets b = 0 ∧ use.pins b = 0

theorem tallies_start (raw : Links CacheNode) : (start raw).Tallies Bcache.init where
  lists := LinkedBcache.init_lists raw
  kept := init_kept
  counted _ _ := rfl
  within _ _ := ⟨rfl, rfl⟩

theorem Tallies.sound (tallies : use.Tallies l) : use.Sound where
  lists := by
    refine ⟨l.hash, fun hashid small => ⟨tallies.lists.rings hashid small, tallies.kept.inside hashid⟩, fun b small hashid _ => ?_⟩
    rw [tallies.lists.buf]
    constructor
    · exact fun member => (tallies.kept.listed.hashed hashid b member).symm
    · rintro rfl
      obtain ⟨hashid, -, member⟩ := tallies.kept.listed.covered b small
      rw [tallies.kept.listed.hashed hashid b member]
      exact member
  unique first small second small' same named := by
    rw [tallies.lists.buf] at same named
    have found := tallies.kept.unique first small named
    rw [same] at found named
    exact Option.some.inj (found.symm.trans (tallies.kept.unique second small' named))
  counted b small := by
    rw [tallies.lists.buf]
    exact tallies.counted b small

/-- One buffer's count moves with what is outstanding of it. -/
theorem Tallies.moves (tallies : use.Tallies l) {cache : LinkedBcache} {l' : Bcache} {b : Nat} {gets pins : Nat → Nat}
    (lists : cache.Lists l') (kept : l'.Kept) (small : b < NCACHE_BUF) (elsewhere : ∀ other, other ≠ b → l'.buf other = l.buf other)
    (others : ∀ other, other ≠ b → gets other = use.gets other ∧ pins other = use.pins other)
    (count : (l'.buf b).refcnt = gets b + pins b) : ({ cache, gets, pins } : CacheUse).Tallies l' where
  lists := lists
  kept := kept
  counted other inside := by
    by_cases same : other = b
    · exact same ▸ count
    · obtain ⟨got, pinned⟩ := others other same
      rw [elsewhere other same, tallies.counted other inside]
      exact congrArg₂ (· + ·) got.symm pinned.symm
  within other outside := by
    obtain ⟨got, pinned⟩ := others other (by omega)
    exact ⟨got.trans (tallies.within other outside).1, pinned.trans (tallies.within other outside).2⟩

/-- A call that changes fields of one buffer. -/
theorem Tallies.setBuf (tallies : use.Tallies l) {b : Nat} (small : b < NCACHE_BUF) (change : BcacheBuf → BcacheBuf)
    (named : ∀ buf, (change buf).blockno = buf.blockno) (gets pins : Nat → Nat)
    (others : ∀ other, other ≠ b → gets other = use.gets other ∧ pins other = use.pins other)
    (count : (change (l.buf b)).refcnt = gets b + pins b) :
    ({ cache := use.cache.setBuf b change, gets, pins } : CacheUse).Tallies (l.setBuf b change) ∧
      ∀ other < NCACHE_BUF, 0 < (l.buf other).refcnt → ((l.setBuf b change).buf other).blockno = (l.buf other).blockno := by
  have elsewhere : ∀ other, other ≠ b → (l.setBuf b change).buf other = l.buf other := fun other apart =>
    Function.update_of_ne apart _ _
  refine ⟨tallies.moves (tallies.lists.setBuf b change) (tallies.kept.setBuf (named _)) small elsewhere others ?_, fun other _ _ => ?_⟩
  · rw [setBuf_buf]
    exact count
  · by_cases same : other = b
    · rw [same, setBuf_buf, named]
    · rw [elsewhere other same]

/-- What one call does. -/
theorem Tallies.step (tallies : use.Tallies l) {event : CacheEvent} (stepped : use.step event = some after) :
    ∃ l', after.Tallies l' ∧ ∀ b < NCACHE_BUF, 0 < (l.buf b).refcnt → (l'.buf b).blockno = (l.buf b).blockno := by
  cases event with
  | bget blockno =>
    obtain ⟨⟨b, cache⟩, returned, rfl⟩ := Option.map_eq_some_iff.mp stepped
    obtain ⟨never, found⟩ := tallies.lists.bget tallies.kept blockno
    cases result : l.bget blockno with
    | none =>
      rw [never result] at returned
      cases returned
    | some pair =>
      obtain ⟨b', l'⟩ := pair
      obtain ⟨c', same, lists⟩ := found b' l' result
      rw [same] at returned
      obtain ⟨rfl, rfl⟩ := Prod.mk.inj (Option.some.inj returned)
      obtain ⟨kept, small, way⟩ := tallies.kept.bget result
      have count := tallies.counted b' small
      have others : ∀ other, other ≠ b' → assign use.gets b' (use.gets b' + 1) other = use.gets other ∧ use.pins other = use.pins other :=
        fun other apart => ⟨assign_of_ne apart _ _, rfl⟩
      rcases way with ⟨-, rfl⟩ | ⟨-, claimed⟩
      · refine ⟨_, tallies.moves lists kept small (fun other apart => Function.update_of_ne apart _ _) others ?_, fun other _ _ => ?_⟩
        · rw [setBuf_buf, assign_self, BcacheBuf.pin]
          dsimp only
          omega
        · by_cases same : other = b'
          · rw [same, setBuf_buf, BcacheBuf.pin]
          · rw [show (l.setBuf b' BcacheBuf.pin).buf other = l.buf other from Function.update_of_ne same _ _]
      · -- The buffer was nobody's, so the count starts again.
        obtain ⟨-, -, free⟩ := claimed.free
        refine ⟨_, tallies.moves lists kept small claimed.elsewhere others ?_, fun other _ referenced => ?_⟩
        · rw [claimed.here, assign_self]
          dsimp only
          omega
        · have apart : other ≠ b' := by
            rintro rfl
            omega
          rw [claimed.elsewhere other apart]
  | brelse b now =>
    obtain ⟨got, same⟩ := Option.ite_none_right_eq_some.mp stepped
    obtain rfl := Option.some.inj same
    have small : b < NCACHE_BUF := by
      by_contra outside
      exact absurd (tallies.within b (Nat.not_lt.mp outside)).1 (by omega)
    have count := tallies.counted b small
    refine ⟨l.setBuf b (BcacheBuf.release now), tallies.setBuf small (BcacheBuf.release now) (fun _ => rfl) (assign use.gets b (use.gets b - 1)) use.pins
      (fun other apart => ⟨assign_of_ne apart _ _, rfl⟩) ?_⟩
    rw [assign_self, BcacheBuf.release]
    dsimp only
    omega
  | bpin b =>
    obtain ⟨small, same⟩ := Option.ite_none_right_eq_some.mp stepped
    obtain rfl := Option.some.inj same
    have count := tallies.counted b small
    refine ⟨l.setBuf b BcacheBuf.pin, tallies.setBuf small BcacheBuf.pin (fun _ => rfl) use.gets (assign use.pins b (use.pins b + 1))
      (fun other apart => ⟨rfl, assign_of_ne apart _ _⟩) ?_⟩
    rw [assign_self, BcacheBuf.pin]
    dsimp only
    omega
  | bunpin b =>
    obtain ⟨pinned, same⟩ := Option.ite_none_right_eq_some.mp stepped
    obtain rfl := Option.some.inj same
    have small : b < NCACHE_BUF := by
      by_contra outside
      exact absurd (tallies.within b (Nat.not_lt.mp outside)).2 (by omega)
    have count := tallies.counted b small
    refine ⟨l.setBuf b BcacheBuf.unpin, tallies.setBuf small BcacheBuf.unpin (fun _ => rfl) use.gets (assign use.pins b (use.pins b - 1))
      (fun other apart => ⟨rfl, assign_of_ne apart _ _⟩) ?_⟩
    rw [assign_self, BcacheBuf.unpin]
    dsimp only
    omega

theorem run_tallies {raw : Links CacheNode} {events : List CacheEvent} (ran : (start raw).run events = some use) :
    ∃ l, use.Tallies l := by
  induction events using List.reverseRecOn generalizing use with
  | nil =>
    cases ran
    exact ⟨_, tallies_start raw⟩
  | append_singleton events event ih =>
    rw [run, List.foldlM_append] at ran
    obtain ⟨middle, first, last⟩ := Option.bind_eq_some_iff.mp ran
    obtain ⟨l, tallies⟩ := ih first
    obtain ⟨l', tallies', -⟩ := tallies.step (by simpa using last)
    exact ⟨l', tallies'⟩

/-- Over every run of gets, releases, pins and unpins: the lists are sound rings, a block has one
buffer, the counts are what is outstanding, a referenced buffer keeps its block, and a search
for a block ends when it is cached or some buffer is free. -/
theorem cache_kept {raw : Links CacheNode} {events : List CacheEvent} (ran : (start raw).run events = some use) :
    use.Sound ∧
      (∀ event after, use.step event = some after →
        ∀ b < NCACHE_BUF, 0 < (use.cache.buf b).refcnt → (after.cache.buf b).blockno = (use.cache.buf b).blockno) ∧
      ∀ blockno, (∃ b < NCACHE_BUF, (use.cache.buf b).blockno = blockno) ∨ (∃ b < NCACHE_BUF, (use.cache.buf b).refcnt = 0) →
        (use.step (.bget blockno)).isSome = true := by
  obtain ⟨l, tallies⟩ := run_tallies ran
  refine ⟨tallies.sound, fun event after stepped b small referenced => ?_, fun blockno some_ => ?_⟩
  · obtain ⟨l', tallies', names⟩ := tallies.step stepped
    rw [tallies.lists.buf] at referenced ⊢
    rw [tallies'.lists.buf]
    exact names b small referenced
  · have ends := tallies.lists.bget_some tallies.kept some_
    simpa only [step, Option.isSome_map] using ends

/-- The pointers of a table that nothing was linked in. -/
def unlinked : Links CacheNode := { next := id, prev := id }

/-- A block is read, and the last buffer of the table pinned. -/
theorem cache_kept_pinned : ∃ use, (start unlinked).run [.bget 5, .bpin 1015] = some use ∧ use.Sound ∧
    (∀ event after, use.step event = some after →
      ∀ b < NCACHE_BUF, 0 < (use.cache.buf b).refcnt → (after.cache.buf b).blockno = (use.cache.buf b).blockno) ∧
    ∀ blockno, (∃ b < NCACHE_BUF, (use.cache.buf b).blockno = blockno) ∨ (∃ b < NCACHE_BUF, (use.cache.buf b).refcnt = 0) →
      (use.step (.bget blockno)).isSome = true := by
  have ends : ((LinkedBcache.init unlinked).bget 5).isSome = true := (LinkedBcache.init_lists unlinked).bget_some init_kept (.inr ⟨0, by decide, rfl⟩)
  obtain ⟨⟨b, cache⟩, found⟩ := Option.isSome_iff_exists.mp ends
  have read : (start unlinked).step (.bget 5) = some { start unlinked with cache, gets := assign (fun _ => 0) b 1 } := by
    rw [step, show (start unlinked).cache = LinkedBcache.init unlinked from rfl, found]
    rfl
  have ran : (start unlinked).run [.bget 5, .bpin 1015] = some
      { cache := cache.setBuf 1015 BcacheBuf.pin, gets := assign (fun _ => 0) b 1, pins := assign (fun _ => 0) 1015 1 } := by
    rw [run, List.foldlM_cons, read]
    rfl
  exact ⟨_, ran, cache_kept ran⟩

end CacheUse
end Myfuse
