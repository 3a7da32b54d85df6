import Mathlib.Data.List.Nodup
import Myfuse.Library.Assign

/-! Circular doubly linked lists. A ring is a head and its nodes, each joined to the
next by a link forward and a link back; inserting behind the head and unlinking a
node change one ring and leave every other as it is. -/

namespace Myfuse.Library

structure Links (α : Type) where
  next : α → α
  prev : α → α

namespace Links
variable {α : Type}

/-- Both directions exchanged. -/
def reversed (links : Links α) : Links α := { next := links.prev, prev := links.next }

/-- Following the links from `first` passes `nodes` and arrives at `last`, and back. -/
def Joined (links : Links α) : α → List α → α → Prop
  | first, [], last => links.next first = last ∧ links.prev last = first
  | first, node :: nodes, last => (links.next first = node ∧ links.prev node = first) ∧ links.Joined node nodes last

def Ring (links : Links α) (head : α) (nodes : List α) : Prop := links.Joined head nodes head ∧ (head :: nodes).Nodup

variable {links links' : Links α} {first last head node : α} {nodes : List α}

theorem joined_append {rest : List α} :
    links.Joined first (nodes ++ node :: rest) last ↔ links.Joined first nodes node ∧ links.Joined node rest last := by
  induction nodes generalizing first with
  | nil => rfl
  | cons head nodes ih => simp only [List.cons_append, Joined, ih, and_assoc]

/-- Links that agree where a path uses them keep the path. -/
theorem Joined.congr (joined : links.Joined first nodes last) (next : ∀ node ∈ first :: nodes, links'.next node = links.next node)
    (prev : ∀ node ∈ nodes ++ [last], links'.prev node = links.prev node) : links'.Joined first nodes last := by
  induction nodes generalizing first with
  | nil => exact ⟨(next first (by simp)).trans joined.1, (prev last (by simp)).trans joined.2⟩
  | cons node nodes ih =>
    obtain ⟨⟨forward, back⟩, rest⟩ := joined
    refine ⟨⟨(next first (by simp)).trans forward, (prev node (by simp)).trans back⟩, ?_⟩
    exact ih rest (fun other member => next other (List.mem_cons_of_mem _ member))
      fun other member => prev other (List.mem_cons_of_mem _ member)

theorem Joined.next_mem (joined : links.Joined first nodes last) : links.next first ∈ last :: nodes := by
  cases nodes with
  | nil => simp [joined.1]
  | cons node nodes => simp [joined.1.1]

theorem Joined.prev_mem (joined : links.Joined first nodes last) : links.prev last ∈ first :: nodes := by
  induction nodes generalizing first with
  | nil => simp [joined.2]
  | cons node nodes ih => exact List.mem_cons_of_mem _ (ih joined.2)

theorem Joined.reversed (joined : links.Joined first nodes last) : links.reversed.Joined last nodes.reverse first := by
  induction nodes generalizing first with
  | nil => exact ⟨joined.2, joined.1⟩
  | cons node nodes ih =>
    rw [List.reverse_cons, joined_append]
    exact ⟨ih joined.2, joined.1.2, joined.1.1⟩

theorem Ring.reversed (ring : links.Ring head nodes) : links.reversed.Ring head nodes.reverse := by
  refine ⟨ring.1.reversed, ?_⟩
  have distinct := ring.2
  simpa using distinct

/-! The two changes. -/

section
variable [DecidableEq α]

def setNext (links : Links α) (node target : α) : Links α := { links with next := assign links.next node target }

def setPrev (links : Links α) (node target : α) : Links α := { links with prev := assign links.prev node target }

def insertFront (links : Links α) (head node : α) : Links α :=
  let links := links.setNext node (links.next head)
  let links := links.setPrev node head
  let links := links.setPrev (links.next head) node
  links.setNext head node

def unlink (links : Links α) (node : α) : Links α :=
  let links := links.setPrev (links.next node) (links.prev node)
  links.setNext (links.prev node) (links.next node)

theorem insertFront_next (apart : head ≠ node) (other : α) : (links.insertFront head node).next other =
    if other = head then node else if other = node then links.next head else links.next other := by
  simp only [insertFront, setNext, setPrev, assign_apply, if_neg apart]

theorem insertFront_prev (apart : head ≠ node) (other : α) : (links.insertFront head node).prev other =
    if other = links.next head then node else if other = node then head else links.prev other := by
  simp only [insertFront, setNext, setPrev, assign_apply, if_neg apart]

theorem Ring.insertFront (ring : links.Ring head nodes) (fresh : node ∉ head :: nodes) :
    (links.insertFront head node).Ring head (node :: nodes) := by
  have apart : head ≠ node := fun same => fresh (same ▸ List.mem_cons_self)
  have distinct := ring.2
  have away : ∀ other ∈ nodes, other ≠ node ∧ other ≠ head := fun other member =>
    ⟨fun same => fresh (List.mem_cons_of_mem _ (same ▸ member)), fun same => (List.nodup_cons.mp distinct).1 (same ▸ member)⟩
  have nextApart : node ≠ links.next head := fun same => fresh (same ▸ ring.1.next_mem)
  refine ⟨⟨⟨by rw [insertFront_next apart, if_pos rfl], by rw [insertFront_prev apart, if_neg nextApart, if_pos rfl]⟩, ?_⟩, ?_⟩
  · -- The rest of the ring starts at the new node now.
    cases nodes with
    | nil =>
      have empty : links.next head = head := ring.1.1
      exact ⟨by rw [insertFront_next apart, if_neg (Ne.symm apart), if_pos rfl, empty],
        by rw [insertFront_prev apart, if_pos empty.symm]⟩
    | cons second nodes =>
      obtain ⟨⟨forward, -⟩, rest⟩ := ring.1
      have second_distinct := (List.nodup_cons.mp distinct).2
      refine ⟨⟨by rw [insertFront_next apart, if_neg (Ne.symm apart), if_pos rfl, forward],
        by rw [insertFront_prev apart, if_pos forward.symm]⟩, rest.congr (fun other member => ?_) fun other member => ?_⟩
      · obtain ⟨notNode, notHead⟩ := away other member
        rw [insertFront_next apart, if_neg notHead, if_neg notNode]
      · rw [insertFront_prev apart, forward]
        rcases List.mem_append.mp member with member | last
        · have notSecond : other ≠ second := fun same => (List.nodup_cons.mp second_distinct).1 (same ▸ member)
          rw [if_neg notSecond, if_neg (away other (List.mem_cons_of_mem _ member)).1]
        · obtain rfl := List.mem_singleton.mp last
          rw [if_neg (Ne.symm (away second List.mem_cons_self).2), if_neg apart]
  · refine List.nodup_cons.mpr ⟨?_, List.nodup_cons.mpr ⟨fun member => fresh (List.mem_cons_of_mem _ member), (List.nodup_cons.mp distinct).2⟩⟩
    exact List.not_mem_cons_of_ne_of_not_mem apart (List.nodup_cons.mp distinct).1

/-- Inserting into one ring leaves another that shares no node with it. -/
theorem Ring.insertFront_other {head' : α} {nodes' : List α} (other : links.Ring head' nodes') (ring : links.Ring head nodes)
    (apart : head ≠ node) (disjoint : ∀ shared ∈ head' :: nodes', shared ∉ head :: nodes) (fresh : node ∉ head' :: nodes') :
    (links.insertFront head node).Ring head' nodes' := by
  have keeps : ∀ place ∈ head' :: nodes', place ≠ node ∧ place ≠ head ∧ place ≠ links.next head := fun place member =>
    ⟨fun same => fresh (same ▸ member), fun same => disjoint place member (same ▸ List.mem_cons_self),
      fun same => disjoint place member (same ▸ ring.1.next_mem)⟩
  refine ⟨other.1.congr (fun place member => ?_) fun place member => ?_, other.2⟩
  · obtain ⟨notNode, notHead, -⟩ := keeps place member
    rw [insertFront_next apart, if_neg notHead, if_neg notNode]
  · have inside : place ∈ head' :: nodes' := by
      simpa [or_comm] using member
    obtain ⟨notNode, -, notNext⟩ := keeps place inside
    rw [insertFront_prev apart, if_neg notNext, if_neg notNode]

theorem unlink_next (apart : links.next node ≠ node) (other : α) : (links.unlink node).next other =
    if other = links.prev node then links.next node else links.next other := by
  simp only [unlink, setNext, setPrev, assign_apply, if_neg (Ne.symm apart)]

theorem unlink_prev (other : α) : (links.unlink node).prev other =
    if other = links.next node then links.prev node else links.prev other := by
  simp only [unlink, setNext, setPrev, assign_apply]

/-- A path to the unlinked node arrives at the one behind it. -/
theorem Joined.unlink (joined : links.Joined first nodes node) (distinct : (first :: nodes).Nodup) (apart : links.next node ≠ node)
    (away : links.next node ∉ nodes) : (links.unlink node).Joined first nodes (links.next node) := by
  induction nodes generalizing first with
  | nil => exact ⟨by rw [unlink_next apart, if_pos joined.2.symm], by rw [unlink_prev, if_pos rfl, joined.2]⟩
  | cons second nodes ih =>
    obtain ⟨⟨forward, back⟩, rest⟩ := joined
    have notPrev : first ≠ links.prev node := fun same => (List.nodup_cons.mp distinct).1 (same ▸ rest.prev_mem)
    have notNext : second ≠ links.next node := fun same => away (same ▸ List.mem_cons_self)
    refine ⟨⟨by rw [unlink_next apart, if_neg notPrev, forward], by rw [unlink_prev, if_neg notNext, back]⟩, ?_⟩
    exact ih rest (List.nodup_cons.mp distinct).2 fun member => away (List.mem_cons_of_mem _ member)

section
variable {before after : List α} (ring : links.Ring head (before ++ node :: after))
include ring

omit [DecidableEq α] in
/-- The ring without the node. -/
theorem Ring.rest : (head :: (before ++ after)).Nodup ∧ node ∉ head :: (before ++ after) := by
  have moved : (node :: head :: (before ++ after)).Perm (head :: (before ++ node :: after)) :=
    (List.Perm.swap head node _).trans (List.perm_middle.symm.cons head)
  have distinct := List.nodup_cons.mp (moved.nodup_iff.mpr ring.2)
  exact ⟨distinct.2, distinct.1⟩

omit [DecidableEq α] in
/-- The nodes on both sides of a node are in its ring. -/
theorem Ring.neighbours : links.next node ∈ head :: after ∧ links.prev node ∈ head :: before := by
  obtain ⟨front, back⟩ := joined_append.mp ring.1
  exact ⟨back.next_mem, front.prev_mem⟩

omit [DecidableEq α] in
theorem Ring.next_ne : links.next node ≠ node := fun same => by
  have inside := ring.neighbours.1
  rw [same] at inside
  exact ring.rest.2 ((List.sublist_append_right before after).cons_cons head |>.subset inside)

theorem Ring.unlink : (links.unlink node).Ring head (before ++ after) := by
  obtain ⟨nextIn, prevIn⟩ := ring.neighbours
  obtain ⟨front, back⟩ := joined_append.mp ring.1
  have distinct := ring.rest.1
  obtain ⟨headApart, inner⟩ := List.nodup_cons.mp distinct
  refine ⟨?_, distinct⟩
  have path := front.unlink (distinct.sublist ((List.sublist_append_left before after).cons_cons head)) ring.next_ne fun member => by
    rcases List.mem_cons.mp nextIn with same | behind
    · exact headApart (same ▸ List.mem_append_left _ member)
    · exact List.disjoint_of_nodup_append inner member behind
  cases after with
  | nil =>
    rw [back.1] at path
    simpa using path
  | cons second after =>
    rw [back.1.1] at path
    refine joined_append.mpr ⟨path, back.2.congr (fun place member => ?_) fun place member => ?_⟩
    · have notPrev : place ≠ links.prev node := by
        rintro rfl
        rcases List.mem_cons.mp prevIn with same | inside
        · exact headApart (same ▸ List.mem_append_right _ member)
        · exact List.disjoint_of_nodup_append inner inside member
      rw [unlink_next ring.next_ne, if_neg notPrev]
    · have notNext : place ≠ links.next node := by
        rw [back.1.1]
        rintro rfl
        rcases List.mem_append.mp member with inside | last
        · exact (List.nodup_cons.mp (List.nodup_append.mp inner).2.1).1 inside
        · exact headApart (List.mem_singleton.mp last ▸ by simp)
      rw [unlink_prev, if_neg notNext]

/-- Unlinking from one ring leaves another that shares no node with it. -/
theorem Ring.unlink_other {head' : α} {nodes' : List α} (other : links.Ring head' nodes')
    (disjoint : ∀ shared ∈ head' :: nodes', shared ∉ head :: (before ++ node :: after)) :
    (links.unlink node).Ring head' nodes' := by
  have nextIn : links.next node ∈ head :: (before ++ node :: after) :=
    ((List.sublist_cons_self node after).trans (List.sublist_append_right before _)).cons_cons head |>.subset ring.neighbours.1
  have prevIn : links.prev node ∈ head :: (before ++ node :: after) :=
    (List.sublist_append_left before _).cons_cons head |>.subset ring.neighbours.2
  refine ⟨other.1.congr (fun place member => ?_) fun place member => ?_, other.2⟩
  · rw [unlink_next ring.next_ne, if_neg]
    rintro rfl
    exact disjoint _ member prevIn
  · have inside : place ∈ head' :: nodes' := by
      simpa [or_comm] using member
    rw [unlink_prev, if_neg]
    rintro rfl
    exact disjoint _ inside nextIn

end

end

/-! Loops over a ring. -/

section
variable [DecidableEq α] {step : α → α} {σ : Type}

/-- `for (node = step(head); node != head; node = step(node)) if (hit(node)) return node;`
from `node` on, for at most `fuel` turns. -/
def search (step : α → α) (head : α) (hit : α → Bool) : (fuel : Nat) → α → Option (Option α)
  | 0, _ => none
  | fuel + 1, node =>
    if node = head then some none else if hit node then some (some node) else search step head hit fuel (step node)

/-- The same loop without an exit: it carries a value along. -/
def scan (step : α → α) (head : α) (visit : σ → α → σ) : (fuel : Nat) → α → σ → Option σ
  | 0, _, _ => none
  | fuel + 1, node, carried => if node = head then some carried else scan step head visit fuel (step node) (visit carried node)

theorem Joined.search {fuel : Nat} (joined : links.Joined first nodes head) (absent : head ∉ nodes) (enough : nodes.length < fuel)
    (hit : α → Bool) : search links.next head hit fuel (links.next first) = some (nodes.find? hit) := by
  induction nodes generalizing first fuel with
  | nil =>
    obtain ⟨fuel, rfl⟩ := Nat.exists_eq_add_one.mpr enough
    rw [Links.search, if_pos joined.1, List.find?_nil]
  | cons node nodes ih =>
    obtain ⟨fuel, rfl⟩ := Nat.exists_eq_add_one.mpr (Nat.lt_of_le_of_lt (Nat.zero_le _) enough)
    obtain ⟨⟨forward, -⟩, rest⟩ := joined
    have apart : node ≠ head := fun same => absent (same ▸ List.mem_cons_self)
    rw [Links.search, forward, if_neg apart, List.find?_cons]
    cases found : hit node with
    | true => rfl
    | false => exact ih rest (fun member => absent (List.mem_cons_of_mem _ member)) (Nat.lt_of_succ_lt_succ enough)

theorem Joined.scan {fuel : Nat} (joined : links.Joined first nodes head) (absent : head ∉ nodes) (enough : nodes.length < fuel)
    (visit : σ → α → σ) (carried : σ) :
    scan links.next head visit fuel (links.next first) carried = some (nodes.foldl visit carried) := by
  induction nodes generalizing first fuel carried with
  | nil =>
    obtain ⟨fuel, rfl⟩ := Nat.exists_eq_add_one.mpr enough
    rw [Links.scan, if_pos joined.1, List.foldl_nil]
  | cons node nodes ih =>
    obtain ⟨fuel, rfl⟩ := Nat.exists_eq_add_one.mpr (Nat.lt_of_le_of_lt (Nat.zero_le _) enough)
    obtain ⟨⟨forward, -⟩, rest⟩ := joined
    have apart : node ≠ head := fun same => absent (same ▸ List.mem_cons_self)
    rw [Links.scan, forward, if_neg apart, List.foldl_cons]
    exact ih rest (fun member => absent (List.mem_cons_of_mem _ member)) (Nat.lt_of_succ_lt_succ enough) _

/-- Searching a ring forward finds what searching its nodes does. -/
theorem Ring.search {fuel : Nat} (ring : links.Ring head nodes) (enough : nodes.length < fuel) (hit : α → Bool) :
    Links.search links.next head hit fuel (links.next head) = some (nodes.find? hit) :=
  ring.1.search (List.nodup_cons.mp ring.2).1 enough hit

theorem Ring.search_back {fuel : Nat} (ring : links.Ring head nodes) (enough : nodes.length < fuel) (hit : α → Bool) :
    Links.search links.prev head hit fuel (links.prev head) = some (nodes.reverse.find? hit) :=
  ring.reversed.search (by rwa [List.length_reverse]) hit

theorem Ring.scan_back {fuel : Nat} (ring : links.Ring head nodes) (enough : nodes.length < fuel) (visit : σ → α → σ) (carried : σ) :
    Links.scan links.prev head visit fuel (links.prev head) carried = some (nodes.reverse.foldl visit carried) :=
  ring.reversed.1.scan (by simpa using (List.nodup_cons.mp ring.2).1) (by rwa [List.length_reverse]) visit carried

end

end Links
end Myfuse.Library
