import Myfuse.LogDevice

/-! What the buffer cache serves. A machine is seen through the contents `bread`
finds, the references held and the disk; on that view every cache operation is
one update, and recycling is invisible while unreferenced buffers are clean. -/

namespace Myfuse
open Library Library.Exec

structure CacheView where
  disk : Nat → Block
  contents : Nat → Block
  refs : Nat → Nat
  log : Fslog
  written : List (Nat × Block)

def Machine.view (m : Machine) : CacheView :=
  { disk := m.disk, contents := m.contents, refs := m.refs, log := m.log, written := m.written }

namespace CacheView

/-- A buffer that may be recycled holds what the disk holds. -/
def Clean (v : CacheView) : Prop := ∀ blockno, v.refs blockno = 0 → v.contents blockno = v.disk blockno

def hold (v : CacheView) (blockno : Nat) : CacheView :=
  { v with refs := Function.update v.refs blockno (v.refs blockno + 1) }

def release (v : CacheView) (blockno : Nat) : CacheView :=
  { v with refs := Function.update v.refs blockno (v.refs blockno - 1) }

def setData (v : CacheView) (blockno : Nat) (data : Block) : CacheView :=
  { v with contents := Function.update v.contents blockno data }

/-- Blocks written through to the disk. -/
def writes (v : CacheView) (ws : List (Nat × Block)) : CacheView :=
  { v with disk := applyWrites v.disk ws, contents := applyWrites v.contents ws, written := v.written ++ ws }

theorem Clean.hold {v : CacheView} (clean : v.Clean) (blockno : Nat) : (v.hold blockno).Clean := by
  intro other unreferenced
  apply clean
  by_cases same : other = blockno
  · subst other
    simp [CacheView.hold] at unreferenced
  · simpa [CacheView.hold, Function.update_of_ne same] using unreferenced

theorem Clean.writes {v : CacheView} (clean : v.Clean) (ws : List (Nat × Block)) : (v.writes ws).Clean :=
  fun blockno unreferenced => applyWrites_congr (.inr (clean blockno unreferenced))

theorem writes_nil (v : CacheView) : v.writes [] = v := by simp [CacheView.writes]

theorem writes_append (v : CacheView) (first second : List (Nat × Block)) :
    (v.writes first).writes second = v.writes (first ++ second) := by
  simp [CacheView.writes, applyWrites_append]

@[simp] theorem writes_log (v : CacheView) (ws : List (Nat × Block)) : (v.writes ws).log = v.log := rfl

@[simp] theorem writes_refs (v : CacheView) (ws : List (Nat × Block)) : (v.writes ws).refs = v.refs := rfl

@[simp] theorem hold_log (v : CacheView) (blockno : Nat) : (v.hold blockno).log = v.log := rfl

@[simp] theorem release_log (v : CacheView) (blockno : Nat) : (v.release blockno).log = v.log := rfl

@[simp] theorem hold_contents (v : CacheView) (blockno : Nat) : (v.hold blockno).contents = v.contents := rfl

theorem release_hold (v : CacheView) (blockno : Nat) : (v.hold blockno).release blockno = v := by
  simp [CacheView.hold, CacheView.release]

theorem hold_comm (v : CacheView) (first second : Nat) : (v.hold first).hold second = (v.hold second).hold first := by
  simp only [CacheView.hold]
  congr 1
  funext blockno
  by_cases one : blockno = first <;> by_cases two : blockno = second <;>
    simp_all [Function.update_apply]

end CacheView

namespace Machine

theorem refs_pos {m : Machine} {blockno : Nat} (held : 0 < m.refs blockno) :
    ∃ buf, m.cache blockno = some buf := by
  unfold refs at held
  cases found : m.cache blockno with
  | some buf => exact ⟨buf, rfl⟩
  | none => simp [found] at held

theorem view_setCache (m : Machine) (blockno : Nat) (buf : Buf) :
    (m.setCache blockno buf).view = { m.view with
      contents := Function.update m.contents blockno buf.data
      refs := Function.update m.refs blockno buf.refcnt } := by
  unfold view
  congr 1
  all_goals
    funext other
    by_cases same : other = blockno <;> simp [contents, refs, setCache, same]

theorem view_recycle (recycled : Nat → Nat → Bool) {m : Machine} (clean : m.view.Clean) :
    (m.recycle recycled).view = m.view := by
  unfold view
  congr 1
  all_goals
    funext blockno
    have settled := clean blockno
    simp only [view, contents, refs, recycle] at settled ⊢
    cases found : m.cache blockno with
    | none => rfl
    | some buf =>
      simp only [found] at settled
      rw [Option.filter_some]
      cases dropped : (buf.refcnt == 0 && recycled m.tick blockno) with
      | false => rfl
      | true =>
        have unreferenced : buf.refcnt = 0 := beq_iff_eq.mp (Bool.and_eq_true_iff.mp dropped).1
        simp [settled unreferenced, unreferenced]

/-- Recycling takes no reference away. -/
theorem refs_recycle (recycled : Nat → Nat → Bool) (m : Machine) (blockno : Nat) : (m.recycle recycled).refs blockno = m.refs blockno := by
  unfold refs recycle
  dsimp only
  cases m.cache blockno with
  | none => rfl
  | some buf =>
    rw [Option.filter_some]
    cases dropped : (buf.refcnt == 0 && recycled m.tick blockno) with
    | false => rfl
    | true =>
      have unreferenced : buf.refcnt = 0 := beq_iff_eq.mp (Bool.and_eq_true_iff.mp dropped).1
      simp [unreferenced]

theorem view_hold (m : Machine) (blockno : Nat) : (m.hold blockno).view = m.view.hold blockno := by
  unfold hold
  cases found : m.cache blockno with
  | some buf =>
    have data : buf.data = m.contents blockno := by simp [contents, found]
    have count : buf.refcnt = m.refs blockno := by simp [refs, found]
    simp only [view_setCache, data, count, Function.update_eq_self]
    rfl
  | none =>
    have data : m.disk blockno = m.contents blockno := by simp [contents, found]
    have count : 1 = m.refs blockno + 1 := by simp [refs, found]
    simp only [view_setCache, data, Function.update_eq_self]
    rw [count]
    rfl

end Machine

section
variable (recycled : Nat → Nat → Bool) {m : Machine}

/-- The program returns and leaves the given view. -/
def Leads (program : LogM α) (m : Machine) (value : α) (v : CacheView) : Prop :=
  Ensures program m (fun result after => result = value ∧ after.view = v) (fun _ _ => False)

theorem Leads.bind {first : LogM α} {next : α → LogM β} {middle : CacheView} {value : α} {result : β}
    {final : CacheView} (head : Leads first m value middle)
    (rest : ∀ after, after.view = middle → Leads (next value) after result final) :
    Leads (first >>= next) m result final := by
  refine Ensures.bind head fun returned after reached => ?_
  obtain ⟨rfl, seen⟩ := reached
  exact rest after seen

/-- A program that leads somewhere, before one that need not. -/
theorem Leads.andThen {first : LogM α} {next : α → LogM β} {middle : CacheView} {value : α}
    {ok : β → Machine → Prop} {exit : Exit → Machine → Prop} (head : Leads first m value middle)
    (rest : ∀ after, after.view = middle → Ensures (next value) after ok exit) : Ensures (first >>= next) m ok exit := by
  have returns : Ensures first m (fun result after => result = value ∧ after.view = middle) exit :=
    Ensures.mono head (fun _ _ same => same) fun _ _ => False.elim
  refine returns.bind fun returned after reached => ?_
  obtain ⟨rfl, seen⟩ := reached
  exact rest after seen

theorem Leads.ensures {program : LogM Unit} {v : CacheView} {ok : CacheView → Prop} {exit : Exit → Machine → Prop}
    (leads : Leads program m () v) (holds : ok v) : Ensures program m (fun _ after => ok after.view) exit :=
  Ensures.mono leads (fun _ _ done => done.2 ▸ holds) fun _ _ => False.elim

theorem bread_leads (clean : m.view.Clean) (blockno : Nat) :
    Leads (bread recycled blockno) m (m.view.contents blockno) (m.view.hold blockno) := by
  have seen : ((m.recycle recycled).hold blockno).view = m.view.hold blockno := by
    rw [Machine.view_hold, Machine.view_recycle recycled clean]
  simp only [Leads, bread, ensures_bind, ensures_modify, ensures_get, ensures_pure]
  exact ⟨congrFun (congrArg CacheView.contents seen) blockno, seen⟩

theorem setData_leads {blockno : Nat} (held : 0 < m.view.refs blockno) (data : Block) :
    Leads (setData blockno data) m () (m.view.setData blockno data) := by
  obtain ⟨buf, found⟩ := Machine.refs_pos held
  simp only [Leads, setData, ensures_bind, ensures_get, found, ensures_modify, true_and]
  rw [Machine.view_setCache]
  simp [Machine.view, CacheView.setData, Machine.refs, found]

theorem bwrite_leads {blockno : Nat} (held : 0 < m.view.refs blockno) :
    Leads (bwrite blockno) m () { m.view with
      disk := Function.update m.disk blockno (m.contents blockno)
      written := m.written ++ [(blockno, m.contents blockno)] } := by
  obtain ⟨buf, found⟩ := Machine.refs_pos held
  have data : m.contents blockno = buf.data := by simp [Machine.contents, found]
  simp only [Leads, bwrite, ensures_bind, ensures_get, found, ensures_modify, true_and, data]
  unfold Machine.view
  congr 1
  funext other
  simp only [Machine.contents]
  by_cases same : other = blockno
  · subst other
    simp [found]
  · simp [Function.update_of_ne same]

theorem bunpin_leads {blockno : Nat} (held : 0 < m.view.refs blockno) :
    Leads (bunpin blockno) m () (m.view.release blockno) := by
  obtain ⟨buf, found⟩ := Machine.refs_pos held
  simp only [Leads, bunpin, ensures_bind, ensures_get, found, ensures_modify, true_and]
  rw [Machine.view_setCache]
  simp [Machine.view, CacheView.release, Machine.refs, Machine.contents, found]

theorem bpin_leads {blockno : Nat} (held : 0 < m.view.refs blockno) :
    Leads (bpin blockno) m () (m.view.hold blockno) := by
  obtain ⟨buf, found⟩ := Machine.refs_pos held
  simp only [Leads, bpin, ensures_bind, ensures_get, found, ensures_modify, true_and]
  rw [Machine.view_setCache]
  simp [Machine.view, CacheView.hold, Machine.refs, Machine.contents, found]

end
end Myfuse
