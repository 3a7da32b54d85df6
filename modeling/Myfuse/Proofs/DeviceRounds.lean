import Myfuse.DeviceFaults
import Myfuse.Proofs.LogCommit
import Myfuse.Proofs.LogRecovery

/-! The rounds of `commit` on a device that may fail, one by one. Here recycling
shows: a log buffer whose raw write failed no longer agrees with the disk. -/

namespace Myfuse.DeviceFaults
open Library Library.Exec

/-! On a device that never fails this is the `commit` of the crash model. -/

private theorem bwrite_never (blockno : Nat) :
    bwrite (fun _ => false) blockno = (do
      Myfuse.bwrite blockno
      pure true) := by
  funext m
  unfold bwrite Myfuse.bwrite
  rw [bind_apply, bind_apply, bind_apply, get_apply]
  dsimp only
  cases found : m.cache blockno <;> rfl

private theorem bwrite_then (blockno : Nat) (rest : LogM Unit) :
    (do
      let _ ← bwrite (fun _ => false) blockno
      rest) = (do
      Myfuse.bwrite blockno
      rest) := by
  funext m
  rw [bwrite_never, bind_apply, bind_apply, bind_apply]
  cases Myfuse.bwrite blockno m with
  | mk result after => cases result <;> rfl

theorem commit_never (recycled : Nat → Nat → Bool) :
    commit (fun _ => false) recycled = Myfuse.commit recycled := by
  simp only [commit, Myfuse.commit, writeFromCacheToLog, Myfuse.writeFromCacheToLog, writeLogHeaderToDisk,
    Myfuse.writeLogHeaderToDisk, installTransaction, Myfuse.installTransaction, bwrite_then]

/-! The cache operations and the rounds of the loops. -/

section
variable (fails : Nat → Bool) (recycled : Nat → Nat → Bool) {m : Machine}

theorem hold_eq (m : Machine) (blockno : Nat) :
    m.hold blockno = m.setCache blockno { data := m.contents blockno, refcnt := m.refs blockno + 1 } := by
  unfold Machine.hold Machine.contents Machine.refs
  cases m.cache blockno <;> rfl

theorem bread_eq (m : Machine) (blockno : Nat) : bread recycled blockno m =
    (.ok ((m.recycle recycled).contents blockno),
      (m.recycle recycled).setCache blockno
        { data := (m.recycle recycled).contents blockno, refcnt := (m.recycle recycled).refs blockno + 1 }) := by
  have found : ((m.recycle recycled).hold blockno).contents blockno = (m.recycle recycled).contents blockno := by
    rw [hold_eq]
    simp [Machine.contents, Machine.setCache]
  rw [← hold_eq, ← found]
  rfl

theorem setData_eq {blockno count : Nat} {old : Block} (found : m.cache blockno = some { data := old, refcnt := count })
    (data : Block) : setData blockno data m = (.ok (), m.setCache blockno { data, refcnt := count }) := by
  simp [setData, bind_apply, found]

theorem bunpin_eq {blockno count : Nat} {data : Block} (found : m.cache blockno = some { data, refcnt := count + 1 }) :
    bunpin blockno m = (.ok (), m.setCache blockno { data, refcnt := count }) := by
  simp [bunpin, bind_apply, found]

theorem brelse_eq {blockno count : Nat} {data : Block} (found : m.cache blockno = some { data, refcnt := count + 1 }) :
    brelse blockno m = (.ok (), m.setCache blockno { data, refcnt := count }) := bunpin_eq found

theorem bwrite_eq {blockno : Nat} {buf : Buf} (found : m.cache blockno = some buf) :
    bwrite fails blockno m = (.ok (!fails m.written.length), { m with
      disk := if fails m.written.length then m.disk else Function.update m.disk blockno buf.data
      written := m.written ++ [(blockno, buf.data)] }) := by
  simp [bwrite, bind_apply, found]

/-- A buffer after the recycling of one `bread`. -/
def aged (tick blockno : Nat) (slot : Option Buf) : Option Buf :=
  slot.filter fun buf => !(buf.refcnt == 0 && recycled tick blockno)

theorem cache_recycle (m : Machine) (blockno : Nat) :
    (m.recycle recycled).cache blockno = aged recycled m.tick blockno (m.cache blockno) := rfl

theorem aged_held {buf : Buf} (held : 0 < buf.refcnt) (tick blockno : Nat) :
    aged recycled tick blockno (some buf) = some buf := by
  simp [aged, Option.filter_some, Nat.ne_of_gt held]

/-- What a round of a copy loop leaves: one raw write, the buffer that was read as it was. -/
structure Round (m after : Machine) (target source : Nat) (data : Block) : Prop where
  others : ∀ other, other ≠ target → other ≠ source →
    after.cache other = aged recycled (m.tick + 1) other (aged recycled m.tick other (m.cache other))
  disk : after.disk = faultyWrites fails m.written.length m.disk [(target, data)]
  written : after.written = m.written ++ [(target, data)]
  tick : after.tick = m.tick + 2
  log : after.log = m.log

theorem copyRound_eq {to_buf from_buf : Nat} {buf : Buf} (apart : to_buf ≠ from_buf)
    (pinned : m.cache from_buf = some buf) (held : 0 < buf.refcnt) : ∃ after,
    (do
      let _ ← bread recycled to_buf
      let data ← bread recycled from_buf
      setData to_buf data
      let _ ← bwrite fails to_buf
      brelse to_buf
      brelse from_buf) m = (.ok (), after) ∧ Round fails recycled m after to_buf from_buf buf.data ∧
      after.cache to_buf = some { data := buf.data, refcnt := m.refs to_buf } ∧ after.cache from_buf = some buf := by
  rw [bind_ok (bread_eq recycled m to_buf)]
  set m₁ := (m.recycle recycled).setCache to_buf
    { data := (m.recycle recycled).contents to_buf, refcnt := (m.recycle recycled).refs to_buf + 1 } with first
  have source₁ : m₁.cache from_buf = some buf := by
    simp [first, Machine.setCache, Function.update_of_ne apart.symm, cache_recycle, pinned, aged_held recycled held]
  have source₂ : (m₁.recycle recycled).cache from_buf = some buf := by
    rw [cache_recycle, source₁, aged_held recycled held]
  have target₂ : (m₁.recycle recycled).cache to_buf =
      some { data := (m.recycle recycled).contents to_buf, refcnt := m.refs to_buf + 1 } := by
    rw [cache_recycle]
    simp [first, Machine.setCache, Machine.refs_recycle recycled, aged]
  have data₂ : (m₁.recycle recycled).contents from_buf = buf.data := by simp [Machine.contents, source₂]
  have count₂ : (m₁.recycle recycled).refs from_buf = buf.refcnt := by simp [Machine.refs, source₂]
  rw [bind_ok (bread_eq recycled m₁ from_buf), data₂, count₂]
  set m₂ := (m₁.recycle recycled).setCache from_buf { data := buf.data, refcnt := buf.refcnt + 1 } with second
  have target₃ : m₂.cache to_buf = some { data := (m.recycle recycled).contents to_buf, refcnt := m.refs to_buf + 1 } := by
    simpa [second, Machine.setCache, Function.update_of_ne apart] using target₂
  rw [bind_ok (setData_eq target₃ buf.data)]
  set m₃ := m₂.setCache to_buf { data := buf.data, refcnt := m.refs to_buf + 1 } with third
  have target₄ : m₃.cache to_buf = some { data := buf.data, refcnt := m.refs to_buf + 1 } := by
    simp [third, Machine.setCache]
  rw [bind_ok (bwrite_eq fails target₄)]
  set m₄ : Machine := { m₃ with
    disk := if fails m₃.written.length then m₃.disk else Function.update m₃.disk to_buf buf.data
    written := m₃.written ++ [(to_buf, buf.data)] } with fourth
  have target₅ : m₄.cache to_buf = some { data := buf.data, refcnt := m.refs to_buf + 1 } := target₄
  rw [bind_ok (brelse_eq target₅)]
  set m₅ := m₄.setCache to_buf { data := buf.data, refcnt := m.refs to_buf } with fifth
  have source₅ : m₅.cache from_buf = some { data := buf.data, refcnt := buf.refcnt + 1 } := by
    simp [fifth, fourth, third, second, Machine.setCache, Function.update_of_ne apart.symm]
  refine ⟨_, brelse_eq source₅, ⟨fun other notTo notFrom => ?_, ?_, rfl, rfl, rfl⟩, ?_, ?_⟩
  · simp [fifth, fourth, third, second, first, Machine.setCache, Function.update_of_ne notTo,
      Function.update_of_ne notFrom, cache_recycle]
    rfl
  · rw [faultyWrites_singleton]
    rfl
  · simp [fifth, Machine.setCache, Function.update_of_ne apart]
  · simp [Machine.setCache]

theorem installRound_eq {log_buf dst_buf : Nat} {buf : Buf} (apart : log_buf ≠ dst_buf)
    (pinned : m.cache dst_buf = some buf) (held : 0 < buf.refcnt) : ∃ after,
    (do
      let data ← bread recycled log_buf
      let _ ← bread recycled dst_buf
      setData dst_buf data
      let _ ← bwrite fails dst_buf
      bunpin dst_buf
      brelse log_buf
      brelse dst_buf) m = (.ok (), after) ∧
      Round fails recycled m after dst_buf log_buf ((m.recycle recycled).contents log_buf) := by
  rw [bind_ok (bread_eq recycled m log_buf)]
  set data := (m.recycle recycled).contents log_buf
  set m₁ := (m.recycle recycled).setCache log_buf { data, refcnt := (m.recycle recycled).refs log_buf + 1 } with first
  have source₁ : m₁.cache dst_buf = some buf := by
    simp [first, Machine.setCache, Function.update_of_ne apart.symm, cache_recycle, pinned, aged_held recycled held]
  have source₂ : (m₁.recycle recycled).cache dst_buf = some buf := by
    rw [cache_recycle, source₁, aged_held recycled held]
  have target₂ : (m₁.recycle recycled).cache log_buf =
      some { data, refcnt := (m.recycle recycled).refs log_buf + 1 } := by
    rw [cache_recycle]
    simp [first, Machine.setCache, aged]
  have data₂ : (m₁.recycle recycled).contents dst_buf = buf.data := by simp [Machine.contents, source₂]
  have count₂ : (m₁.recycle recycled).refs dst_buf = buf.refcnt := by simp [Machine.refs, source₂]
  rw [bind_ok (bread_eq recycled m₁ dst_buf), data₂, count₂]
  set m₂ := (m₁.recycle recycled).setCache dst_buf { data := buf.data, refcnt := buf.refcnt + 1 } with second
  have source₃ : m₂.cache dst_buf = some { data := buf.data, refcnt := buf.refcnt + 1 } := by
    simp [second, Machine.setCache]
  rw [bind_ok (setData_eq source₃ data)]
  set m₃ := m₂.setCache dst_buf { data, refcnt := buf.refcnt + 1 } with third
  have source₄ : m₃.cache dst_buf = some { data, refcnt := buf.refcnt + 1 } := by simp [third, Machine.setCache]
  rw [bind_ok (bwrite_eq fails source₄)]
  set m₄ : Machine := { m₃ with
    disk := if fails m₃.written.length then m₃.disk else Function.update m₃.disk dst_buf data
    written := m₃.written ++ [(dst_buf, data)] } with fourth
  have source₅ : m₄.cache dst_buf = some { data, refcnt := buf.refcnt + 1 } := source₄
  rw [bind_ok (bunpin_eq source₅)]
  set m₅ := m₄.setCache dst_buf { data, refcnt := buf.refcnt } with fifth
  have target₆ : m₅.cache log_buf = some { data, refcnt := (m.recycle recycled).refs log_buf + 1 } := by
    simpa [fifth, fourth, third, second, Machine.setCache, Function.update_of_ne apart] using target₂
  have source₆ : m₅.cache dst_buf = some { data, refcnt := buf.refcnt } := by simp [fifth, Machine.setCache]
  rw [bind_ok (brelse_eq target₆)]
  set m₆ := m₅.setCache log_buf { data, refcnt := (m.recycle recycled).refs log_buf } with sixth
  have source₇ : m₆.cache dst_buf = some { data, refcnt := buf.refcnt - 1 + 1 } := by
    rw [Nat.sub_add_cancel held]
    simpa [sixth, Machine.setCache, Function.update_of_ne apart.symm] using source₆
  refine ⟨_, brelse_eq source₇, ⟨fun other notDst notLog => ?_, ?_, rfl, rfl, rfl⟩⟩
  · simp [sixth, fifth, fourth, third, second, first, Machine.setCache, Function.update_of_ne notDst,
      Function.update_of_ne notLog, cache_recycle]
    rfl
  · rw [faultyWrites_singleton]
    rfl

/-- What a write of the header leaves. -/
structure HeaderWritten (m after : Machine) (header : Block) : Prop where
  lists : m.log.block.length ≤ NLOG → (∀ blockno ∈ m.log.block, blockno < 2 ^ 32) → headerBlocks header = m.log.block
  others : ∀ other, other ≠ m.log.start → after.cache other = aged recycled m.tick other (m.cache other)
  disk : after.disk = faultyWrites fails m.written.length m.disk [(m.log.start, header)]
  written : after.written = m.written ++ [(m.log.start, header)]
  tick : after.tick = m.tick + 1
  log : after.log = m.log

theorem writeLogHeaderToDisk_eq (m : Machine) : ∃ after header,
    writeLogHeaderToDisk fails recycled m = (.ok (), after) ∧ HeaderWritten fails recycled m after header := by
  unfold writeLogHeaderToDisk
  rw [bind_ok (get_apply), bind_ok (bread_eq recycled m m.log.start)]
  set header := (m.recycle recycled).contents m.log.start
  set m₁ := (m.recycle recycled).setCache m.log.start
    { data := header, refcnt := (m.recycle recycled).refs m.log.start + 1 } with first
  have found₁ : m₁.cache m.log.start = some { data := header, refcnt := (m.recycle recycled).refs m.log.start + 1 } := by
    simp [first, Machine.setCache]
  rw [bind_ok (setData_eq found₁ _)]
  set m₂ := m₁.setCache m.log.start
    { data := putHeader header m.log.block, refcnt := (m.recycle recycled).refs m.log.start + 1 } with second
  have found₂ : m₂.cache m.log.start =
      some { data := putHeader header m.log.block, refcnt := (m.recycle recycled).refs m.log.start + 1 } := by
    simp [second, Machine.setCache]
  rw [bind_ok (bwrite_eq fails found₂)]
  refine ⟨_, putHeader header m.log.block, brelse_eq found₂, ⟨fun fits small => headerBlocks_putHeader header fits small, fun other apart => ?_, ?_, rfl, rfl, rfl⟩⟩
  · simp [second, first, Machine.setCache, Function.update_of_ne apart, cache_recycle]
  · rw [faultyWrites_singleton]
    rfl

end

end Myfuse.DeviceFaults
