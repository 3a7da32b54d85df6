import Mathlib.Tactic.Common
import Myfuse.Proofs.LogCommit

/-! What a recovery makes of a surviving disk, at every prefix of the raw writes
of a commit and of a recovery. -/

namespace Myfuse
open Library

/-! The header block as a format. -/

theorem headerN_putBlocks (header : Block) (index : Nat) (blocks : List Nat) :
    headerN (putBlocks header index blocks) = headerN header := by
  induction blocks generalizing header index with
  | nil => rfl
  | cons block blocks ih =>
    rw [putBlocks, ih, headerN, Bytes.field_setField_other _ (by omega), headerN]

theorem field_putBlocks_before {header : Block} {index earlier : Nat} {blocks : List Nat} (before : earlier < index) :
    (putBlocks header index blocks).field (4 + 4 * earlier) 4 = header.field (4 + 4 * earlier) 4 := by
  induction blocks generalizing header index with
  | nil => rfl
  | cons block blocks ih =>
    rw [putBlocks, ih (by omega), Bytes.field_setField_other _ (by omega)]

theorem field_putBlocks {header : Block} {index tail : Nat} {blocks : List Nat} (inside : tail < blocks.length)
    (fits : index + blocks.length ≤ NLOG) (small : ∀ block ∈ blocks, block < 2 ^ 32) :
    (putBlocks header index blocks).field (4 + 4 * (index + tail)) 4 = blocks[tail] := by
  induction blocks generalizing header index tail with
  | nil => cases inside
  | cons block blocks ih =>
    simp only [NLOG, MAXOPBLOCKS, List.length_cons] at fits inside
    cases tail with
    | zero =>
      have width : block < 256 ^ 4 := small block List.mem_cons_self
      rw [putBlocks, Nat.add_zero index, field_putBlocks_before (by omega : index < index + 1),
        Bytes.field_setField _ _ _ _ (by simp only [BSIZE]; omega), List.getElem_cons_zero, Nat.mod_eq_of_lt width]
    | succ tail =>
      rw [putBlocks, show index + (tail + 1) = index + 1 + tail by omega,
        ih (by omega) (by simp only [NLOG, MAXOPBLOCKS]; omega) fun other listed => small other (List.mem_cons_of_mem _ listed),
        List.getElem_cons_succ]

theorem headerN_putHeader (header : Block) {blocks : List Nat} (fits : blocks.length ≤ NLOG) :
    headerN (putHeader header blocks) = blocks.length := by
  simp only [NLOG, MAXOPBLOCKS] at fits
  have width : blocks.length % 256 ^ 4 = blocks.length := Nat.mod_eq_of_lt (by omega)
  rw [putHeader, headerN_putBlocks, headerN, Bytes.field_setField _ _ _ _ (by simp only [BSIZE]; omega), width,
    BitVec.toInt_eq_toNat_cond, BitVec.toNat_ofNat]
  omega

/-- The list read back from a header is the list stored in it. -/
theorem headerBlocks_putHeader (header : Block) {blocks : List Nat} (fits : blocks.length ≤ NLOG)
    (small : ∀ block ∈ blocks, block < 2 ^ 32) : headerBlocks (putHeader header blocks) = blocks := by
  unfold headerBlocks
  rw [headerN_putHeader header fits, Int.toNat_natCast]
  refine List.ext_getElem (by simp) fun tail low high => ?_
  rw [List.getElem_map, List.getElem_range]
  have stored : (putHeader header blocks).field (4 + 4 * (0 + tail)) 4 = blocks[tail] :=
    field_putBlocks high (by omega) small
  rwa [Nat.zero_add] at stored

theorem headerBlocks_empty {header : Block} (none : headerN header ≤ 0) : headerBlocks header = [] := by
  simp [headerBlocks, Int.toNat_of_nonpos none]

/-! A disk that recovers to an image. -/

/-- The header is well formed, and installing what it lists gives the image. -/
structure Recoverable (logstart nlog : Nat) (disk image : Nat → Block) : Prop where
  count : headerN (disk logstart) ≤ NLOG
  distinct : (headerBlocks (disk logstart)).Nodup
  outside : ∀ block ∈ headerBlocks (disk logstart), OutsideLog logstart nlog block
  room : headerBlocks (disk logstart) ≠ [] → (headerBlocks (disk logstart)).length < nlog
  agrees : ∀ block, OutsideLog logstart nlog block →
    applyWrites disk (logInstalls logstart (headerBlocks (disk logstart)) disk) block = image block

variable {logstart nlog : Nat} {disk image : Nat → Block}

theorem recoverable_of_empty (none : headerN (disk logstart) ≤ 0)
    (agrees : ∀ block, OutsideLog logstart nlog block → disk block = image block) :
    Recoverable logstart nlog disk image := by
  have empty := headerBlocks_empty none
  have small : (0 : Int) ≤ NLOG := Int.natCast_nonneg _
  refine ⟨by omega, by simp [empty], by simp [empty], by simp [empty], fun block outside => ?_⟩
  rw [empty]
  exact agrees block outside

theorem outside_start {block : Nat} (room : 0 < nlog) (outside : OutsideLog logstart nlog block) : block ≠ logstart := by
  simp only [OutsideLog] at outside
  omega

theorem OutsideLog.mono {small block : Nat} (outside : OutsideLog logstart nlog block) (less : small ≤ nlog) :
    OutsideLog logstart small block := by
  simp only [OutsideLog] at outside ⊢
  omega

/-- Writes outside the log region leave the header and the copies. -/
theorem region_kept {ws : List (Nat × Block)} (outside : ∀ write ∈ ws, OutsideLog logstart nlog write.1) {block : Nat}
    (low : logstart ≤ block) (high : block < logstart + nlog) : applyWrites disk ws block = disk block := by
  refine applyWrites_other _ fun write member same => ?_
  have := outside write member
  simp only [OutsideLog] at this
  omega

theorem logInstalls_congr {blocks : List Nat} {other : Nat → Block}
    (same : ∀ tail < blocks.length, disk (logstart + tail + 1) = other (logstart + tail + 1)) :
    logInstalls logstart blocks disk = logInstalls logstart blocks other := by
  refine List.ext_getElem (by simp) fun tail low _ => ?_
  simp only [logInstalls, List.getElem_mapIdx]
  rw [same tail (by simpa using low)]

namespace Recoverable

theorem installs_outside (recoverable : Recoverable logstart nlog disk image) :
    ∀ write ∈ logInstalls logstart (headerBlocks (disk logstart)) disk, OutsideLog logstart nlog write.1 := by
  intro write member
  obtain ⟨tail, inside, rfl⟩ := mem_logInstalls member
  exact recoverable.outside _ (List.getElem_mem inside)

/-- Further writes to listed blocks do not matter: they are installed again. -/
theorem installs (recoverable : Recoverable logstart nlog disk image) (count : Nat) (room : 0 < nlog) :
    Recoverable logstart nlog
      (applyWrites disk ((logInstalls logstart (headerBlocks (disk logstart)) disk).take count)) image := by
  have kept : ∀ block, logstart ≤ block → block < logstart + nlog →
      applyWrites disk ((logInstalls logstart (headerBlocks (disk logstart)) disk).take count) block = disk block :=
    fun block low high => region_kept
      (fun write member => recoverable.installs_outside write (List.mem_of_mem_take member)) low high
  have header := kept logstart (Nat.le_refl _) (by omega)
  have copies : logInstalls logstart (headerBlocks (disk logstart))
        (applyWrites disk ((logInstalls logstart (headerBlocks (disk logstart)) disk).take count)) =
      logInstalls logstart (headerBlocks (disk logstart)) disk := logInstalls_congr fun tail inside => by
    have listed : headerBlocks (disk logstart) ≠ [] := List.length_pos_iff.mp (by omega)
    have := recoverable.room listed
    exact kept _ (by omega) (by omega)
  constructor
  · rw [header]; exact recoverable.count
  · rw [header]; exact recoverable.distinct
  · rw [header]; exact recoverable.outside
  · rw [header]; exact recoverable.room
  · intro block outside
    rw [header, copies, applyWrites_take_all]
    exact recoverable.agrees block outside

/-- Once everything is installed the list can be cleared. -/
theorem cleared (recoverable : Recoverable logstart nlog disk image) (room : 0 < nlog) (header : Block) :
    Recoverable logstart nlog
      (applyWrites disk (logInstalls logstart (headerBlocks (disk logstart)) disk ++
        [(logstart, putHeader header [])])) image := by
  refine recoverable_of_empty ?_ fun block outside => ?_
  · rw [applyWrites_append, applyWrites_singleton, Function.update_self, headerN_putHeader _ (by simp)]
    simp
  · rw [applyWrites_append, applyWrites_singleton, Function.update_of_ne (outside_start room outside)]
    exact recoverable.agrees block outside

/-- A recovery interrupted anywhere leaves a disk that still recovers to the image. -/
theorem interrupted (recoverable : Recoverable logstart nlog disk image) (room : 0 < nlog) (crash : Nat) :
    Recoverable logstart nlog (applyWrites disk ((recoverWrites logstart disk).take crash)) image := by
  unfold recoverWrites
  by_cases early : crash ≤ (logInstalls logstart (headerBlocks (disk logstart)) disk).length
  · rw [List.take_append_of_le_length early]
    exact recoverable.installs crash room
  · rw [List.take_of_length_le (by rw [List.length_append, List.length_singleton]; omega)]
    exact recoverable.cleared room _

end Recoverable

/-! The prefixes of a commit. -/

/-- The non-empty header writes. -/
def commits (logstart : Nat) (ws : List (Nat × Block)) : Nat :=
  ws.countP fun write => write.1 == logstart && decide (headerN write.2 > 0)

theorem commits_append (logstart : Nat) (first second : List (Nat × Block)) :
    commits logstart (first ++ second) = commits logstart first + commits logstart second := List.countP_append

theorem commits_elsewhere {ws : List (Nat × Block)} (elsewhere : ∀ write ∈ ws, write.1 ≠ logstart) :
    commits logstart ws = 0 :=
  List.countP_eq_zero.mpr fun write member => by simp [elsewhere write member]

/-- The image after the first writes of a commit: old until the header is out. -/
def commitImage (blocks : List Nat) (disk contents : Nat → Block) (crash : Nat) : Nat → Block :=
  if crash ≤ blocks.length then disk else applyWrites disk (blocks.map fun block => (block, contents block))

section
variable {blocks : List Nat} {contents : Nat → Block} (room : blocks.length < nlog) (fits : blocks.length ≤ NLOG)
  (small : ∀ block ∈ blocks, block < 2 ^ 32) (distinct : blocks.Nodup)
  (outside : ∀ block ∈ blocks, OutsideLog logstart nlog block)

include room in
/-- The copies go to the region behind the header. -/
theorem copies_inside {write : Nat × Block} (member : write ∈ logCopies logstart blocks contents) :
    logstart < write.1 ∧ write.1 < logstart + nlog := by
  obtain ⟨tail, inside, rfl⟩ := mem_logCopies member
  simp only
  omega

include room fits small distinct outside in
/-- With the copies and the header out, the disk recovers to the new image. -/
theorem recoverable_committed (header : Block) (headerIs : header = putHeader (contents logstart) blocks) :
    Recoverable logstart nlog (applyWrites disk (logCopies logstart blocks contents ++ [(logstart, header)]))
      (applyWrites disk (blocks.map fun block => (block, contents block))) := by
  have top : applyWrites disk (logCopies logstart blocks contents ++ [(logstart, header)]) logstart = header := by
    rw [applyWrites_append, applyWrites_singleton, Function.update_self]
  have listed : headerBlocks header = blocks := headerIs ▸ headerBlocks_putHeader _ fits small
  have installs : logInstalls logstart blocks
        (applyWrites disk (logCopies logstart blocks contents ++ [(logstart, header)])) =
      blocks.map fun block => (block, contents block) := by
    refine List.ext_getElem (by simp) fun tail low _ => ?_
    have inside : tail < blocks.length := by simpa using low
    simp only [logInstalls, List.getElem_mapIdx, List.getElem_map, applyWrites_append, applyWrites_singleton]
    rw [Function.update_of_ne (by omega),
      applyWrites_mem _ (logCopies_addresses _ _ _) (List.mem_mapIdx.mpr ⟨tail, inside, rfl⟩)]
  constructor
  · rw [top, headerIs, headerN_putHeader _ fits]
    exact_mod_cast fits
  · rwa [top, listed]
  · rwa [top, listed]
  · rw [top, listed]
    exact fun _ => room
  · intro block apart
    rw [top, listed, installs]
    refine applyWrites_congr (.inr (applyWrites_other _ fun write member same => ?_))
    rcases List.mem_append.mp member with copy | last
    · have := copies_inside room copy
      simp only [OutsideLog] at apart
      omega
    · rw [List.mem_singleton.mp last] at same
      exact outside_start (by omega) apart same.symm

include room fits small distinct outside in
/-- Every prefix of a commit recovers to the old image or to the new one. -/
theorem recoverable_commit (none : headerN (disk logstart) ≤ 0) (crash : Nat) :
    Recoverable logstart nlog (applyWrites disk ((commitWrites logstart blocks contents).take crash))
      (commitImage blocks disk contents crash) := by
  obtain ⟨header, headerIs⟩ : ∃ header, header = putHeader (contents logstart) blocks := ⟨_, rfl⟩
  have shape : commitWrites logstart blocks contents =
      (logCopies logstart blocks contents ++ [(logstart, header)]) ++
        (blocks.map (fun block => (block, contents block)) ++ [(logstart, putHeader header [])]) := by
    rw [headerIs, commitWrites, List.append_assoc, List.singleton_append]
  unfold commitImage
  split
  next early =>
    have copies : (commitWrites logstart blocks contents).take crash = (logCopies logstart blocks contents).take crash := by
      rw [shape, List.append_assoc, List.take_append_of_le_length (by simpa using early)]
    rw [copies]
    have elsewhere : ∀ write ∈ (logCopies logstart blocks contents).take crash,
        logstart < write.1 ∧ write.1 < logstart + nlog :=
      fun write member => copies_inside room (List.mem_of_mem_take member)
    refine recoverable_of_empty ?_ fun block apart => ?_
    · rwa [applyWrites_other _ fun write member same => by have := elsewhere write member; omega]
    · refine applyWrites_other _ fun write member same => ?_
      have := elsewhere write member
      simp only [OutsideLog] at apart
      omega
  next late =>
    -- Past the header the commit does what a recovery of that disk does.
    have committed : Recoverable logstart nlog (applyWrites disk _) _ :=
      recoverable_committed room fits small distinct outside header headerIs
    obtain ⟨rest, restIs⟩ : ∃ rest, crash = (logCopies logstart blocks contents ++ [(logstart, header)]).length + rest :=
      ⟨crash - (blocks.length + 1), by simp; omega⟩
    have listed : headerBlocks header = blocks := headerIs ▸ headerBlocks_putHeader _ fits small
    have top : applyWrites disk (logCopies logstart blocks contents ++ [(logstart, header)]) logstart = header := by
      rw [applyWrites_append, applyWrites_singleton, Function.update_self]
    have resumed : recoverWrites logstart (applyWrites disk (logCopies logstart blocks contents ++ [(logstart, header)])) =
        blocks.map (fun block => (block, contents block)) ++ [(logstart, putHeader header [])] := by
      rw [recoverWrites, top, listed]
      congr 1
      refine List.ext_getElem (by simp) fun tail low _ => ?_
      have inside : tail < blocks.length := by simpa using low
      simp only [logInstalls, List.getElem_mapIdx, List.getElem_map, applyWrites_append, applyWrites_singleton]
      rw [Function.update_of_ne (by omega),
        applyWrites_mem _ (logCopies_addresses _ _ _) (List.mem_mapIdx.mpr ⟨tail, inside, rfl⟩)]
    rw [shape, restIs, List.take_length_add_append, applyWrites_append, ← resumed]
    exact committed.interrupted (by omega) rest

include room fits outside in
/-- The header write is the only one counted, and it is the one after the copies. -/
theorem commits_commit (some : blocks ≠ []) (crash : Nat) :
    commits logstart ((commitWrites logstart blocks contents).take crash) = if crash ≤ blocks.length then 0 else 1 := by
  have copies : ∀ count, commits logstart ((logCopies logstart blocks contents).take count) = 0 := fun count =>
    commits_elsewhere fun write member same => by
      have := copies_inside room (List.mem_of_mem_take member)
      omega
  have homes : ∀ count, commits logstart ((blocks.map fun block => (block, contents block)).take count) = 0 := fun count =>
    commits_elsewhere fun write member same => by
      obtain ⟨block, listed, rfl⟩ := List.mem_map.mp (List.mem_of_mem_take member)
      exact outside_start (by omega) (outside block listed) same
  unfold commitWrites
  split
  next early => rw [List.take_append_of_le_length (by simpa using early), copies]
  next late =>
    obtain ⟨rest, restIs⟩ : ∃ rest, crash = blocks.length + (rest + 1) := ⟨crash - blocks.length - 1, by omega⟩
    have counted : headerN (putHeader (contents logstart) blocks) > 0 := by
      rw [headerN_putHeader _ fits]
      exact_mod_cast List.length_pos_iff.mpr some
    have cleared : commits logstart (([(logstart, putHeader (putHeader (contents logstart) blocks) [])] :
        List (Nat × Block)).take (rest - blocks.length)) = 0 := by
      refine List.countP_eq_zero.mpr fun write member => ?_
      rw [List.mem_singleton.mp (List.mem_of_mem_take member), headerN_putHeader _ (by simp)]
      simp
    rw [List.take_append, List.take_of_length_le (by simp; omega), commits_append, restIs, length_logCopies,
      Nat.add_sub_cancel_left, List.take_succ_cons, List.take_append, List.length_map]
    have whole := copies blocks.length
    rw [List.take_of_length_le (by simp)] at whole
    rw [whole, show ∀ (write : Nat × Block) ws, write :: ws = [write] ++ ws from fun _ _ => rfl, commits_append,
      commits_append, homes, cleared]
    simp [commits, counted]

end
end Myfuse
