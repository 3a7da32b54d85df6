import Myfuse.DiskDiagnostic
import Myfuse.Proofs.FindOrAlloc
import Myfuse.Proofs.FreeTree
import Myfuse.Proofs.WellFormed

/-! The diagnostic against the file system: it records the blocks that `itrunc` would
free, and reports the data blocks in use that no allocated inode reaches. -/

namespace Myfuse
open Library Library.Exec Library.BlockTree

/-- The pointers in the blocks of a disk. -/
def pointers (store : Nat → Block) (blockno index : Nat) : Nat := FS.entry (store blockno) index

theorem pointers_outside (store : Nat → Block) (blockno : Nat) {index : Nat} (outside : NINDIRECT1 ≤ index) : pointers store blockno index = 0 :=
  FS.entry_outside _ outside

namespace Diagnostic
variable {state middle after : Diagnostic} {new new' : Nat → Prop}

/-- So much has been added to the set; nothing else has changed. -/
structure Recorded (state : Diagnostic) (new : Nat → Prop) (after : Diagnostic) : Prop where
  fs : after.fs = state.fs
  locked : after.locked = state.locked
  leak : after.leak = state.leak
  used : ∀ blockno, blockno ∈ after.block_used ↔ blockno ∈ state.block_used ∨ new blockno

theorem Recorded.refl (state : Diagnostic) : Recorded state (fun _ => False) state := ⟨rfl, rfl, rfl, fun _ => (or_iff_left id).symm⟩

theorem Recorded.congr (recorded : Recorded state new after) (same : ∀ blockno, new' blockno ↔ new blockno) : Recorded state new' after :=
  { recorded with used := fun blockno => by rw [recorded.used, same] }

theorem Recorded.trans (first : Recorded state new middle) (second : Recorded middle new' after) :
    Recorded state (fun blockno => new blockno ∨ new' blockno) after :=
  ⟨second.fs.trans first.fs, second.locked.trans first.locked, second.leak.trans first.leak,
    fun blockno => by rw [second.used, first.used, or_assoc]⟩

theorem use_records (blockno : Nat) (state : Diagnostic) :
    Ensures (use blockno) state (fun _ => Recorded state (· = blockno)) fun _ _ => False :=
  (ensures_modify _).mpr ⟨rfl, rfl, rfl, fun other => by rw [List.mem_insert_iff, or_comm]⟩

/-- A loop adds what its rounds add. -/
theorem loop_records {body : Nat → DiagnosticM Unit} {add : Nat → Nat → Prop} {lo count : Nat}
    (each : ∀ i current, lo ≤ i → i < lo + count → current.fs = state.fs → current.locked = state.locked →
      Ensures (body i) current (fun _ => Recorded current (add i)) fun _ _ => False) :
    Ensures (forRange lo count body) state (fun _ => Recorded state fun blockno => ∃ i, lo ≤ i ∧ i < lo + count ∧ add i blockno) fun _ _ => False := by
  refine Ensures.forRange (fun i current => Recorded state (fun blockno => ∃ j, lo ≤ j ∧ j < i ∧ add j blockno) current) ?_
    fun i current low high reached => (each i current low high reached.fs reached.locked).weaken fun _ after more => ?_
  · refine (Recorded.refl state).congr fun blockno => iff_of_false ?_ id
    rintro ⟨j, low, high, -⟩
    omega
  · refine (reached.trans more).congr fun blockno => ?_
    constructor
    · rintro ⟨j, low, high, added⟩
      rcases Nat.lt_succ_iff_lt_or_eq.mp high with earlier | rfl
      · exact .inl ⟨j, low, earlier, added⟩
      · exact .inr added
    · rintro (⟨j, low, earlier, added⟩ | added)
      · exact ⟨j, low, Nat.lt_succ_of_lt earlier, added⟩
      · exact ⟨i, low, Nat.lt_succ_self i, added⟩

/-- No index block of a tree is locked, and none is met again below itself. -/
def Unlocked (locked : List Nat) (ptr : Nat → Nat → Nat) (depth top : Nat) : Prop :=
  Inner ptr depth top fun path block => block ∉ locked ∧
    ∀ more : List Nat, more ≠ [] → (path ++ more).length < depth → down ptr top (path ++ more) ≠ block

theorem Unlocked.entry {locked : List Nat} {ptr : Nat → Nat → Nat} {depth top : Nat} (unlocked : Unlocked locked ptr (depth + 1) top) (present : top ≠ 0)
    (index : Nat) : Unlocked (top :: locked) ptr depth (ptr top index) := by
  have step : ∀ path, down ptr top (index :: path) = down ptr (ptr top index) path := fun path => by rw [down, if_neg present]
  intro path short held
  obtain ⟨free, below⟩ := Inner.entry unlocked present index path short held
  refine ⟨fun again => (List.mem_cons.mp again).elim (fun again => ?_) free, fun more nonempty shorter => ?_⟩
  · refine (Inner.top unlocked present).2 (index :: path) (List.cons_ne_nil _ _) (Nat.succ_lt_succ short) ?_
    rw [List.nil_append, step, again]
  · have apart := below more nonempty (by rw [List.cons_append, List.length_cons]; omega)
    rw [List.cons_append, step] at apart
    exact apart

/-- The four functions by the number of levels below the blocks listed. -/
def printMap : Nat → (Nat → Nat) → Nat → DiagnosticM Unit
  | 0 => printDirectMap
  | level + 1 => printIndirectMap (printMap level)

theorem printMap_records : ∀ (level : Nat) (addrs : Nat → Nat) (n : Nat) (state : Diagnostic),
    (∀ i < n, Unlocked state.locked (pointers state.fs.store) level (addrs i)) →
    Ensures (printMap level addrs n) state
      (fun _ => Recorded state fun blockno => ∃ i < n, Reach (pointers state.fs.store) level (addrs i) blockno) fun _ _ => False := by
  intro level
  have bounded {n : Nat} {add : Nat → Nat → Prop} {state after : Diagnostic}
      (recorded : Recorded state (fun blockno => ∃ i, 0 ≤ i ∧ i < 0 + n ∧ add i blockno) after) :
      Recorded state (fun blockno => ∃ i < n, add i blockno) after :=
    recorded.congr fun blockno => by simp only [Nat.zero_le, true_and, Nat.zero_add]
  induction level with
  | zero =>
    intro addrs n state _
    refine (loop_records fun i current _ _ same _ => ?_).weaken fun _ _ => bounded
    split
    next present => exact (use_records _ current).weaken fun _ _ recorded => recorded.congr fun blockno => reach_zero present
    next missing =>
      rw [not_not.mp missing]
      exact (ensures_pure ()).mpr ((Recorded.refl current).congr fun blockno => iff_of_false reach_missing id)
  | succ level ih =>
    intro addrs n state unlocked
    refine (loop_records fun i current _ inside same locks => ?_).weaken fun _ _ => bounded
    have tree := unlocked i (by omega)
    rw [← locks, ← same] at tree
    rw [← same]
    generalize addrs i = top at tree
    split
    next present =>
      refine Ensures.bind (use_records top current) fun _ used recorded => ?_
      have free : top ∉ used.locked := by
        rw [recorded.locked]
        exact (Inner.top tree present).1
      refine ensures_bind.mpr ?_
      unfold loggedRead
      rw [ensures_bind, ensures_get, if_neg free, ensures_bind, ensures_modify, ensures_pure]
      refine Ensures.bind (ih (FS.entry (used.fs.store top)) NINDIRECT1 { used with locked := top :: used.locked } fun j _ => ?_)
        fun _ below records => (ensures_modify _).mpr ?_
      · show Unlocked (top :: used.locked) (pointers used.fs.store) level _
        rw [recorded.locked, recorded.fs]
        exact tree.entry present j
      · have unlocks : below.locked.erase top = used.locked := by
          rw [records.locked]
          exact List.erase_cons_head _ _
        have released : Recorded used (fun blockno => ∃ j < NINDIRECT1, Reach (pointers used.fs.store) level (pointers used.fs.store top j) blockno)
            { below with locked := below.locked.erase top } := ⟨records.fs, unlocks, records.leak, records.used⟩
        refine (recorded.trans released).congr fun blockno => ?_
        show _ ↔ blockno = top ∨ ∃ j < NINDIRECT1, Reach (pointers used.fs.store) level (pointers used.fs.store top j) blockno
        rw [reach_succ present, recorded.fs]
        refine or_congr_right ⟨fun ⟨j, reached⟩ => ⟨j, ?_, reached⟩, fun ⟨j, _, reached⟩ => ⟨j, reached⟩⟩
        by_contra outside
        rw [pointers_outside _ _ (Nat.not_lt.mp outside)] at reached
        exact reach_missing reached
    next missing =>
      rw [not_not.mp missing]
      exact (ensures_pure ()).mpr ((Recorded.refl current).congr fun blockno => iff_of_false reach_missing id)

/-- One slot that holds a tree. -/
theorem slot_records (level slot : Nat) (dip : Dinode) (unlocked : Unlocked state.locked (pointers state.fs.store) level (dip.addrs slot)) :
    Ensures (printSlot (printMap level) dip slot) state
      (fun _ => Recorded state (Reach (pointers state.fs.store) level (dip.addrs slot))) fun _ _ => False := by
  unfold printSlot
  split
  next =>
    refine (printMap_records level (fun i => dip.addrs (slot + i)) 1 state fun i first => ?_).weaken fun _ _ recorded =>
      recorded.congr fun blockno => ?_
    · rw [Nat.lt_one_iff.mp first]
      exact unlocked
    · simp only [Nat.lt_one_iff, exists_eq_left, Nat.add_zero]
  next missing =>
    rw [not_not.mp missing]
    exact (ensures_pure ()).mpr ((Recorded.refl state).congr fun blockno => iff_of_false reach_missing id)

/-- The blocks that the slots of a dinode reach. -/
def Tree (store : Nat → Block) (addrs : Nat → Nat) (blockno : Nat) : Prop :=
  ∃ slot < NBLOCKADDR, Reach (pointers store) (levels slot) (addrs slot) blockno

theorem levels_direct {slot : Nat} (direct : slot < NDIRECT) : levels slot = 0 := by
  simp only [levels, NDIRECT] at direct ⊢
  omega

/-- The direct slots, and the three others. -/
theorem tree_cases (store : Nat → Block) (addrs : Nat → Nat) (blockno : Nat) : Tree store addrs blockno ↔
    (((∃ slot < NDIRECT, Reach (pointers store) 0 (addrs slot) blockno) ∨ Reach (pointers store) 1 (addrs NDIRECT) blockno) ∨
      Reach (pointers store) 2 (addrs (NDIRECT + 1)) blockno) ∨ Reach (pointers store) 3 (addrs (NDIRECT + 2)) blockno := by
  constructor
  · rintro ⟨slot, small, reached⟩
    rcases Nat.lt_or_ge slot NDIRECT with direct | indirect
    · rw [levels_direct direct] at reached
      exact .inl (.inl (.inl ⟨slot, direct, reached⟩))
    · have cases : slot = NDIRECT ∨ slot = NDIRECT + 1 ∨ slot = NDIRECT + 2 := by
        simp only [NBLOCKADDR, NSUBDIRECT, NDIRECT] at small indirect ⊢
        omega
      rcases cases with rfl | rfl | rfl
      · exact .inl (.inl (.inr reached))
      · exact .inl (.inr reached)
      · exact .inr reached
  · rintro (((⟨slot, direct, reached⟩ | reached) | reached) | reached)
    · exact ⟨slot, Nat.lt_trans direct (by decide), by rw [levels_direct direct]; exact reached⟩
    · exact ⟨NDIRECT, by decide, reached⟩
    · exact ⟨NDIRECT + 1, by decide, reached⟩
    · exact ⟨NDIRECT + 2, by decide, reached⟩

/-- `output_dinode` records what the inode reaches. -/
theorem outputDinode_records (state : Diagnostic) (dip : Dinode)
    (unlocked : ∀ slot < NBLOCKADDR, Unlocked state.locked (pointers state.fs.store) (levels slot) (dip.addrs slot)) :
    Ensures (outputDinode dip) state (fun _ => Recorded state (Tree state.fs.store dip.addrs)) fun _ _ => False := by
  unfold outputDinode
  have direct := printMap_records 0 dip.addrs NDIRECT state fun slot small => by
    have tree := unlocked slot (Nat.lt_trans small (by decide))
    rwa [levels_direct small] at tree
  refine Ensures.bind direct fun _ first recorded₁ => ?_
  have tree₁ := unlocked NDIRECT (by decide)
  rw [← recorded₁.locked, ← recorded₁.fs] at tree₁
  refine Ensures.bind (slot_records 1 NDIRECT dip tree₁) fun _ second recorded₂ => ?_
  have tree₂ := unlocked (NDIRECT + 1) (by decide)
  rw [← recorded₁.locked, ← recorded₁.fs, ← recorded₂.locked, ← recorded₂.fs] at tree₂
  refine Ensures.bind (slot_records 2 (NDIRECT + 1) dip tree₂) fun _ third recorded₃ => ?_
  have tree₃ := unlocked (NDIRECT + 2) (by decide)
  rw [← recorded₁.locked, ← recorded₁.fs, ← recorded₂.locked, ← recorded₂.fs, ← recorded₃.locked, ← recorded₃.fs] at tree₃
  refine (slot_records 3 (NDIRECT + 2) dip tree₃).weaken fun _ after recorded₄ => ?_
  refine (((recorded₁.trans recorded₂).trans recorded₃).trans recorded₄).congr fun blockno => ?_
  rw [recorded₃.fs, recorded₂.fs, recorded₁.fs]
  exact tree_cases _ _ _

/-- The dinodes that `count_inodes` goes through. -/
def Allocated (sb : Superblock) (store : Nat → Block) (inum : Nat) : Prop :=
  1 ≤ inum ∧ inum < sb.ninodes ∧ (Dinode.read (store (sb.iblock inum)) (Dinode.offsetOf inum)).type ≠ T_UNUSE_INODE_MYFUSE

/-- What an allocated inode of a disk reaches. -/
def TreeOf (sb : Superblock) (store : Nat → Block) (inum : Nat) : Nat → Prop :=
  Tree store (Dinode.read (store (sb.iblock inum)) (Dinode.offsetOf inum)).addrs

/-- No index block of an inode is the block of its dinode, or is met again below itself. -/
def Readable (sb : Superblock) (store : Nat → Block) (inum : Nat) : Prop :=
  ∀ slot < NBLOCKADDR, Unlocked [sb.iblock inum] (pointers store) (levels slot)
    ((Dinode.read (store (sb.iblock inum)) (Dinode.offsetOf inum)).addrs slot)

theorem countInodes_records (free : state.locked = [])
    (readable : ∀ inum, Allocated state.fs.sb state.fs.store inum → Readable state.fs.sb state.fs.store inum) :
    Ensures (countInodes outputDinode) state
      (fun _ => Recorded state fun blockno => ∃ inum, Allocated state.fs.sb state.fs.store inum ∧ TreeOf state.fs.sb state.fs.store inum blockno)
      fun _ _ => False := by
  unfold countInodes
  rw [ensures_bind, ensures_get]
  have rounds : ∀ inum current, 1 ≤ inum → inum < 1 + (state.fs.sb.ninodes - 1) → current.fs = state.fs → current.locked = state.locked →
      Ensures (do
          let bp ← loggedRead (state.fs.sb.iblock inum)
          let dip := Dinode.read bp (Dinode.offsetOf inum)
          (if dip.type ≠ T_UNUSE_INODE_MYFUSE then outputDinode dip else pure ())
          loggedRelse (state.fs.sb.iblock inum)) current
        (fun _ => Recorded current fun blockno => Allocated state.fs.sb state.fs.store inum ∧ TreeOf state.fs.sb state.fs.store inum blockno)
        fun _ _ => False := by
    intro inum current low high same locks
    have inside : inum < state.fs.sb.ninodes := by omega
    have unlocked : current.locked = [] := locks.trans free
    have notLocked : state.fs.sb.iblock inum ∉ current.locked := by
      rw [unlocked]
      exact List.not_mem_nil
    refine ensures_bind.mpr ?_
    unfold loggedRead
    rw [ensures_bind, ensures_get, if_neg notLocked, ensures_bind, ensures_modify, ensures_pure]
    generalize enteredIs : ({ current with locked := state.fs.sb.iblock inum :: current.locked } : Diagnostic) = entered
    have sameFs : entered.fs = state.fs := by rw [← enteredIs, same]
    have locks' : entered.locked = [state.fs.sb.iblock inum] := by rw [← enteredIs, unlocked]
    have fills : Ensures (if (Dinode.read (current.fs.store (state.fs.sb.iblock inum)) (Dinode.offsetOf inum)).type ≠ T_UNUSE_INODE_MYFUSE then
          outputDinode (Dinode.read (current.fs.store (state.fs.sb.iblock inum)) (Dinode.offsetOf inum)) else pure ()) entered
        (fun _ => Recorded entered fun blockno => Allocated state.fs.sb state.fs.store inum ∧ TreeOf state.fs.sb state.fs.store inum blockno)
        fun _ _ => False := by
      rw [same]
      split
      next used =>
        have allocated : Allocated state.fs.sb state.fs.store inum := ⟨low, inside, used⟩
        refine (outputDinode_records _ _ fun slot small => ?_).weaken fun _ _ recorded => recorded.congr fun blockno => ?_
        · rw [locks', sameFs]
          exact readable inum allocated slot small
        · rw [sameFs]
          exact and_iff_right allocated
      next unused =>
        exact (ensures_pure ()).mpr ((Recorded.refl _).congr fun blockno => iff_of_false (fun both => unused both.1.2.2) id)
    refine Ensures.bind fills fun _ after recorded => (ensures_modify _).mpr ⟨?_, ?_, ?_, fun blockno => ?_⟩
    · rw [same, ← sameFs]
      exact recorded.fs
    · show after.locked.erase _ = _
      rw [recorded.locked, locks', unlocked]
      exact List.erase_cons_head _ _
    · show after.leak = _
      rw [recorded.leak, ← enteredIs]
    · show blockno ∈ after.block_used ↔ _
      rw [recorded.used, ← enteredIs]
  refine (loop_records rounds).weaken fun _ after recorded => recorded.congr fun blockno => ?_
  constructor
  · rintro ⟨inum, allocated, reached⟩
    have inside := allocated.2.1
    exact ⟨inum, allocated.1, by omega, allocated, reached⟩
  · rintro ⟨inum, -, -, allocated, reached⟩
    exact ⟨inum, allocated, reached⟩

/-- What `count_leakblock` reports, for a bitmap that is in memory as it is on the disk. -/
theorem countLeakblock_reports (none : state.leak = []) (inside : state.fs.sb.nblocks ≤ state.fs.sb.size) (uint : state.fs.sb.size < 2 ^ 32)
    (cached : Cached state.fs.sb state.fs.store state.fs.bmap) :
    Ensures countLeakblock state (fun _ after => ∀ blockno, blockno ∈ after.leak ↔
      state.fs.sb.InData blockno ∧ bitOf state.fs.sb state.fs.store blockno = true ∧ blockno ∉ state.block_used) fun _ _ => False := by
  unfold countLeakblock
  rw [ensures_bind, ensures_get, uint_sub inside uint]
  refine Ensures.weaken (Ensures.forRange (fun i current => current.fs = state.fs ∧ current.block_used = state.block_used ∧
    ∀ blockno, blockno ∈ current.leak ↔ (state.fs.sb.nmeta ≤ blockno ∧ blockno < i) ∧ bitOf state.fs.sb state.fs.store blockno = true ∧
      blockno ∉ state.block_used) ?_ fun i current low high reached => ?_) fun _ after reached blockno => ?_
  · refine ⟨rfl, rfl, fun blockno => ?_⟩
    rw [none]
    refine iff_of_false List.not_mem_nil fun reported => ?_
    have bounds := reported.1
    exact absurd bounds.2 (Nat.not_lt.mpr bounds.1)
  · obtain ⟨same, sameUsed, reports⟩ := reached
    have small : i < state.fs.sb.size := by omega
    have bit := statueGet_bit cached (Superblock.covered small)
    -- The round adds `i` or nothing.
    have next : ∀ blockno, (state.fs.sb.nmeta ≤ blockno ∧ blockno < i + 1) ↔ (state.fs.sb.nmeta ≤ blockno ∧ blockno < i) ∨ blockno = i := by
      intro blockno
      have low : state.fs.sb.nmeta ≤ i := low
      omega
    rw [ensures_bind, ensures_get, same, sameUsed]
    by_cases set : bitOf state.fs.sb state.fs.store i = true
    · rw [if_pos (fun clear => by rw [bit.mp clear] at set; cases set)]
      by_cases used : i ∈ state.block_used
      · rw [if_neg (not_not.mpr used)]
        refine (ensures_pure ()).mpr ⟨same, sameUsed, fun blockno => ?_⟩
        rw [reports, next, or_and_right, or_iff_left]
        rintro ⟨rfl, -, unused⟩
        exact unused used
      · rw [if_pos used]
        refine (ensures_modify _).mpr ⟨same, sameUsed, fun blockno => ?_⟩
        show blockno ∈ current.leak ++ [i] ↔ _
        rw [List.mem_append, List.mem_singleton, reports, next, or_and_right]
        refine or_congr_right ⟨?_, fun both => both.1⟩
        rintro rfl
        exact ⟨rfl, set, used⟩
    · rw [if_neg (not_not.mpr (bit.mpr (Bool.not_eq_true _ ▸ set)))]
      refine (ensures_pure ()).mpr ⟨same, sameUsed, fun blockno => ?_⟩
      rw [reports, next, or_and_right, or_iff_left]
      rintro ⟨rfl, isSet, -⟩
      exact set isSet
  · rw [reached.2.2, Superblock.InData]
    have bounds : state.fs.sb.size - state.fs.sb.nblocks + (state.fs.sb.size - (state.fs.sb.size - state.fs.sb.nblocks)) = state.fs.sb.size := by omega
    rw [bounds]

end Diagnostic

/-! What `itrunc` frees, for trees whose index blocks are not bitmap blocks. -/

namespace FS
variable {fs current after : FS} {gone gone' total : Nat → Prop}

/-- Blocks were freed since `fs`; the other state that `itrunc` reads is as it was. -/
structure Cleared (fs : FS) (gone : Nat → Prop) (after : FS) : Prop where
  sb : after.sb = fs.sb
  inode : after.inode = fs.inode
  outstanding : after.log.outstanding = fs.log.outstanding
  n_cache : after.bmap.n_cache = fs.bmap.n_cache
  store : ∀ blockno, ¬ fs.sb.InBitmap blockno → after.store blockno = fs.store blockno
  freed : ∃ freed, freedBlocks after.history = freed ++ freedBlocks fs.history ∧ ∀ blockno, blockno ∈ freed ↔ gone blockno

/-- The log is full, or a block lies past the bitmap; what was freed belongs to the inode. -/
def TruncStops (fs : FS) (total : Nat → Prop) (reason : Exit) (after : FS) : Prop :=
  (LogFull reason after ∨ reason = .undefined ∧ ∃ blockno, total blockno ∧ fs.sb.nbitmap * BPB ≤ blockno) ∧
    ∃ freed, freedBlocks after.history = freed ++ freedBlocks fs.history ∧ ∀ blockno ∈ freed, total blockno

theorem Cleared.refl (fs : FS) : Cleared fs (fun _ => False) fs :=
  ⟨rfl, rfl, rfl, rfl, fun _ _ => rfl, [], rfl, fun _ => iff_of_false List.not_mem_nil id⟩

theorem Cleared.congr (cleared : Cleared fs gone after) (same : ∀ blockno, gone' blockno ↔ gone blockno) : Cleared fs gone' after := by
  obtain ⟨freed, grown, exactly⟩ := cleared.freed
  exact { cleared with freed := ⟨freed, grown, fun blockno => by rw [exactly, same]⟩ }

/-- Neither a full log nor success leaves a note that a block was freed. -/
theorem loggedUpdate_frees (blockno : Nat) (change : Block → Block) (fs : FS) : Ensures (loggedUpdate blockno change) fs
    (fun _ after => freedBlocks after.history = freedBlocks fs.history) fun _ after => freedBlocks after.history = freedBlocks fs.history := by
  simp only [loggedUpdate, loggedWrite, note, ensures_bind, ensures_modify, ensures_get, ensures_ite, ensures_stop, implies_true, true_and]
  exact fun _ _ => rfl

/-- The bitmap is changed and no other block, or the block has no bit. -/
theorem bmapBlockStatueSet_clears (inOp : 1 ≤ fs.log.outstanding) (n_cache : fs.bmap.n_cache = fs.sb.nbitmap) (blockno i : Nat) :
    Ensures (bmapBlockStatueSet blockno i) fs
      (fun _ after => Cleared fs (fun _ => False) after)
      fun reason after => (LogFull reason after ∨ reason = .undefined ∧ fs.sb.nbitmap * BPB ≤ blockno) ∧
        freedBlocks after.history = freedBlocks fs.history := by
  unfold bmapBlockStatueSet modifyBmap
  rw [ensures_bind, ensures_get, ensures_ite, n_cache]
  have bits : fs.sb.nbitmap * BSIZE ≤ blockno / 8 ↔ fs.sb.nbitmap * BPB ≤ blockno := by
    simp only [BPB, BSIZE]
    omega
  refine ⟨fun outside => (ensures_stop _).mpr ⟨.inr ⟨rfl, bits.mp outside⟩, rfl⟩, fun inside => ?_⟩
  · have covered : blockno < fs.sb.nbitmap * BPB := by
      simp only [BPB, BSIZE] at inside ⊢
      omega
    rw [ensures_bind, ensures_modify]
    generalize changedIs : ({ fs with bmap := _ } : FS) = changed
    have log : changed.log = fs.log := by rw [← changedIs]
    have store : changed.store = fs.store := by rw [← changedIs]
    have history : changed.history = fs.history := by rw [← changedIs]
    refine ((loggedUpdate_spec (log ▸ inOp) _ _).and (loggedUpdate_frees _ _ changed)).mono ?_ ?_
    · rintro _ after ⟨⟨-, rfl⟩, kept⟩
      refine ⟨by rw [← changedIs]; rfl, by rw [← changedIs]; rfl, by rw [← log]; simp [logged], by rw [← changedIs]; rfl, fun other apart => ?_,
        [], by rw [kept, history]; rfl, fun _ => iff_of_false List.not_mem_nil id⟩
      show assign changed.store _ _ other = _
      rw [assign_of_ne, store]
      rintro rfl
      exact apart (Superblock.bblock_inBitmap covered)
    · rintro reason stopped ⟨full, kept⟩
      exact ⟨.inl full, by rw [kept, history]⟩

/-- One more block. -/
theorem Cleared.free (cleared : Cleared fs gone current) (inOp : 1 ≤ fs.log.outstanding) (n_cache : fs.bmap.n_cache = fs.sb.nbitmap)
    (within : ∀ blockno, gone blockno → total blockno) {blockno : Nat} (mine : total blockno) :
    Ensures (blockFree blockno) current (fun _ after => Cleared fs (fun other => gone other ∨ other = blockno) after) (TruncStops fs total) := by
  obtain ⟨freed, grown, exactly⟩ := cleared.freed
  have sets := bmapBlockStatueSet_clears (cleared.outstanding ▸ inOp) (by rw [cleared.n_cache, cleared.sb, n_cache]) blockno 0
  unfold blockFree modifyBmap
  refine ensures_bind.mpr (sets.mono ?_ ?_)
  · rintro _ written set
    obtain ⟨none, kept, empty⟩ := set.freed
    have nothing : none = [] := List.eq_nil_iff_forall_not_mem.mpr fun other => (empty other).mp
    refine ensures_bind.mpr ((ensures_modify _).mpr ((ensures_modify _).mpr ?_))
    refine ⟨set.sb.trans cleared.sb, set.inode.trans cleared.inode, set.outstanding.trans cleared.outstanding, set.n_cache.trans cleared.n_cache,
      fun other apart => (set.store other (cleared.sb ▸ apart)).trans (cleared.store other apart), blockno :: freed, ?_, fun other => ?_⟩
    · show blockno :: freedBlocks written.history = _
      rw [kept, nothing, List.nil_append, grown, List.cons_append]
    · rw [List.mem_cons, exactly, or_comm]
  · rintro reason stopped ⟨full | ⟨undefined, past⟩, kept⟩
    · exact ⟨.inl full, freed, kept.trans grown, fun other inside => within other ((exactly other).mp inside)⟩
    · exact ⟨.inr ⟨undefined, blockno, mine, cleared.sb ▸ past⟩, freed, kept.trans grown, fun other inside => within other ((exactly other).mp inside)⟩

/-- The loop over one index block, where `body` frees what entry `i` reaches. -/
theorem entries_clear {top level : Nat} (body : Nat → M Unit) (cleared : Cleared fs gone current) (same : current.store top = fs.store top)
    (within : ∀ blockno, gone blockno → total blockno) (below : ∀ index blockno, Reach (pointers fs.store) level (pointers fs.store top index) blockno → total blockno)
    (each : ∀ index current gone, Cleared fs gone current → (∀ blockno, gone blockno → total blockno) → pointers fs.store top index ≠ 0 →
      Ensures (body (pointers fs.store top index)) current
        (fun _ after => Cleared fs (fun blockno => gone blockno ∨ Reach (pointers fs.store) level (pointers fs.store top index) blockno) after)
        (TruncStops fs total)) :
    Ensures (do
        let bp ← loggedRead top
        forRange 0 NINDIRECT1 fun i => if entry bp i ≠ 0 then body (entry bp i) else pure ()) current
      (fun _ after => Cleared fs (fun blockno => gone blockno ∨ ∃ index, Reach (pointers fs.store) level (pointers fs.store top index) blockno) after)
      (TruncStops fs total) := by
  unfold loggedRead
  rw [ensures_bind, ensures_bind, ensures_get, ensures_pure, same]
  refine Ensures.weaken (Ensures.forRange (fun i current => Cleared fs (fun blockno => gone blockno ∨
    ∃ j < i, Reach (pointers fs.store) level (pointers fs.store top j) blockno) current) ?_ fun i current _ small reached => ?_)
    fun _ after reached => reached.congr fun blockno => or_congr_right ?_
  · refine cleared.congr fun blockno => or_iff_left ?_
    rintro ⟨j, none, -⟩
    exact absurd none (Nat.not_lt_zero j)
  · have next : ∀ blockno, ((gone blockno ∨ ∃ j < i, Reach (pointers fs.store) level (pointers fs.store top j) blockno) ∨
        Reach (pointers fs.store) level (pointers fs.store top i) blockno) ↔
        gone blockno ∨ ∃ j < i + 1, Reach (pointers fs.store) level (pointers fs.store top j) blockno := by
      intro blockno
      simp only [Nat.lt_succ_iff_lt_or_eq, or_and_right, exists_or, exists_eq_left, or_assoc]
    show Ensures (if pointers fs.store top i ≠ 0 then body (pointers fs.store top i) else pure ()) current _ _
    split
    next present =>
      refine (each i current _ reached ?_ present).weaken fun _ after cleared => cleared.congr fun blockno => (next blockno).symm
      rintro blockno (before | ⟨j, -, earlier⟩)
      · exact within blockno before
      · exact below j blockno earlier
    next missing =>
      refine (ensures_pure ()).mpr (reached.congr fun blockno => ?_)
      rw [← next, not_not.mp missing, or_iff_left reach_missing]
  · constructor
    · rintro ⟨index, reached⟩
      refine ⟨index, ?_, reached⟩
      by_contra outside
      rw [pointers_outside _ _ (by omega)] at reached
      exact reach_missing reached
    · rintro ⟨index, -, reached⟩
      exact ⟨index, reached⟩

theorem freeEntries_clears (inOp : 1 ≤ fs.log.outstanding) (n_cache : fs.bmap.n_cache = fs.sb.nbitmap) :
    ∀ (level top : Nat) {gone : Nat → Prop} {current : FS}, Cleared fs gone current → top ≠ 0 →
      Inner (pointers fs.store) (level + 1) top (fun _ blockno => ¬ fs.sb.InBitmap blockno) → (∀ blockno, gone blockno → total blockno) →
      (∀ index blockno, Reach (pointers fs.store) level (pointers fs.store top index) blockno → total blockno) →
      Ensures (freeEntries level top) current
        (fun _ after => Cleared fs (fun blockno => gone blockno ∨ ∃ index, Reach (pointers fs.store) level (pointers fs.store top index) blockno) after)
        (TruncStops fs total) := by
  intro level
  induction level with
  | zero =>
    intro top gone current cleared present inner within below
    unfold freeEntries
    refine entries_clear blockFree cleared (cleared.store top (inner.top present)) within below fun index current gone cleared within present => ?_
    have mine := below index _ ((reach_zero present).mpr rfl)
    exact (cleared.free inOp n_cache within mine).weaken fun _ after cleared => cleared.congr fun blockno => by rw [reach_zero present]
  | succ level ih =>
    intro top gone current cleared topPresent inner within below
    unfold freeEntries
    refine entries_clear (fun addr => do freeEntries level addr; blockFree addr) cleared (cleared.store top (inner.top topPresent)) within below
      fun index current gone cleared within present => ?_
    have entries : ∀ further blockno, Reach (pointers fs.store) level (pointers fs.store (pointers fs.store top index) further) blockno → total blockno :=
      fun further blockno reached => below index blockno ((reach_succ present).mpr (.inr ⟨further, reached⟩))
    refine Ensures.bind (ih _ cleared present (inner.entry topPresent index) within entries) fun _ emptied cleared' => ?_
    have mine := below index _ ((reach_succ present).mpr (.inl rfl))
    refine (cleared'.free inOp n_cache ?_ mine).weaken fun _ after cleared => cleared.congr fun blockno => ?_
    · rintro blockno (before | ⟨further, reached⟩)
      · exact within blockno before
      · exact entries further blockno reached
    · rw [reach_succ present, or_assoc, or_comm (a := blockno = _)]

/-- The tree at one slot, when there is one. -/
theorem freeTree_clears (inOp : 1 ≤ fs.log.outstanding) (n_cache : fs.bmap.n_cache = fs.sb.nbitmap) (ip slot level : Nat)
    (cleared : Cleared fs gone current)
    (inner : Inner (pointers fs.store) (level + 1) ((fs.inode ip).copy.addrs slot) fun _ blockno => ¬ fs.sb.InBitmap blockno)
    (within : ∀ blockno, gone blockno → total blockno)
    (mine : ∀ blockno, Reach (pointers fs.store) (level + 1) ((fs.inode ip).copy.addrs slot) blockno → total blockno) :
    Ensures (freeTree ip slot level) current
      (fun _ after => Cleared fs (fun blockno => gone blockno ∨ Reach (pointers fs.store) (level + 1) ((fs.inode ip).copy.addrs slot) blockno) after)
      (TruncStops fs total) := by
  unfold freeTree
  rw [ensures_bind, ensures_get, cleared.inode]
  generalize (fs.inode ip).copy.addrs slot = top at inner mine
  dsimp only
  split
  next present =>
    have entries : ∀ index blockno, Reach (pointers fs.store) level (pointers fs.store top index) blockno → total blockno :=
      fun index blockno reached => mine blockno ((reach_succ present).mpr (.inr ⟨index, reached⟩))
    refine Ensures.bind (freeEntries_clears inOp n_cache level top cleared present inner within entries) fun _ emptied cleared' => ?_
    refine (cleared'.free inOp n_cache ?_ (mine top ((reach_succ present).mpr (.inl rfl)))).weaken fun _ after cleared => cleared.congr fun blockno => ?_
    · rintro blockno (before | ⟨index, reached⟩)
      · exact within blockno before
      · exact entries index blockno reached
    · rw [reach_succ present, or_assoc, or_comm (a := blockno = _)]
  next missing =>
    rw [not_not.mp missing]
    exact (ensures_pure ()).mpr (cleared.congr fun blockno => or_iff_left reach_missing)

/-- The slots of data blocks. -/
theorem freeDirect_clears (inOp : 1 ≤ fs.log.outstanding) (n_cache : fs.bmap.n_cache = fs.sb.nbitmap) (ip : Nat)
    (mine : ∀ slot < NDIRECT, ∀ blockno, Reach (pointers fs.store) 0 ((fs.inode ip).copy.addrs slot) blockno → total blockno) :
    Ensures (forRange 0 NDIRECT fun i => do
        let fs ← Exec.get
        let addr := (fs.inode ip).copy.addrs i
        if addr ≠ 0 then blockFree addr else pure ()) fs
      (fun _ after => Cleared fs (fun blockno => ∃ slot < NDIRECT, Reach (pointers fs.store) 0 ((fs.inode ip).copy.addrs slot) blockno) after)
      (TruncStops fs total) := by
  refine Ensures.weaken (Ensures.forRange (fun i current =>
    Cleared fs (fun blockno => ∃ slot < i, Reach (pointers fs.store) 0 ((fs.inode ip).copy.addrs slot) blockno) current) ?_
    fun i current _ inside reached => ?_) fun _ after reached => reached.congr fun blockno => by rw [Nat.zero_add]
  · refine (Cleared.refl fs).congr fun blockno => iff_of_false ?_ id
    rintro ⟨slot, none, -⟩
    exact absurd none (Nat.not_lt_zero slot)
  · have small : i < NDIRECT := by omega
    have next : ∀ blockno, (∃ slot < i + 1, Reach (pointers fs.store) 0 ((fs.inode ip).copy.addrs slot) blockno) ↔
        (∃ slot < i, Reach (pointers fs.store) 0 ((fs.inode ip).copy.addrs slot) blockno) ∨
          Reach (pointers fs.store) 0 ((fs.inode ip).copy.addrs i) blockno := fun blockno => by
      simp only [Nat.lt_succ_iff_lt_or_eq, or_and_right, exists_or, exists_eq_left]
    rw [ensures_bind, ensures_get, reached.inode]
    have own := mine i small
    generalize (fs.inode ip).copy.addrs i = addr at next own
    dsimp only
    split
    next present =>
      refine (reached.free inOp n_cache ?_ (own addr ((reach_zero present).mpr rfl))).weaken fun _ after cleared => cleared.congr fun blockno => ?_
      · rintro blockno ⟨slot, earlier, freed⟩
        exact mine slot (Nat.lt_trans earlier small) blockno freed
      · rw [next, reach_zero present]
    next missing =>
      refine (ensures_pure ()).mpr (reached.congr fun blockno => ?_)
      rw [next, not_not.mp missing, or_iff_left reach_missing]

/-- Writing the dinode frees nothing. -/
theorem iupdate_stops (inOp : 1 ≤ fs.log.outstanding) (ip : Nat) : Ensures (iupdate ip) fs
    (fun _ after => freedBlocks after.history = freedBlocks fs.history)
    fun reason after => LogFull reason after ∧ freedBlocks after.history = freedBlocks fs.history := by
  simp only [iupdate, getCurrentTimespec, modifyCopy, modifyInode, ensures_bind, ensures_get, ensures_modify, ensures_pure]
  refine ((loggedUpdate_spec ?_ _ _).and (loggedUpdate_frees _ _ _)).mono (fun _ _ both => both.2) fun _ _ both => both
  exact inOp

/-- `itrunc` frees the tree, where no index block of it is a bitmap block. -/
theorem itrunc_clears (inOp : 1 ≤ fs.log.outstanding) (n_cache : fs.bmap.n_cache = fs.sb.nbitmap) (ip : Nat)
    (inner : ∀ slot < NBLOCKADDR, Inner (pointers fs.store) (levels slot) ((fs.inode ip).copy.addrs slot) fun _ blockno => ¬ fs.sb.InBitmap blockno) :
    Ensures (itrunc ip) fs
      (fun _ after => ∃ freed, freedBlocks after.history = freed ++ freedBlocks fs.history ∧
        ∀ blockno, blockno ∈ freed ↔ Diagnostic.Tree fs.store (fs.inode ip).copy.addrs blockno)
      (TruncStops fs (Diagnostic.Tree fs.store (fs.inode ip).copy.addrs)) := by
  have cases := Diagnostic.tree_cases fs.store (fs.inode ip).copy.addrs
  unfold itrunc
  refine Ensures.bind (freeDirect_clears inOp n_cache ip fun slot direct blockno reached => (cases blockno).mpr (.inl (.inl (.inl ⟨slot, direct, reached⟩))))
    fun _ first cleared₁ => ?_
  refine Ensures.bind (freeTree_clears inOp n_cache ip NDIRECT 0 cleared₁ (inner NDIRECT (by decide))
    (fun blockno before => (cases blockno).mpr (.inl (.inl (.inl before)))) fun blockno reached => (cases blockno).mpr (.inl (.inl (.inr reached))))
    fun _ second cleared₂ => ?_
  refine Ensures.bind (freeTree_clears inOp n_cache ip (NDIRECT + 1) 1 cleared₂ (inner (NDIRECT + 1) (by decide))
    (fun blockno before => (cases blockno).mpr (.inl (.inl before))) fun blockno reached => (cases blockno).mpr (.inl (.inr reached)))
    fun _ third cleared₃ => ?_
  refine Ensures.bind (freeTree_clears inOp n_cache ip (NDIRECT + 2) 2 cleared₃ (inner (NDIRECT + 2) (by decide))
    (fun blockno before => (cases blockno).mpr (.inl before)) fun blockno reached => (cases blockno).mpr (.inr reached))
    fun _ fourth cleared₄ => ?_
  obtain ⟨freed, grown, exactly⟩ := cleared₄.freed
  have all : ∀ blockno, blockno ∈ freed ↔ Diagnostic.Tree fs.store (fs.inode ip).copy.addrs blockno :=
    fun blockno => (exactly blockno).trans (cases blockno).symm
  unfold modifyCopy modifyInode
  refine ensures_bind.mpr ((ensures_modify _).mpr ?_)
  refine Ensures.mono (iupdate_stops ?_ ip) ?_ ?_
  · exact cleared₄.outstanding ▸ inOp
  · intro _ after kept
    exact ⟨freed, kept.trans grown, all⟩
  · rintro reason after ⟨full, kept⟩
    exact ⟨.inl full, freed, kept.trans grown, fun blockno inside => (all blockno).mp inside⟩

/-- Each block of an inode's tree is held at one place of it. -/
def HeldOnce (fs : FS) (inum : Nat) : Prop := ∀ path path', fs.held inum path ≠ 0 → fs.held inum path = fs.held inum path' → path = path'

/-- The index blocks of an inode are data blocks of the disk. -/
def IndexInData (fs : FS) (inum : Nat) : Prop := ∀ path, Internal levels path → fs.held inum path ≠ 0 → fs.sb.InData (fs.held inum path)

/-- The inode of a disk is loaded, and the thread is inside an operation. -/
structure Truncating (sb : Superblock) (disk : Nat → Block) (inum ip : Nat) (fs : FS) : Prop where
  superblock : fs.sb = sb
  store : fs.store = disk
  n_cache : fs.bmap.n_cache = fs.sb.nbitmap
  inOp : 1 ≤ fs.log.outstanding
  addrs : (fs.inode ip).copy.addrs = (Dinode.read (disk (sb.iblock inum)) (Dinode.offsetOf inum)).addrs

end FS

namespace Diagnostic
open FS
variable {state : Diagnostic} {sb : Superblock} {disk : Nat → Block} {inum : Nat}

theorem boot_roots (clock : Nat → Timespec) (allocated : Allocated sb disk inum) (slot : Nat) : (boot sb disk clock).roots inum slot =
    if slot < NBLOCKADDR then (Dinode.read (disk (sb.iblock inum)) (Dinode.offsetOf inum)).addrs slot else 0 := by
  have none : (boot sb disk clock).entryOf inum = none := by
    unfold FS.entryOf boot
    rfl
  have dinode : (boot sb disk clock).dinode inum = Dinode.read (disk (sb.iblock inum)) (Dinode.offsetOf inum) := by
    rw [FS.dinode, boot_store, boot_sb]
  unfold FS.roots FS.current
  rw [none, dinode, boot_sb]
  by_cases small : slot < NBLOCKADDR
  · rw [if_pos ⟨allocated.2.1, small, .inr allocated.2.2⟩, if_pos small]
  · rw [if_neg fun all => small all.2.1, if_neg small]

theorem boot_place (clock : Nat → Timespec) (owner : Nat) (path : List Nat) : (boot sb disk clock).held owner path =
    place levels (boot sb disk clock).roots (pointers disk) owner path := by
  rw [FS.held, boot_store]
  rfl

theorem held_tree (clock : Nat → Timespec) (allocated : Allocated sb disk inum) (blockno : Nat) :
    (blockno ≠ 0 ∧ ∃ path, (boot sb disk clock).held inum path = blockno) ↔ TreeOf sb disk inum blockno := by
  simp only [boot_place]
  rw [held_iff_reach]
  simp only [boot_roots clock allocated]
  constructor
  · rintro ⟨slot, reached⟩
    split at reached
    next small => exact ⟨slot, small, reached⟩
    next => exact absurd reached reach_missing
  · rintro ⟨slot, small, reached⟩
    exact ⟨slot, by rw [if_pos small]; exact reached⟩

/-- An index block of the tree at a slot, as the inode holds it. -/
theorem inner_held (clock : Nat → Timespec) (allocated : Allocated sb disk inum) {slot : Nat} (small : slot < NBLOCKADDR) {path : List Nat}
    (short : path.length < levels slot) : (boot sb disk clock).held inum (slot :: path) =
      down (pointers disk) ((Dinode.read (disk (sb.iblock inum)) (Dinode.offsetOf inum)).addrs slot) path := by
  rw [boot_place, place, if_pos (Nat.le_of_lt short), boot_roots clock allocated, if_pos small]

theorem readable_of_once (clock : Nat → Timespec) (allocated : Allocated sb disk inum) (once : (boot sb disk clock).HeldOnce inum)
    (apart : ∀ path, Internal levels path → (boot sb disk clock).held inum path ≠ sb.iblock inum) : Readable sb disk inum := by
  intro slot small path short held
  have here := inner_held clock allocated small short
  rw [← here] at held ⊢
  refine ⟨fun locked => apart (slot :: path) short (List.mem_singleton.mp locked), fun more nonempty deep again => nonempty ?_⟩
  rw [← inner_held clock allocated small deep] at again
  have same := once _ _ held again.symm
  simpa using same

theorem apart_of_index (clock : Nat → Timespec) (valid : sb.Valid) (allocated : Allocated sb disk inum)
    (index : (boot sb disk clock).IndexInData inum) (path : List Nat) (deep : Internal levels path) :
    (boot sb disk clock).held inum path ≠ sb.iblock inum := by
  intro same
  have data := index path deep
  rw [same, boot_sb] at data
  have before := Superblock.iblock_lt valid allocated.2.1
  have nonzero : sb.iblock inum ≠ 0 := fun zero => by
    have starts := valid.log_before
    have size := valid.log_size
    have none : sb.inodestart = 0 := (Nat.add_eq_zero_iff.mp zero).2
    simp only [NLOG, MAXOPBLOCKS] at size
    omega
  exact Superblock.iblock_not_data valid allocated.2.1 (data nonzero)

theorem diskInit_of (state : Diagnostic) {result : Except Exit Unit} {mounted : FS} (ran : inodeInit state.fs.sb state.fs = (result, mounted)) :
    diskInit state = (result, { state with fs := mounted }) := by
  unfold diskInit
  rw [ran]

theorem diskInit_spec (fs : FS) (idle : Idle fs.log) : Ensures diskInit (start fs)
    (fun _ after => Recorded (start fs) (fun _ => False) { after with fs } ∧ after.fs.sb = fs.sb ∧ after.fs.store = fs.store ∧
      Cached after.fs.sb after.fs.store after.fs.bmap) fun _ _ => False := by
  have mounts := inodeInit_spec idle
  generalize ran : inodeInit fs.sb fs = outcome
  obtain ⟨result, mounted⟩ := outcome
  cases result with
  | ok value =>
    obtain ⟨sb, store, -, summaries, -⟩ := mounts.returned ran
    refine (ensures_of_ok (diskInit_of (start fs) ran)).mpr ⟨Recorded.refl _, sb, store, ?_⟩
    rw [← sb, ← store] at summaries
    exact summaries.cached
  | error reason => exact (ensures_of_stop (diskInit_of (start fs) ran)).mpr (mounts.stopped ran)

/-- The diagnostic reports the data blocks in use that no allocated inode reaches, and
what it records for an inode is what `itrunc` frees. -/
theorem diagnostic_agrees (clock : Nat → Timespec) (valid : sb.Valid)
    (once : ∀ inum, Allocated sb disk inum → (boot sb disk clock).HeldOnce inum)
    (index : ∀ inum, Allocated sb disk inum → (boot sb disk clock).IndexInData inum) :
    Ensures main (start (boot sb disk clock)) (fun _ final => ∀ blockno, blockno ∈ final.leak ↔ sb.InData blockno ∧ bitOf sb disk blockno = true ∧
        ∀ inum, Allocated sb disk inum → ∀ path, (boot sb disk clock).held inum path ≠ blockno) (fun _ _ => False) ∧
      ∀ inum ip fs state, Allocated sb disk inum → Truncating sb disk inum ip fs → state.fs.store = disk → state.locked = [sb.iblock inum] →
        Ensures (outputDinode (Dinode.read (disk (sb.iblock inum)) (Dinode.offsetOf inum))) state
          (fun _ recorded => Ensures (itrunc ip) fs
            (fun _ after => ∃ freed, freedBlocks after.history = freed ++ freedBlocks fs.history ∧
              ∀ blockno, blockno ∈ recorded.block_used ↔ blockno ∈ state.block_used ∨ blockno ∈ freed)
            (TruncStops fs (TreeOf sb disk inum)))
          fun _ _ => False := by
  have readable : ∀ inum, Allocated sb disk inum → Readable sb disk inum := fun inum allocated =>
    readable_of_once clock allocated (once inum allocated) (apart_of_index clock valid allocated (index inum allocated))
  constructor
  · have idle := boot_idle sb disk clock valid.log_size
    refine Ensures.bind (diskInit_spec (boot sb disk clock) idle) ?_
    rintro _ mounted ⟨fresh, sameSb, sameStore, cached⟩
    rw [boot_sb] at sameSb
    rw [boot_store] at sameStore
    refine Ensures.bind (countInodes_records fresh.locked fun inum allocated => ?_) fun _ counted recorded => ?_
    · rw [sameSb, sameStore] at allocated ⊢
      exact readable inum allocated
    have sb' : counted.fs.sb = sb := by rw [recorded.fs, sameSb]
    have store' : counted.fs.store = disk := by rw [recorded.fs, sameStore]
    have reports := countLeakblock_reports (recorded.leak.trans fresh.leak) (by rw [sb']; exact valid.data_inside) (by rw [sb']; exact valid.uint_size)
      (by rw [recorded.fs]; exact cached)
    rw [sb', store'] at reports
    refine reports.weaken fun _ final leaks blockno => ?_
    rw [leaks]
    refine and_congr_right fun data => and_congr_right fun _ => ?_
    have nonzero : blockno ≠ 0 := fun zero => Superblock.zero_not_data valid (zero ▸ data)
    have empty : blockno ∉ mounted.block_used := fun inside => ((fresh.used blockno).mp inside).elim (List.not_mem_nil) id
    rw [recorded.used, or_iff_right empty, sameSb, sameStore]
    constructor
    · intro unreached inum allocated path same
      exact unreached ⟨inum, allocated, (held_tree clock allocated blockno).mp ⟨nonzero, path, same⟩⟩
    · rintro unreached ⟨inum, allocated, tree⟩
      obtain ⟨-, path, same⟩ := (held_tree clock allocated blockno).mpr tree
      exact unreached inum allocated path same
  · intro inum ip fs state allocated truncating sameStore locked
    have records := outputDinode_records state (Dinode.read (disk (sb.iblock inum)) (Dinode.offsetOf inum)) fun slot small => by
      rw [locked, sameStore]
      exact readable inum allocated slot small
    refine records.weaken fun _ recorded marks => ?_
    have truncs := itrunc_clears truncating.inOp truncating.n_cache ip fun slot small path short held => by
      rw [truncating.store, truncating.addrs] at held ⊢
      rw [← inner_held clock allocated small short] at held ⊢
      rw [truncating.superblock]
      have data := index inum allocated (slot :: path) short held
      rw [boot_sb] at data
      exact Superblock.data_not_bitmap valid data
    rw [truncating.store, truncating.addrs] at truncs
    refine truncs.weaken fun _ after freed => ?_
    obtain ⟨freed, grown, exactly⟩ := freed
    refine ⟨freed, grown, fun blockno => ?_⟩
    rw [marks.used, exactly, sameStore]

/-! A disk with one inode, a data block and an index block that lists one more, where the
index block may be a bitmap block. -/

def oneTree (sb : Superblock) (direct index leaf : Nat) : Nat → Block := fun blockno =>
  if blockno = sb.iblock ROOTINO then
    Dinode.write Bytes.zero (Dinode.offsetOf ROOTINO) { rootDinode with addrs := assign (assign (fun _ => 0) 0 direct) NDIRECT index }
  else if blockno = index then Bytes.zero.setField 0 4 leaf
  else if blockno = sb.bmapstart then Bytes.ofFn fun _ => 0xff
  else Bytes.zero

/-- The blocks are numbers for a `uint` slot, and the index block is not the inode's. -/
structure Listed (sb : Superblock) (direct index leaf : Nat) : Prop where
  valid : sb.Valid
  inodes : ROOTINO < sb.ninodes
  numbers : direct < 2 ^ 32 ∧ index < 2 ^ 32 ∧ leaf < 2 ^ 32
  distinct : direct ≠ index ∧ direct ≠ leaf ∧ index ≠ leaf
  elsewhere : ∀ inum < sb.ninodes, index ≠ sb.iblock inum

section
variable {direct index leaf : Nat}

theorem oneTree_allocated (listed : Listed sb direct index leaf) (allocated : Allocated sb (oneTree sb direct index leaf) inum) : inum = ROOTINO := by
  obtain ⟨-, inside, used⟩ := allocated
  by_contra other
  apply used
  have notFirst : sb.iblock inum ≠ sb.bmapstart := fun same => Nat.ne_of_lt (Superblock.iblock_lt listed.valid inside) same
  by_cases same : sb.iblock inum = sb.iblock ROOTINO
  · have block : ROOTINO / IPB = inum / IPB := by
      simp only [Superblock.iblock] at same
      omega
    rw [oneTree, if_pos same, Dinode.read_write_other _ _ block other]
    exact dinode_zero inum
  · rw [oneTree, if_neg same, if_neg (listed.elsewhere inum inside).symm, if_neg notFirst]
    exact dinode_zero inum

theorem oneTree_addrs (listed : Listed sb direct index leaf) {slot : Nat} (small : slot < NBLOCKADDR) :
    (Dinode.read (oneTree sb direct index leaf (sb.iblock ROOTINO)) (Dinode.offsetOf ROOTINO)).addrs slot =
      if slot = NDIRECT then index else if slot = 0 then direct else 0 := by
  have numbers := listed.numbers
  rw [oneTree, if_pos rfl, Dinode.addrs_read_write _ _ (Dinode.offsetOf_fits _) small]
  simp only [assign_apply]
  split
  next => exact Nat.mod_eq_of_lt numbers.2.1
  next =>
    split
    next => exact Nat.mod_eq_of_lt numbers.1
    next => rfl

theorem oneTree_entry (listed : Listed sb direct index leaf) (i : Nat) :
    pointers (oneTree sb direct index leaf) index i = if i = 0 then leaf else 0 := by
  rw [pointers, oneTree, if_neg (listed.elsewhere ROOTINO listed.inodes), if_pos rfl]
  have zero : ∀ i, FS.entry (Bytes.zero : Block) i = 0 := fun i => Bytes.field_zero _ _
  have set := FS.entry_setField (Bytes.zero : Block) (show 0 < NINDIRECT1 by decide) listed.numbers.2.2
  rw [set, zero]

theorem oneTree_uses (listed : Listed sb direct index leaf) : Allocated sb (oneTree sb direct index leaf) ROOTINO := by
  refine ⟨Nat.le_refl _, listed.inodes, ?_⟩
  rw [oneTree, if_pos rfl, Dinode.type_read_write _ _ (Dinode.offsetOf_fits _)]
  show T_DIR_INODE_MYFUSE ≠ T_UNUSE_INODE_MYFUSE
  decide

/-- The three paths that lead to a block. -/
theorem oneTree_paths (clock : Nat → Timespec) (listed : Listed sb direct index leaf) {path : List Nat}
    (held : (boot sb (oneTree sb direct index leaf) clock).held ROOTINO path ≠ 0) :
    path = [0] ∧ (boot sb (oneTree sb direct index leaf) clock).held ROOTINO path = direct ∨
      path = [NDIRECT] ∧ (boot sb (oneTree sb direct index leaf) clock).held ROOTINO path = index ∨
      path = [NDIRECT, 0] ∧ (boot sb (oneTree sb direct index leaf) clock).held ROOTINO path = leaf := by
  rw [boot_place] at held ⊢
  cases path with
  | nil => exact absurd rfl held
  | cons slot rest =>
    have root := boot_roots clock (oneTree_uses listed) slot
    change (if rest.length ≤ levels slot then down (pointers _) (FS.roots _ ROOTINO slot) rest else 0) ≠ 0 at held
    change slot :: rest = _ ∧ (if rest.length ≤ levels slot then down (pointers _) (FS.roots _ ROOTINO slot) rest else 0) = _ ∨
      slot :: rest = _ ∧ (if rest.length ≤ levels slot then down (pointers _) (FS.roots _ ROOTINO slot) rest else 0) = _ ∨
      slot :: rest = _ ∧ (if rest.length ≤ levels slot then down (pointers _) (FS.roots _ ROOTINO slot) rest else 0) = _
    split at held
    next short =>
      simp only [if_pos short]
      by_cases small : slot < NBLOCKADDR
      · rw [if_pos small, oneTree_addrs listed small] at root
        rw [root] at held ⊢
        by_cases tree : slot = NDIRECT
        · subst tree
          rw [if_pos rfl] at held ⊢
          cases rest with
          | nil => exact .inr (.inl ⟨rfl, rfl⟩)
          | cons i rest =>
            have last : rest = [] := List.eq_nil_of_length_eq_zero (Nat.le_zero.mp (Nat.le_of_succ_le_succ short))
            subst last
            have present : index ≠ 0 := fun none => by
              rw [none, down_zero] at held
              exact held rfl
            rw [down, if_neg present, down, oneTree_entry listed] at held ⊢
            split at held
            next first => exact .inr (.inr ⟨by rw [first], if_pos first⟩)
            next => exact absurd rfl held
        · rw [if_neg tree] at held ⊢
          split at held
          next first =>
            subst first
            have last : rest = [] := List.eq_nil_of_length_eq_zero (Nat.le_zero.mp short)
            subst last
            exact .inl ⟨rfl, rfl⟩
          next =>
            rw [down_zero] at held
            exact absurd rfl held
      · rw [if_neg small] at root
        rw [root, down_zero] at held
        exact absurd rfl held
    next => exact absurd rfl held

theorem oneTree_holds (clock : Nat → Timespec) (listed : Listed sb direct index leaf) {path : List Nat} {blockno : Nat}
    (same : (boot sb (oneTree sb direct index leaf) clock).held ROOTINO path = blockno) (present : blockno ≠ 0) :
    blockno = direct ∨ blockno = index ∨ blockno = leaf := by
  subst same
  exact (oneTree_paths clock listed present).imp (·.2) (Or.imp (·.2) (·.2))

theorem oneTree_leaf (clock : Nat → Timespec) (listed : Listed sb direct index leaf) (present : index ≠ 0) :
    (boot sb (oneTree sb direct index leaf) clock).held ROOTINO [NDIRECT, 0] = leaf := by
  have root := boot_roots clock (oneTree_uses listed) NDIRECT
  rw [if_pos (by decide), oneTree_addrs listed (by decide), if_pos rfl] at root
  rw [boot_place]
  show (if 1 ≤ 1 then down (pointers _) (FS.roots _ ROOTINO NDIRECT) [0] else 0) = leaf
  rw [if_pos (Nat.le_refl 1), root, down, if_neg present, down, oneTree_entry listed, if_pos rfl]

theorem oneTree_once (clock : Nat → Timespec) (listed : Listed sb direct index leaf) :
    (boot sb (oneTree sb direct index leaf) clock).HeldOnce ROOTINO := by
  intro path path' held same
  have distinct := listed.distinct
  have first := oneTree_paths clock listed held
  have second := oneTree_paths clock listed (same ▸ held)
  rcases first with ⟨rfl, first⟩ | ⟨rfl, first⟩ | ⟨rfl, first⟩ <;> rcases second with ⟨rfl, second⟩ | ⟨rfl, second⟩ | ⟨rfl, second⟩ <;>
    first | rfl | omega

theorem oneTree_index (clock : Nat → Timespec) (listed : Listed sb direct index leaf) (data : sb.InData index) :
    (boot sb (oneTree sb direct index leaf) clock).IndexInData ROOTINO := by
  intro path deep held
  rw [boot_sb]
  rcases oneTree_paths clock listed held with ⟨rfl, -⟩ | ⟨-, same⟩ | ⟨rfl, -⟩
  · exact absurd deep (by decide)
  · rw [same]
    exact data
  · exact absurd deep (by decide)

end

/-- The inode of such a disk, in the table and inside an operation. -/
def loadedTree (sb : Superblock) (disk : Nat → Block) : FS :=
  { sb, store := disk, device := disk, log := { Fslog.init sb.logstart sb.nlog with outstanding := 1 }, n_log_wrote := 0,
    bmap := summaryOf sb disk, inode := fun ip => if ip = 0 then ⟨ROOTINO, 1, true, true, Dinode.read (disk (sb.iblock ROOTINO)) (Dinode.offsetOf ROOTINO)⟩ else Inode.zero,
    ninode := NINODE_INIT, files := fun _ => ⟨false, 0, false, false, none, 0⟩, nfile := 0, clock := fun _ => ⟨0, 0⟩, ticks := 0, history := [] }

theorem loadedTree_truncating (sb : Superblock) (disk : Nat → Block) : Truncating sb disk ROOTINO 0 (loadedTree sb disk) :=
  ⟨rfl, rfl, rfl, Int.le_refl 1, rfl⟩

/-- The state in which `count_inodes` calls `output_dinode` for the inode. -/
def printing (sb : Superblock) (disk : Nat → Block) : Diagnostic :=
  { fs := loadedTree sb disk, locked := [sb.iblock ROOTINO], block_used := [], leak := [] }

def smallTree : Nat → Block := oneTree (initSuperBlock 2000) 1500 1501 1502

theorem smallTree_listed : Listed (initSuperBlock 2000) 1500 1501 1502 where
  valid := by decide
  inodes := by decide
  numbers := by decide
  distinct := by decide
  elsewhere inum inside same := by
    have before : (initSuperBlock 2000).iblock inum < (initSuperBlock 2000).bmapstart := Superblock.iblock_lt (by decide) inside
    rw [← same] at before
    exact absurd before (by decide)

theorem smallTree_bit : bitOf (initSuperBlock 2000) smallTree 1600 = true := by
  have block : smallTree ((initSuperBlock 2000).bblock 1600) = Bytes.ofFn fun _ => 0xff := rfl
  rw [bitOf, block]
  exact Bytes.bit_ones (Bytes.byte_ofFn _ (by decide))

theorem diagnostic_agrees_small :
    Ensures main (start (boot (initSuperBlock 2000) smallTree fun _ => ⟨0, 0⟩)) (fun _ final => 1600 ∈ final.leak ∧ 1502 ∉ final.leak) (fun _ _ => False) ∧
    Ensures (outputDinode (Dinode.read (smallTree ((initSuperBlock 2000).iblock ROOTINO)) (Dinode.offsetOf ROOTINO)))
      (printing (initSuperBlock 2000) smallTree)
      (fun _ recorded => Ensures (itrunc 0) (loadedTree (initSuperBlock 2000) smallTree)
        (fun _ after => ∃ freed, freedBlocks after.history = freed ++ freedBlocks [] ∧ ∀ blockno, blockno ∈ recorded.block_used ↔ blockno ∈ [] ∨ blockno ∈ freed)
        (TruncStops (loadedTree (initSuperBlock 2000) smallTree) (TreeOf (initSuperBlock 2000) smallTree ROOTINO)))
      fun _ _ => False := by
  have listed := smallTree_listed
  have root : ∀ inum, Allocated (initSuperBlock 2000) smallTree inum → inum = ROOTINO := fun inum => oneTree_allocated listed
  have used : Allocated (initSuperBlock 2000) smallTree ROOTINO := oneTree_uses listed
  have agrees := diagnostic_agrees (fun _ => ⟨0, 0⟩) listed.valid (fun inum allocated => root inum allocated ▸ oneTree_once _ listed)
    fun inum allocated => root inum allocated ▸ oneTree_index _ listed ⟨by decide, by decide⟩
  refine ⟨agrees.1.weaken fun _ final leaks => ⟨(leaks 1600).mpr ⟨⟨by decide, by decide⟩, smallTree_bit, ?_⟩, fun leaked => ?_⟩,
    agrees.2 ROOTINO 0 _ (printing (initSuperBlock 2000) smallTree) used (loadedTree_truncating _ _) rfl rfl⟩
  · intro inum allocated path same
    rw [root inum allocated] at same
    exact absurd (oneTree_holds _ listed same (by decide)) (by decide)
  · exact ((leaks 1502).mp leaked).2.2 ROOTINO used [NDIRECT, 0] (oneTree_leaf _ listed (by decide))

/-- The second bitmap block of a disk of 40000 blocks is an index block. -/
theorem bitmapTree_listed : Listed (initSuperBlock 40000) 32773 1820 4128 where
  valid := by decide
  inodes := by decide
  numbers := by decide
  distinct := by decide
  elsewhere inum inside same := by
    have before : (initSuperBlock 40000).iblock inum < (initSuperBlock 40000).bmapstart := Superblock.iblock_lt (by decide) inside
    rw [← same] at before
    exact absurd before (by decide)

def bitmapTree : Nat → Block := oneTree (initSuperBlock 40000) 32773 1820 4128

/-- Block 32773 is freed first, and its bit cleared in the index block: that lists block 4096 now. -/
theorem bitmapTree_freed : valueOf (do itrunc 0; let fs ← get; pure (freedBlocks fs.history)) (loadedTree (initSuperBlock 40000) bitmapTree) =
    some [1820, 4096, 32773] := by decide +kernel

theorem bitmapTree_recorded : ∃ recorded, outputDinode (Dinode.read (bitmapTree ((initSuperBlock 40000).iblock ROOTINO)) (Dinode.offsetOf ROOTINO))
    (printing (initSuperBlock 40000) bitmapTree) = (.ok (), recorded) ∧ 4128 ∈ recorded.block_used := by
  have listed := bitmapTree_listed
  have used : Allocated (initSuperBlock 40000) bitmapTree ROOTINO := oneTree_uses listed
  have apart : ∀ path, Internal levels path → (boot (initSuperBlock 40000) bitmapTree fun _ => ⟨0, 0⟩).held ROOTINO path ≠
      (initSuperBlock 40000).iblock ROOTINO := by
    intro path _ same
    exact absurd (oneTree_holds _ listed same (by decide)) (by decide)
  have readable := readable_of_once (fun _ => ⟨0, 0⟩) used (oneTree_once _ listed) apart
  have records := outputDinode_records (printing (initSuperBlock 40000) bitmapTree) _ readable
  rcases records.ran.possible with ⟨_, recorded, marks, ran⟩ | ⟨_, _, none⟩
  · refine ⟨recorded, ran, (marks.used 4128).mpr (.inr ?_)⟩
    exact (held_tree (fun _ => ⟨0, 0⟩) used 4128).mp ⟨by decide, [NDIRECT, 0], oneTree_leaf _ listed (by decide)⟩
  · exact none.elim

theorem bitmap_as_index : ¬ ∀ (sb : Superblock) (disk : Nat → Block) (clock : Nat → Timespec) (inum ip : Nat) (fs : FS) (state : Diagnostic), sb.Valid →
    (∀ inum, Allocated sb disk inum → (boot sb disk clock).HeldOnce inum) → Allocated sb disk inum → Truncating sb disk inum ip fs →
    state.fs.store = disk → state.locked = [sb.iblock inum] →
    ∀ recorded after, outputDinode (Dinode.read (disk (sb.iblock inum)) (Dinode.offsetOf inum)) state = (.ok (), recorded) →
      itrunc ip fs = (.ok (), after) → ∃ freed, freedBlocks after.history = freed ++ freedBlocks fs.history ∧
        ∀ blockno, blockno ∈ recorded.block_used ↔ blockno ∈ state.block_used ∨ blockno ∈ freed := by
  intro claimed
  have listed := bitmapTree_listed
  have root : ∀ inum, Allocated (initSuperBlock 40000) bitmapTree inum → inum = ROOTINO := fun inum => oneTree_allocated listed
  obtain ⟨recorded, ran, inside⟩ := bitmapTree_recorded
  obtain ⟨_, after, truncated, last⟩ := bind_returns (returns_of_valueOf bitmapTree_freed)
  rw [bind_ok get_apply] at last
  have list : freedBlocks after.history = [1820, 4096, 32773] := by simpa using congrArg Prod.fst last
  obtain ⟨freed, grown, exactly⟩ := claimed (initSuperBlock 40000) bitmapTree (fun _ => ⟨0, 0⟩) ROOTINO 0 _ (printing (initSuperBlock 40000) bitmapTree)
    listed.valid (fun inum allocated => root inum allocated ▸ oneTree_once _ listed) (oneTree_uses listed) (loadedTree_truncating _ _) rfl rfl recorded
    after ran truncated
  have none : freedBlocks (loadedTree (initSuperBlock 40000) bitmapTree).history = [] := rfl
  rw [none, List.append_nil, list] at grown
  have missing := ((exactly 4128).mp inside).resolve_left List.not_mem_nil
  rw [← grown] at missing
  exact absurd missing (by decide)

end Diagnostic
end Myfuse
