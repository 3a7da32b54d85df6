import Myfuse.Format
import Myfuse.Proofs.Accounting
import Myfuse.Proofs.CommitPoints

/-! From any disk mkfs makes one that mounts: the super block reads back, the root directory
is its only inode, and the mounted state is well formed when bitmap block 0 has a data block. -/

namespace Myfuse
open Library Library.Exec

namespace Superblock

/-- The fields are `uint`s. -/
structure Uints (sb : Superblock) : Prop where
  magic : sb.magic < 2 ^ 32
  size : sb.size < 2 ^ 32
  nblocks : sb.nblocks < 2 ^ 32
  ninodes : sb.ninodes < 2 ^ 32
  nlog : sb.nlog < 2 ^ 32
  logstart : sb.logstart < 2 ^ 32
  inodestart : sb.inodestart < 2 ^ 32
  bmapstart : sb.bmapstart < 2 ^ 32

/-- A super block reads back, whatever was in the block. -/
theorem read_write (data : Block) {sb : Superblock} (uints : sb.Uints) : read (write data sb) = sb := by
  have stored : ∀ (data : Block) {offset value : Nat}, offset + 4 ≤ BSIZE → value < 2 ^ 32 → (data.setField offset 4 value).field offset 4 = value := by
    intro data offset value inside small
    rw [Bytes.field_setField _ _ _ _ inside]
    exact Nat.mod_eq_of_lt small
  have room : ∀ {offset : Nat}, offset ≤ 28 → offset + 4 ≤ BSIZE := by
    intro offset low
    simp only [BSIZE]
    omega
  cases sb
  simp only [read, write, Superblock.mk.injEq]
  refine ⟨?_, ?_, ?_, ?_, ?_, ?_, ?_, ?_⟩
  · simp (disch := omega) only [Bytes.field_setField_other]
    exact stored _ (room (by decide)) uints.magic
  · simp (disch := omega) only [Bytes.field_setField_other]
    exact stored _ (room (by decide)) uints.size
  · simp (disch := omega) only [Bytes.field_setField_other]
    exact stored _ (room (by decide)) uints.nblocks
  · simp (disch := omega) only [Bytes.field_setField_other]
    exact stored _ (room (by decide)) uints.ninodes
  · simp (disch := omega) only [Bytes.field_setField_other]
    exact stored _ (room (by decide)) uints.nlog
  · simp (disch := omega) only [Bytes.field_setField_other]
    exact stored _ (room (by decide)) uints.logstart
  · simp (disch := omega) only [Bytes.field_setField_other]
    exact stored _ (room (by decide)) uints.inodestart
  · exact stored _ (room (by decide)) uints.bmapstart

end Superblock

theorem initSuperBlock_stored {disk_size : Nat} (uint : disk_size < 2 ^ 32) : (initSuperBlock disk_size).Uints := by
  have bitmap : ROUNDUP disk_size BPB / BPB = (disk_size + 32767) / 32768 := nbitmap_eq (initSuperBlock disk_size)
  constructor <;> simp only [initSuperBlock, bitmap, FSMAGIC, NLOG, MAXOPBLOCKS, IPB, BSIZE, dinodeSize]
  · decide
  · exact uint
  · exact Nat.mod_lt _ (by decide)
  · omega
  · decide
  · decide
  · decide
  · omega

/-! The raw writes. -/

theorem zeroed_range (disk : Nat → Block) (count blockno : Nat) :
    (List.range count).foldl (fun disk i => assign disk i Bytes.zero) disk blockno = if blockno < count then Bytes.zero else disk blockno := by
  induction count with
  | zero => rfl
  | succ count ih =>
    rw [List.range_succ, List.foldl_append, List.foldl_cons, List.foldl_nil, assign_apply, ih]
    by_cases here : blockno = count
    · rw [if_pos here, if_pos (by omega)]
    · rw [if_neg here]
      by_cases low : blockno < count
      · rw [if_pos low, if_pos (by omega)]
      · rw [if_neg low, if_neg (by omega)]

namespace FS
variable {sb : Superblock} {disk : Nat → Block}

theorem mkfsRaw_meta (valid : sb.Valid) {blockno : Nat} (inside : blockno < sb.nmeta) (apart : blockno ≠ 1) :
    mkfsRaw sb disk blockno = Bytes.zero := by
  have nmeta : (sb.size + 2 ^ 32 - sb.nblocks) % 2 ^ 32 = sb.nmeta := uint_sub valid.data_inside valid.uint_size
  unfold mkfsRaw
  rw [assign_of_ne apart, nmeta, zeroed_range, if_pos inside]

/-! The bitmap. -/

/-- The log of a file system whose unlogged blocks are on the disk. -/
structure Logged (fs : FS) : Prop where
  synced : fs.Synced
  committing : fs.log.committing = false
  size : fs.log.size = NLOG
  empty : fs.log.outstanding ≤ 0 → fs.log.block = []

/-- What stays while the bitmap is made; `opened` operations are begun and not ended. -/
structure Aside (opened : Int) (fs after : FS) : Prop where
  sb : after.sb = fs.sb
  store : ∀ blockno < fs.sb.bmapstart, after.store blockno = fs.store blockno
  inode : after.inode = fs.inode
  ninode : after.ninode = fs.ninode
  outstanding : after.log.outstanding = fs.log.outstanding + opened
  logged : fs.Logged → after.Logged

theorem Aside.refl (fs : FS) : Aside 0 fs fs := ⟨rfl, fun _ _ => rfl, rfl, rfl, (Int.add_zero _).symm, id⟩

theorem Aside.trans {fs middle after : FS} {first second : Int} (head : Aside first fs middle) (tail : Aside second middle after) :
    Aside (first + second) fs after where
  sb := tail.sb.trans head.sb
  store blockno low := (tail.store blockno (by rw [head.sb]; exact low)).trans (head.store blockno low)
  inode := tail.inode.trans head.inode
  ninode := tail.ninode.trans head.ninode
  outstanding := by rw [tail.outstanding, head.outstanding, Int.add_assoc]
  logged before := tail.logged (head.logged before)

/-- A returned run leaves them. -/
def KeepsAside {α : Type} (program : M α) : Prop := ∀ fs, Ensures program fs (fun _ after => Aside 0 fs after) fun _ _ => True

namespace KeepsAside
variable {α β : Type}

theorem pure (value : α) : KeepsAside (pure value : M α) := fun fs => (ensures_pure value).mpr (.refl fs)

theorem bind {head : M α} {next : α → M β} (begins : KeepsAside head) (goes : ∀ value, KeepsAside (next value)) : KeepsAside (head >>= next) := by
  intro fs
  apply Ensures.bind (begins fs)
  intro value middle before
  apply (goes value middle).weaken
  intro _ after later
  exact before.trans later

theorem get {next : FS → M α} (rest : ∀ fs, Ensures (next fs) fs (fun _ after => Aside 0 fs after) fun _ _ => True) :
    KeepsAside (Exec.get >>= next) :=
  fun fs => ensures_bind.mpr (ensures_get.mpr (rest fs))

theorem forRange {body : Nat → M Unit} (each : ∀ i, KeepsAside (body i)) (lo count : Nat) : KeepsAside (forRange lo count body) := by
  intro fs
  apply Ensures.forRange (fun _ after => Aside 0 fs after) (.refl fs)
  intro i current _ _ before
  apply (each i current).weaken
  intro _ after later
  exact before.trans later

/-- A change of neither the disk nor the log nor the table. -/
theorem modify {change : FS → FS} (same : ∀ fs, (change fs).sb = fs.sb ∧ (change fs).store = fs.store ∧ (change fs).device = fs.device ∧
    (change fs).inode = fs.inode ∧ (change fs).ninode = fs.ninode ∧ (change fs).log = fs.log) : KeepsAside (modify change : M Unit) := by
  intro fs
  obtain ⟨sb, store, device, inode, ninode, log⟩ := same fs
  apply (ensures_modify change).mpr
  refine ⟨sb, fun _ _ => by rw [store], inode, ninode, by rw [log, Int.add_zero], fun logged => ?_⟩
  refine ⟨fun blockno changed => ?_, by rw [log]; exact logged.committing, by rw [log]; exact logged.size, by rw [log]; exact logged.empty⟩
  rw [store, device] at changed
  rw [log]
  exact logged.synced blockno changed

end KeepsAside

theorem note_aside (event : Event) : KeepsAside (note event) := .modify fun _ => ⟨rfl, rfl, rfl, rfl, rfl, rfl⟩

theorem modifyBmap_aside (change : BmapCache → BmapCache) : KeepsAside (modifyBmap change) := .modify fun _ => ⟨rfl, rfl, rfl, rfl, rfl, rfl⟩

theorem loggedRead_aside (blockno : Nat) : KeepsAside (loggedRead blockno) := .get fun _ => (ensures_pure _).mpr (.refl _)

/-- A changed block that was logged. -/
theorem Logged.update {fs : FS} (before : fs.Logged) (inOp : 1 ≤ fs.log.outstanding) (blockno : Nat) (block : Block) :
    ({ fs with store := assign fs.store blockno block }.logged blockno).Logged := by
  refine ⟨fun other changed => (fs.log.mem_absorb blockno other).mpr ?_, ?_, ?_, fun out => ?_⟩
  · by_cases here : other = blockno
    · exact .inr here
    · apply Or.inl
      apply before.synced other
      unfold FS.logged at changed
      dsimp only at changed
      rwa [assign_of_ne here] at changed
  · exact (fs.log.absorb_committing blockno).trans before.committing
  · exact (fs.log.absorb_size blockno).trans before.size
  · change (fs.log.absorb blockno).outstanding ≤ 0 at out
    rw [Fslog.absorb_outstanding] at out
    omega

/-- One logged block from the bitmap on. -/
theorem loggedUpdate_aside {fs : FS} {blockno : Nat} (high : fs.sb.bmapstart ≤ blockno) (change : Block → Block) :
    Ensures (loggedUpdate blockno change) fs (fun _ after => Aside 0 fs after) fun _ _ => True := by
  simp only [loggedUpdate, loggedWrite, note, ensures_bind, ensures_modify, ensures_get, ensures_ite, ensures_stop]
  refine ⟨fun _ => trivial, fun _ => ⟨fun _ => trivial, fun inOp => ?_⟩⟩
  refine ⟨rfl, fun other low => assign_of_ne (by omega) _ _, rfl, rfl, ?_, fun logged => ?_⟩
  · exact (fs.log.absorb_outstanding blockno).trans (Int.add_zero _).symm
  · exact logged.update (Int.not_lt.mp inOp) blockno _

theorem beginOp_aside (fs : FS) : Ensures beginOp fs (fun _ after => Aside 1 fs after) fun _ _ => True := by
  unfold beginOp
  rw [ensures_bind, ensures_get]
  split
  · rw [ensures_bind, ensures_modify]
    unfold note
    rw [ensures_modify]
    refine ⟨rfl, fun _ _ => rfl, rfl, rfl, rfl, fun logged => ⟨logged.synced, logged.committing, logged.size, fun out => logged.empty ?_⟩⟩
    change fs.log.outstanding + 1 ≤ 0 at out
    omega
  · exact (ensures_stop _).mpr trivial

/-- A commit puts the whole store on the disk. -/
theorem endOp_aside (fs : FS) : Ensures endOp fs (fun _ after => Aside (-1) fs after) fun _ _ => True := by
  by_cases committing : fs.log.committing = false
  · apply ((endOp_spec committing).mono _ fun _ _ none => none.elim)
    intro _ after afterIs
    by_cases last : fs.log.outstanding = 1
    · rw [if_pos last] at afterIs
      subst afterIs
      refine ⟨rfl, fun _ _ => rfl, rfl, rfl, rfl, fun logged => ⟨fun blockno changed => ?_, committing, logged.size, fun _ => rfl⟩⟩
      have disk := committedDisk_synced logged.synced
      exact absurd (congrFun disk blockno).symm changed
    · rw [if_neg last] at afterIs
      subst afterIs
      refine ⟨rfl, fun _ _ => rfl, rfl, rfl, rfl, fun logged => ⟨logged.synced, committing, logged.size, fun out => logged.empty ?_⟩⟩
      change fs.log.outstanding - 1 ≤ 0 at out
      omega
  · unfold endOp
    rw [ensures_bind, ensures_modify, ensures_bind, ensures_get]
    dsimp only
    rw [if_pos (Bool.eq_true_of_not_eq_false committing)]
    exact (ensures_stop _).mpr trivial

/-- A program in an operation of its own. -/
theorem wrapped_aside {fs : FS} {program : M Unit} (spec : ∀ begun : FS, begun.sb = fs.sb → Ensures program begun (fun _ after => Aside 0 begun after) fun _ _ => True) :
    Ensures (do beginOp; program; endOp) fs (fun _ after => Aside 0 fs after) fun _ _ => True := by
  apply Ensures.bind (beginOp_aside fs)
  intro _ begun begins
  apply Ensures.bind (spec begun begins.sb)
  intro _ done does
  apply (endOp_aside done).weaken
  intro _ after ends
  exact (begins.trans does).trans ends

theorem zeroBitmapBlock_aside (i : Nat) : KeepsAside (zeroBitmapBlock i) := by
  apply KeepsAside.get
  intro fs
  apply wrapped_aside
  intro begun sb
  apply loggedUpdate_aside
  rw [sb]
  exact Nat.le_add_right _ _

theorem bmapBlockStatueSet_aside (blockno i : Nat) : KeepsAside (bmapBlockStatueSet blockno i) := by
  apply KeepsAside.get
  intro fs
  split
  · exact (ensures_stop _).mpr trivial
  · apply Ensures.bind (modifyBmap_aside _ fs)
    intro _ cached same
    have high : cached.sb.bmapstart ≤ fs.sb.bblock blockno := by
      rw [same.sb]
      exact Nat.le_add_left _ _
    apply (loggedUpdate_aside high _).weaken
    intro _ after later
    exact same.trans later

theorem initMetaBlock_aside (i : Nat) : KeepsAside (initMetaBlock i) :=
  fun _ => wrapped_aside fun begun _ => bmapBlockStatueSet_aside i 1 begun

theorem initMetaBlocksBmap_aside : KeepsAside initMetaBlocksBmap :=
  .get fun fs => KeepsAside.bind (.forRange initMetaBlock_aside _ _) (fun _ => .forRange initMetaBlock_aside _ _) fs

theorem refreshFrom_aside (sb : Superblock) : ∀ count i first_free, KeepsAside (refreshFrom sb count i first_free)
  | 0, _, _ => .pure ()
  | count + 1, i, first_free => by
    apply KeepsAside.bind (loggedRead_aside _)
    intro data
    apply KeepsAside.bind (modifyBmap_aside _)
    intro _
    apply KeepsAside.get
    intro fs
    apply KeepsAside.bind (modifyBmap_aside _)
    intro _
    exact refreshFrom_aside sb count _ _

theorem blockAllocatorRefresh_aside (sb : Superblock) : KeepsAside (blockAllocatorRefresh sb) :=
  .bind (modifyBmap_aside _) fun _ _ => wrapped_aside fun begun _ => refreshFrom_aside sb _ _ _ begun

/-- Making the bitmap empties the table and leaves the blocks before the bitmap. -/
theorem mkfsBitmap_aside (fs : FS) : Ensures mkfsBitmap fs
    (fun _ after => Aside 0 { fs with ninode := NINODE_INIT, inode := fun _ => Inode.zero, bmap := BmapCache.zero } after) fun _ _ => True := by
  unfold mkfsBitmap inodeInit
  rw [ensures_bind, ensures_get, ensures_bind, ensures_bind, ensures_modify]
  have rest : KeepsAside (do
      blockAllocatorRefresh fs.sb
      forRange 0 (ROUNDUP fs.sb.size BPB / BPB) zeroBitmapBlock
      blockAllocatorRefresh fs.sb
      initMetaBlocksBmap
      blockAllocatorRefresh fs.sb) := by
    apply KeepsAside.bind (blockAllocatorRefresh_aside _)
    intro _
    apply KeepsAside.bind (.forRange zeroBitmapBlock_aside _ _)
    intro _
    apply KeepsAside.bind (blockAllocatorRefresh_aside _)
    intro _
    apply KeepsAside.bind initMetaBlocksBmap_aside
    intro _
    exact blockAllocatorRefresh_aside _
  exact ensures_bind.mp (rest _)

end FS
end Myfuse
