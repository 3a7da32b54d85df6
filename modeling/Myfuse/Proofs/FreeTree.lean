import Myfuse.Proofs.Truncate

/-! `itrunc`: the loops over the index blocks give back every block of the inode,
each once, before any slot is cleared. -/

namespace Myfuse
open Library Library.Exec

namespace FS
variable {origin : Origin} {fs middle after : FS} {ip owner : Nat} {done done' : List Nat → Prop}

/-- The log was full; nothing was committed on the way. -/
def FreeFails (fs : FS) (reason : Exit) (after : FS) : Prop := LogFull reason after ∧ ∃ count, LogUse count fs after

/-- From `fs` on the blocks that `owner` holds at the paths `done` were given back, each once. -/
structure Freeing (origin : Origin) (fs : FS) (owner : Nat) (done : List Nat → Prop) (after : FS) : Prop where
  ninode : after.ninode = fs.ninode
  inode : after.inode = fs.inode
  allocator : after.Allocator origin
  used : ∃ count, LogUse count fs after ∧ Lists fs after
  store : ∀ blockno, ¬ fs.sb.InBitmap blockno → after.store blockno = fs.store blockno
  bits : ∀ blockno, fs.sb.InData blockno → (bitOf fs.sb after.store blockno = true ↔
    bitOf fs.sb fs.store blockno = true ∧ ∀ path, done path → fs.held owner path ≠ blockno)
  freed : ∃ freed, freedBlocks after.history = freed ++ freedBlocks fs.history ∧ freed.Nodup ∧
    ∀ blockno, blockno ∈ freed ↔ blockno ≠ 0 ∧ ∃ path, done path ∧ fs.held owner path = blockno

theorem Freeing.start (volume : fs.Volume origin) : Freeing origin fs owner (fun _ => False) fs where
  ninode := rfl
  inode := rfl
  allocator := volume.toAllocator
  used := ⟨0, .refl fs, .refl fs⟩
  store _ _ := rfl
  bits _ _ := by simp
  freed := ⟨[], rfl, List.nodup_nil, by simp⟩

/-- Only the paths that hold a block count. -/
theorem Freeing.congr (freeing : Freeing origin fs owner done after)
    (same : ∀ path, fs.held owner path ≠ 0 → (done' path ↔ done path)) (volume : fs.Volume origin) :
    Freeing origin fs owner done' after := by
  have nonzero : ∀ blockno, fs.sb.InData blockno → blockno ≠ 0 := fun _ data => volume.owned.region_nonzero data
  refine { freeing with bits := fun blockno data => ?_, freed := ?_ }
  · rw [freeing.bits blockno data]
    refine and_congr_right fun _ => forall_congr' fun path => ?_
    by_cases holds : fs.held owner path = blockno
    · rw [same path (by rw [holds]; exact nonzero _ data)]
    · simp only [ne_eq, holds, not_false_eq_true, implies_true]
  · obtain ⟨freed, grown, nodup, exactly⟩ := freeing.freed
    refine ⟨freed, grown, nodup, fun blockno => ?_⟩
    rw [exactly]
    refine and_congr_right fun nonzero => exists_congr fun path => and_congr_left fun holds => ?_
    exact (same path (by rw [holds]; exact nonzero)).symm

/-- One more block is given back. -/
theorem Freeing.free (freeing : Freeing origin fs owner done middle) (volume : fs.Volume origin) (inOp : 1 ≤ fs.log.outstanding)
    {path : List Nat} (holds : fs.held owner path ≠ 0) (new : ¬ done path) :
    Ensures (blockFree (fs.held owner path)) middle
      (fun _ after => Freeing origin fs owner (fun path' => done path' ∨ path' = path) after) (FreeFails fs) := by
  obtain ⟨count, used, lists⟩ := freeing.used
  have data := volume.owned.inside _ _ holds
  have apart : ∀ path', done path' → fs.held owner path' ≠ fs.held owner path := fun path' isDone same =>
    new ((volume.owned.distinct _ _ _ _ holds same.symm).2 ▸ isDone)
  have set : bitOf middle.sb middle.store (fs.held owner path) = true := by
    rw [used.sb, freeing.bits _ data]
    exact ⟨volume.owned.used_of_held holds, apart⟩
  have gives := blockFree_gave freeing.allocator (used.outstanding ▸ inOp) (used.sb ▸ data) set
  refine (gives.and (blockFree_uses _ middle)).mono ?_ ?_
  · rintro _ after ⟨⟨gave, allocator⟩, used', lists'⟩
    refine ⟨gave.ninode.trans freeing.ninode, gave.inode.trans freeing.inode, allocator,
      ⟨_, used.trans used', lists.trans lists'⟩, fun blockno outside => ?_, fun blockno inside => ?_, ?_⟩
    · rw [gave.store blockno (used.sb ▸ outside), freeing.store blockno outside]
    · rw [← used.sb] at inside
      have bit := gave.bits blockno inside.covered
      rw [used.sb] at bit inside
      rw [bit]
      by_cases here : blockno = fs.held owner path
      · rw [if_pos here]
        simp only [Bool.false_eq_true, false_iff, not_and, not_forall]
        exact fun _ => ⟨path, .inr rfl, not_not.mpr here.symm⟩
      · rw [if_neg here, freeing.bits blockno inside]
        refine and_congr_right fun _ => ⟨fun others path' either => ?_, fun all path' isDone => all path' (.inl isDone)⟩
        rcases either with isDone | rfl
        · exact others path' isDone
        · exact fun same => here same.symm
    · obtain ⟨freed, grown, nodup, exactly⟩ := freeing.freed
      refine ⟨fs.held owner path :: freed, by rw [gave.freed, grown, List.cons_append], List.nodup_cons.mpr ⟨?_, nodup⟩,
        fun blockno => ?_⟩
      · intro again
        obtain ⟨-, path', isDone, same⟩ := (exactly _).mp again
        exact apart path' isDone same
      · rw [List.mem_cons, exactly]
        constructor
        · rintro (rfl | ⟨nonzero, path', isDone, same⟩)
          · exact ⟨holds, path, .inr rfl, rfl⟩
          · exact ⟨nonzero, path', .inl isDone, same⟩
        · rintro ⟨nonzero, path', isDone | rfl, same⟩
          · exact .inr ⟨nonzero, path', isDone, same⟩
          · exact .inl same.symm
  · rintro reason after ⟨full, used'⟩
    exact ⟨full, _, used.trans used'⟩

/-! The loops over one index block. -/

/-- Below `path`, not `path` itself. -/
def Below (path path' : List Nat) : Prop := path <+: path' ∧ path' ≠ path

theorem below_iff {path path' : List Nat} : Below path path' ↔ ∃ index, path ++ [index] <+: path' := by
  constructor
  · rintro ⟨⟨rest, rfl⟩, apart⟩
    cases rest with
    | nil => exact absurd (List.append_nil path) apart
    | cons index rest => exact ⟨index, rest, by simp⟩
  · rintro ⟨index, rest, rfl⟩
    refine ⟨⟨index :: rest, by simp⟩, fun same => ?_⟩
    have lengths := congrArg List.length same
    simp at lengths

/-- A path goes through one entry of a block only. -/
theorem child_unique {path path' : List Nat} {index index' : Nat} (first : path ++ [index] <+: path')
    (second : path ++ [index'] <+: path') : index = index' := by
  obtain ⟨rest, rfl⟩ := first
  obtain ⟨rest', same⟩ := second
  simp only [List.append_assoc, List.singleton_append, List.append_cancel_left_eq, List.cons.injEq] at same
  exact same.1.symm

/-- Entries past the end of an index block read as 0. -/
theorem entry_outside (block : Block) {index : Nat} (outside : NINDIRECT1 ≤ index) : entry block index = 0 := by
  simp only [NINDIRECT1] at outside
  have zero : (Bytes.zero : Block).field (4 * index) 4 = 0 := Bytes.field_zero _ _
  rw [← zero]
  refine Bytes.field_congr fun k low high => ?_
  rw [Bytes.byte_outside _ (by simp only [BSIZE]; omega), Bytes.byte_outside _ (by simp only [BSIZE]; omega)]

/-- What an index block lists is what is held below it. -/
theorem entry_held (volume : fs.Volume origin) {path : List Nat} (deep : BlockTree.Internal levels path)
    (holds : fs.held owner path ≠ 0) (freeing : Freeing origin fs owner done middle) (index : Nat) :
    entry (middle.store (fs.held owner path)) index = fs.held owner (path ++ [index]) := by
  have nonempty : path ≠ [] := by
    rintro rfl
    exact deep
  rw [freeing.store _ (Superblock.data_not_bitmap volume.layout (volume.owned.inside _ _ holds)), held_append owner nonempty,
    if_pos ⟨deep, holds⟩]

/-- One round of the loops: what is held through entry `i` is given back by `body`. -/
theorem forEntries_spec (volume : fs.Volume origin) {path : List Nat} (deep : BlockTree.Internal levels path)
    (holds : fs.held owner path ≠ 0) (freeing : Freeing origin fs owner done middle) (before : ∀ path', done path' → ¬ Below path path')
    (body : Nat → M Unit)
    (each : ∀ index current gone, Freeing origin fs owner gone current → fs.held owner (path ++ [index]) ≠ 0 →
      (∀ path', gone path' → ¬ path ++ [index] <+: path') →
      Ensures (body (fs.held owner (path ++ [index]))) current
        (fun _ after => Freeing origin fs owner (fun path' => gone path' ∨ path ++ [index] <+: path') after) (FreeFails fs)) :
    Ensures (do
        let bp ← loggedRead (fs.held owner path)
        forRange 0 NINDIRECT1 fun i => if entry bp i ≠ 0 then body (entry bp i) else pure ()) middle
      (fun _ after => Freeing origin fs owner (fun path' => done path' ∨ Below path path') after) (FreeFails fs) := by
  have entries := entry_held volume deep holds freeing
  have nonempty : path ≠ [] := by
    rintro rfl
    exact deep
  unfold loggedRead
  rw [ensures_bind, ensures_bind, ensures_get, ensures_pure]
  refine Ensures.weaken (Ensures.forRange (fun i current =>
    Freeing origin fs owner (fun path' => done path' ∨ ∃ j < i, path ++ [j] <+: path') current) ?_ fun i current _ inside reached => ?_)
    fun _ after reached => ?_
  · exact freeing.congr (fun _ _ => by simp) volume
  · rw [entries]
    split
    next present =>
      refine (each i current _ reached present ?_).weaken fun _ after next => ?_
      · rintro path' (isDone | ⟨j, earlier, below⟩) here
        · exact before path' isDone (below_iff.mpr ⟨i, here⟩)
        · have same := child_unique below here
          omega
      · refine next.congr (fun path' _ => ?_) volume
        simp only [Nat.lt_succ_iff_lt_or_eq, or_and_right, exists_or, exists_eq_left, or_assoc]
    next missing =>
      rw [ensures_pure]
      refine reached.congr (fun path' held => ?_) volume
      simp only [Nat.lt_succ_iff_lt_or_eq, or_and_right, exists_or, exists_eq_left]
      refine or_congr_right (or_iff_left ?_)
      rintro ⟨rest, rfl⟩
      exact held (held_beyond (not_not.mp missing) (by simp) rest)
  · refine reached.congr (fun path' held => or_congr_right ?_) volume
    rw [below_iff]
    constructor
    · rintro ⟨index, rest, rfl⟩
      refine ⟨index, ?_, rest, rfl⟩
      by_contra outside
      refine held (held_beyond ?_ (by simp) rest)
      rw [← entries]
      exact entry_outside _ (by omega)
    · rintro ⟨index, -, below⟩
      exact ⟨index, below⟩

/-- A whole tree below an index block is given back. -/
theorem freeEntries_spec (volume : fs.Volume origin) (inOp : 1 ≤ fs.log.outstanding) {slot : Nat} :
    ∀ (level : Nat) (rest : List Nat) {done : List Nat → Prop} {middle : FS}, Freeing origin fs owner done middle →
      levels slot = rest.length + (level + 1) → fs.held owner (slot :: rest) ≠ 0 →
      (∀ path', done path' → ¬ Below (slot :: rest) path') →
      Ensures (freeEntries level (fs.held owner (slot :: rest))) middle
        (fun _ after => Freeing origin fs owner (fun path' => done path' ∨ Below (slot :: rest) path') after) (FreeFails fs) := by
  intro level
  induction level with
  | zero =>
    intro rest done middle freeing height holds before
    have deep : BlockTree.Internal levels (slot :: rest) := by simp only [BlockTree.Internal]; omega
    unfold freeEntries
    refine forEntries_spec volume deep holds freeing before blockFree fun index current gone reached present fresh => ?_
    refine (reached.free volume inOp present fun isGone => fresh _ isGone (List.prefix_refl _)).weaken fun _ after next => ?_
    refine next.congr (fun path' held => or_congr_right ⟨?_, ?_⟩) volume
    · rintro ⟨below, rfl⟩
      -- Data blocks list nothing.
      cases below with
      | nil => exact List.append_nil _
      | cons further below =>
        have leaf : ¬ BlockTree.Internal levels (slot :: rest ++ [index]) := by
          simp only [BlockTree.Internal, List.cons_append, List.length_append, List.length_singleton]
          omega
        have missing : fs.held owner (slot :: rest ++ [index] ++ [further]) = 0 :=
          BlockTree.place_leaf owner leaf further (by simp)
        have empty := held_beyond missing (by simp) below
        rw [List.append_assoc, List.singleton_append] at empty
        exact absurd empty held
    · rintro rfl
      exact List.prefix_refl _
  | succ level ih =>
    intro rest done middle freeing height holds before
    have deep : BlockTree.Internal levels (slot :: rest) := by simp only [BlockTree.Internal]; omega
    unfold freeEntries
    refine forEntries_spec volume deep holds freeing before (fun addr => do freeEntries level addr; blockFree addr)
      fun index current gone reached present fresh => ?_
    have below := ih (rest ++ [index]) reached (by rw [List.length_append, List.length_singleton]; omega) present
      fun path' isGone isBelow => fresh path' isGone isBelow.1
    refine Ensures.bind below fun _ emptied reached' => ?_
    refine (reached'.free volume inOp present ?_).weaken fun _ after next => ?_
    · rintro (isGone | isBelow)
      · exact fresh _ isGone (List.prefix_refl _)
      · exact isBelow.2 rfl
    · refine next.congr (fun path' _ => ?_) volume
      rw [or_assoc]
      refine or_congr_right ⟨fun inside => ?_, ?_⟩
      · by_cases here : path' = slot :: rest ++ [index]
        · exact .inr here
        · exact .inl ⟨inside, here⟩
      · rintro (isBelow | rfl)
        · exact isBelow.1
        · exact List.prefix_refl _

/-- The tree at one slot, when there is one. -/
theorem freeTree_spec (volume : fs.Volume origin) (loaded : fs.Loaded ip) (inOp : 1 ≤ fs.log.outstanding) {slot level : Nat}
    (small : slot < NBLOCKADDR) (height : levels slot = level + 1)
    (freeing : Freeing origin fs (fs.inode ip).inum done middle) (before : ∀ path', done path' → ¬ [slot] <+: path') :
    Ensures (freeTree ip slot level) middle
      (fun _ after => Freeing origin fs (fs.inode ip).inum (fun path' => done path' ∨ [slot] <+: path') after) (FreeFails fs) := by
  have root : (middle.inode ip).copy.addrs slot = fs.held (fs.inode ip).inum [slot] := by
    rw [held_root, roots_loaded volume.table loaded, if_pos small, freeing.inode]
  unfold freeTree
  rw [ensures_bind, ensures_get]
  simp only [root]
  split
  next present =>
    have below := freeEntries_spec volume inOp level [] freeing (by simpa using height) present
      fun path' isDone isBelow => before path' isDone isBelow.1
    refine Ensures.bind below fun _ emptied reached => ?_
    refine (reached.free volume inOp present ?_).weaken fun _ after next => next.congr (fun path' _ => ?_) volume
    · rintro (isDone | isBelow)
      · exact before _ isDone (List.prefix_refl _)
      · exact isBelow.2 rfl
    · rw [or_assoc]
      refine or_congr_right ⟨fun inside => ?_, ?_⟩
      · by_cases here : path' = [slot]
        · exact .inr here
        · exact .inl ⟨inside, here⟩
      · rintro (isBelow | rfl)
        · exact isBelow.1
        · exact List.prefix_refl _
  next missing =>
    rw [ensures_pure]
    refine freeing.congr (fun path' held => or_iff_left ?_) volume
    rintro ⟨rest, rfl⟩
    exact held (held_beyond (not_not.mp missing) (by simp) rest)

/-- The slots of data blocks. -/
theorem freeDirect_spec (volume : fs.Volume origin) (loaded : fs.Loaded ip) (inOp : 1 ≤ fs.log.outstanding) :
    Ensures (forRange 0 NDIRECT fun i => do
        let fs ← Exec.get
        let addr := (fs.inode ip).copy.addrs i
        if addr ≠ 0 then blockFree addr else pure ()) fs
      (fun _ after => Freeing origin fs (fs.inode ip).inum (fun path' => ∃ slot < NDIRECT, [slot] <+: path') after)
      (FreeFails fs) := by
  refine Ensures.weaken (Ensures.forRange (fun i current =>
    Freeing origin fs (fs.inode ip).inum (fun path' => ∃ slot < i, [slot] <+: path') current) ?_ fun i current _ inside reached => ?_)
    fun _ after reached => ?_
  · exact (Freeing.start volume).congr (fun _ _ => by simp) volume
  · have direct : i < NDIRECT := by omega
    have root : (current.inode ip).copy.addrs i = fs.held (fs.inode ip).inum [i] := by
      rw [held_root, roots_loaded volume.table loaded, if_pos (Nat.lt_trans direct (by decide)), reached.inode]
    have beyond : ∀ path', [i] <+: path' → path' = [i] ∨ fs.held (fs.inode ip).inum path' = 0 := by
      rintro path' ⟨rest, rfl⟩
      cases rest with
      | nil => exact .inl (List.append_nil _)
      | cons further rest =>
        have empty := held_beyond (held_below_leaf fs (fs.inode ip).inum (if_pos direct) further) (by simp) rest
        rw [List.append_assoc, List.singleton_append] at empty
        exact .inr empty
    rw [ensures_bind, ensures_get]
    simp only [root]
    split
    next present =>
      refine (reached.free volume inOp present ?_).weaken fun _ after next => next.congr (fun path' held => ?_) volume
      · rintro ⟨slot, earlier, below⟩
        have same := @child_unique [] _ _ _ below (List.prefix_refl [i])
        omega
      · simp only [Nat.lt_succ_iff_lt_or_eq, or_and_right, exists_or, exists_eq_left]
        refine or_congr_right ⟨fun inside => (beyond path' inside).resolve_right held, ?_⟩
        rintro rfl
        exact List.prefix_refl _
    next missing =>
      rw [ensures_pure]
      refine reached.congr (fun path' held => ?_) volume
      simp only [Nat.lt_succ_iff_lt_or_eq, or_and_right, exists_or, exists_eq_left]
      refine or_iff_left fun inside => ?_
      rcases beyond path' inside with rfl | empty
      · exact held (not_not.mp missing)
      · exact held empty
  · rwa [Nat.zero_add] at reached

/-- Every block of the inode was given back. -/
theorem freeAll_spec (volume : fs.Volume origin) (loaded : fs.Loaded ip) (inOp : 1 ≤ fs.log.outstanding)
    (rest : M Unit) {ok : Unit → FS → Prop} {exit : Exit → FS → Prop}
    (fails : ∀ reason after, FreeFails fs reason after → exit reason after)
    (next : ∀ after, Freeing origin fs (fs.inode ip).inum (fun _ => True) after → Ensures rest after ok exit) :
    Ensures (do
      forRange 0 NDIRECT fun i => do
        let fs ← Exec.get
        let addr := (fs.inode ip).copy.addrs i
        if addr ≠ 0 then blockFree addr else pure ()
      freeTree ip NDIRECT 0
      freeTree ip (NDIRECT + 1) 1
      freeTree ip (NDIRECT + 2) 2
      rest) fs ok exit := by
  have apart : ∀ {path : List Nat} {slot slot' : Nat}, [slot] <+: path → [slot'] <+: path → slot = slot' := by
    intro path slot slot' first second
    exact @child_unique [] _ _ _ first second
  refine Ensures.bind ((freeDirect_spec volume loaded inOp).mono (fun _ _ same => same) fails) fun _ first freeing₁ => ?_
  refine Ensures.bind ((freeTree_spec volume loaded inOp (by decide) (by decide) freeing₁ ?_).mono (fun _ _ same => same) fails)
    fun _ second freeing₂ => ?_
  · rintro path ⟨slot, direct, below⟩ here
    have same := apart below here
    omega
  refine Ensures.bind ((freeTree_spec volume loaded inOp (by decide) (by decide) freeing₂ ?_).mono (fun _ _ same => same) fails)
    fun _ third freeing₃ => ?_
  · rintro path (⟨slot, direct, below⟩ | below) here
    · have same := apart below here
      omega
    · have same := apart below here
      omega
  refine Ensures.bind ((freeTree_spec volume loaded inOp (by decide) (by decide) freeing₃ ?_).mono (fun _ _ same => same) fails)
    fun _ fourth freeing₄ => ?_
  · rintro path ((⟨slot, direct, below⟩ | below) | below) here
    · have same := apart below here
      omega
    · have same := apart below here
      omega
    · have same := apart below here
      omega
  refine next fourth (freeing₄.congr (fun path held => iff_of_true trivial ?_) volume)
  cases path with
  | nil => exact absurd rfl held
  | cons slot below =>
    have small : slot < NBLOCKADDR := by
      by_contra large
      have empty : fs.held (fs.inode ip).inum [slot] = 0 := by
        rw [held_root, roots_loaded volume.table loaded, if_neg large]
      exact held (held_beyond empty (by simp) below)
    have here : [slot] <+: slot :: below := ⟨below, rfl⟩
    rcases Nat.lt_or_ge slot NDIRECT with direct | indirect
    · exact .inl (.inl (.inl ⟨slot, direct, here⟩))
    · have cases : slot = NDIRECT ∨ slot = NDIRECT + 1 ∨ slot = NDIRECT + 2 := by
        simp only [NBLOCKADDR, NSUBDIRECT, NDIRECT] at small indirect ⊢
        omega
      rcases cases with rfl | rfl | rfl
      · exact .inl (.inl (.inr here))
      · exact .inl (.inr here)
      · exact .inr here

/-- What `freed` lists since `fs` is what the inode held, each block once. -/
def FreedAll (fs : FS) (owner : Nat) (after : FS) : Prop :=
  ∃ freed, freedBlocks after.history = freed ++ freedBlocks fs.history ∧ freed.Nodup ∧
    ∀ blockno, blockno ∈ freed ↔ blockno ≠ 0 ∧ ∃ path, fs.held owner path = blockno

/-- The inode's slots are cleared after its blocks were given back. -/
theorem Running.clearSlots (running : fs.Running origin ip) (freeing : Freeing origin fs (fs.inode ip).inum (fun _ => True) middle)
    {exit : Exit → FS → Prop} :
    Ensures (modifyCopy ip fun copy => { copy with addrs := fun _ => 0, size := 0 }) middle
      (fun _ after => after.Running origin ip ∧ Keeps ip fs after ∧ (after.inode ip).copy.size = 0 ∧
        (after.inode ip).copy.nlink = (fs.inode ip).copy.nlink ∧ (after.inode ip).copy.addrs = (fun _ => 0) ∧
        (∀ inum p, after.content inum p = if inum = (fs.inode ip).inum then 0 else fs.content inum p) ∧
        FreedAll fs (fs.inode ip).inum after ∧ (∃ count, LogUse count fs after) ∧
        ∀ owner path, after.held owner path = if owner = (fs.inode ip).inum then 0 else fs.held owner path)
      exit := by
  have volume := running.volume
  obtain ⟨count, used, lists⟩ := freeing.used
  have uses := modifyCopy_uses ip (fun copy => { copy with addrs := fun _ => 0, size := 0 }) middle
  unfold modifyCopy modifyInode at uses ⊢
  rw [ensures_modify] at uses ⊢
  have moved : Keeps ip fs middle :=
    .of_same used.sb freeing.ninode freeing.inode used.outstanding
      (fun inum inside => freeing.store _ (Superblock.iblock_not_bitmap volume.layout inside)) (volume.table.inside ip running.loaded.1)
  have keeps := moved.trans (.copy (fun copy => { copy with addrs := fun _ => 0, size := 0 }) rfl)
  generalize afterIs : ({ middle with inode := _ } : FS) = after at uses keeps
  have store : after.store = middle.store := by rw [← afterIs]
  have copy : (after.inode ip).copy = { (fs.inode ip).copy with addrs := fun _ => 0, size := 0 } := by
    rw [← afterIs, ← freeing.inode]
    simp
  have same : ∀ owner path, fs.held owner path ≠ 0 → after.store (fs.held owner path) = fs.store (fs.held owner path) := by
    intro owner path holds
    rw [store]
    exact freeing.store _ (Superblock.data_not_bitmap volume.layout (volume.owned.inside _ _ holds))
  have heldIs : ∀ owner path, after.held owner path = if owner = (fs.inode ip).inum then 0 else fs.held owner path := by
    intro owner path
    induction path using BlockTree.path_induction with
    | nil => simp [held]
    | slot k =>
      rw [held_root, held_root, keeps.roots_eq volume.table running.loaded, copy]
      simp
    | entry above index nonempty ih =>
      rw [held_append owner nonempty, held_append owner nonempty, ih]
      by_cases mine : owner = (fs.inode ip).inum
      · simp only [if_pos mine, ne_eq, not_true_eq_false, and_false, if_false]
      · simp only [if_neg mine]
        by_cases both : BlockTree.Internal levels above ∧ fs.held owner above ≠ 0
        · rw [if_pos both, if_pos both, same _ _ both.2]
        · rw [if_neg both, if_neg both]
  have allocator : after.Allocator origin :=
    freeing.allocator.congr (by rw [← afterIs]) (by rw [← afterIs]) (by rw [← afterIs]; exact .refl _) fun _ _ => by rw [store]
  have owned : Owned after.sb.InData origin.lost after.held (bitOf after.sb after.store) := by
    rw [keeps.sb, store]
    refine volume.owned.drop heldIs fun blockno data => ?_
    rw [freeing.bits blockno data]
    simp only [true_implies]
  have history : after.history = middle.history := by rw [← afterIs]
  refine ⟨running.use ⟨allocator, keeps.table volume.table, owned⟩ keeps (used.trans uses.1) (lists.trans uses.2), keeps, by rw [copy],
    by rw [copy], by rw [copy], fun inum p => ?_, ?_, ⟨_, used.trans uses.1⟩, heldIs⟩
  · by_cases mine : inum = (fs.inode ip).inum
    · rw [if_pos mine, content_of_empty]
      rw [heldIs, if_pos mine]
    · rw [if_neg mine]
      exact content_congr (by rw [heldIs, if_neg mine]) (same _ _)
  · obtain ⟨freed, grown, nodup, exactly⟩ := freeing.freed
    refine ⟨freed, by rw [history, grown], nodup, fun blockno => ?_⟩
    rw [exactly]
    simp only [true_and]

theorem iupdate_frees (ip : Nat) (fs : FS) : Ensures (iupdate ip) fs
    (fun _ after => freedBlocks after.history = freedBlocks fs.history) fun _ _ => True := by
  simp only [iupdate, getCurrentTimespec, modifyCopy, modifyInode, loggedUpdate, loggedWrite, note, ensures_bind, ensures_get,
    ensures_modify, ensures_pure, ensures_ite, ensures_stop, implies_true, true_and]
  exact fun _ _ => rfl

/-- All blocks of the inode are freed, each once; its slots and its size are 0. -/
structure Emptied (origin : Origin) (ip : Nat) (fs after : FS) : Prop where
  acted : Acted origin ip fs 0 (fun _ => 0) after
  addrs : (after.inode ip).copy.addrs = fun _ => 0
  freed : FreedAll fs (fs.inode ip).inum after
  used : ∃ count, LogUse count fs after

theorem itrunc_empties (running : fs.Running origin ip) : Ensures (itrunc ip) fs
    (fun _ after => Emptied origin ip fs after ∧ Cut fs.held after.held (fs.inode ip).inum fun _ => True) (FreeFails fs) := by
  unfold itrunc
  refine freeAll_spec running.volume running.loaded running.op.inOp _ (fun _ _ same => same) fun middle freeing => ?_
  refine Ensures.bind (running.clearSlots freeing) ?_
  rintro _ cleared ⟨running', keeps, size, nlink, addrs, content, freed, ⟨count, used⟩, held⟩
  have updates := (((iupdate_spec running').and (iupdate_uses ip cleared)).and (iupdate_frees ip cleared)).and (iupdate_held running')
  refine updates.mono ?_ ?_
  · rintro _ after ⟨⟨⟨⟨steady, -, sameAddrs, agrees⟩, used', -⟩, sameFreed⟩, sameHeld, -⟩
    refine ⟨⟨⟨steady.running, keeps.trans steady.keeps, steady.size.trans size, ?_, fun inum apart => ?_, steady.nlink.trans nlink, agrees⟩,
      sameAddrs.trans addrs, ?_, _, used.trans used'⟩, fun path _ => ?_, fun owner path outside => ?_⟩
    · funext p
      rw [steady.content, content, if_pos rfl]
    · funext p
      rw [steady.content, content, if_neg apart]
    · obtain ⟨list, grown, rest⟩ := freed
      exact ⟨list, sameFreed.trans grown, rest⟩
    · rw [sameHeld, held, if_pos rfl]
    · rw [sameHeld, held, if_neg fun mine => outside ⟨mine, trivial⟩]
  · rintro reason after ⟨⟨⟨⟨full, used'⟩, -⟩, -⟩, -⟩
    exact ⟨full, _, used.trans used'⟩

theorem itrunc_spec (running : fs.Running origin ip) : Ensures (itrunc ip) fs (fun _ after => Emptied origin ip fs after) (FreeFails fs) :=
  (itrunc_empties running).weaken fun _ _ both => both.1

end FS
end Myfuse
