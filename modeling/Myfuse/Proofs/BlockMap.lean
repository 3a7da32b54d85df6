import Myfuse.Library.PartialMap
import Myfuse.Proofs.BlockOwnership
import Myfuse.Proofs.EntryRules

/-! The tree of four tiers as one finite map from block indices to data blocks:
`imap2blockno` finds or inserts, `imap2blockno_free` erases, `itrunc` empties. -/

namespace Myfuse
open Library Library.Exec

/-! Paths of file blocks. -/

theorem pathOf_height (bn : Nat) : ∃ slot rest, pathOf bn = slot :: rest ∧ rest.length = levels slot := by
  unfold pathOf
  split
  next direct => exact ⟨bn, [], rfl, by simp only [levels, NDIRECT, List.length_nil] at direct ⊢; omega⟩
  split
  · exact ⟨_, _, rfl, rfl⟩
  split
  · exact ⟨_, _, rfl, rfl⟩
  · exact ⟨_, _, rfl, rfl⟩

/-- The path of one file block leads through no other. -/
theorem pathOf_prefix {bn bn' : Nat} (before : pathOf bn' <+: pathOf bn) : bn' = bn := by
  obtain ⟨slot, rest, path, height⟩ := pathOf_height bn
  obtain ⟨slot', rest', path', height'⟩ := pathOf_height bn'
  obtain ⟨further, same⟩ := before
  rw [path, path', List.cons_append, List.cons.injEq] at same
  obtain ⟨rfl, rfl⟩ := same
  have none : further = [] := by
    rw [List.length_append, height'] at height
    exact List.eq_nil_of_length_eq_zero (by omega)
  refine pathOf_injective ?_
  rw [path, path', none, List.append_nil]

namespace FS
variable {origin : Origin} {fs start after : FS} {ip : Nat}

/-- The block map of an inode. -/
def blockMap (fs : FS) (inum : Nat) : PartialMap Nat Nat := fun bn =>
  if fs.held inum (pathOf bn) = 0 then none else some (fs.held inum (pathOf bn))

theorem blockMap_eq_some {inum bn block : Nat} : fs.blockMap inum bn = some block ↔ fs.held inum (pathOf bn) = block ∧ block ≠ 0 := by
  unfold blockMap
  split
  next missing =>
    refine iff_of_false (by simp) ?_
    rintro ⟨rfl, present⟩
    exact present missing
  next present =>
    rw [Option.some.injEq]
    exact ⟨fun same => ⟨same, same ▸ present⟩, And.left⟩

theorem blockMap_eq_none {inum bn : Nat} : fs.blockMap inum bn = none ↔ fs.held inum (pathOf bn) = 0 := by
  simp [blockMap]

theorem blockMap_congr {inum bn : Nat} (same : after.held inum (pathOf bn) = fs.held inum (pathOf bn)) :
    after.blockMap inum bn = fs.blockMap inum bn := by rw [blockMap, blockMap, same]

/-- Nothing is mapped past the limit of a file. -/
theorem mapped_below {inum bn : Nat} (present : fs.held inum (pathOf bn) ≠ 0) : bn < MAXFILE_BLOCKS := by
  by_contra large
  refine present ?_
  have limit : MAXFILE_BLOCKS = NDIRECT + NINDIRECT1 + NINDIRECT2 + NINDIRECT1 * NINDIRECT2 := by decide
  rw [limit] at large
  have path : pathOf bn = [NDIRECT + 2, (bn - NDIRECT - NINDIRECT1 - NINDIRECT2) / NINDIRECT2] ++
      [(bn - NDIRECT - NINDIRECT1 - NINDIRECT2) % NINDIRECT2 / NINDIRECT1, (bn - NDIRECT - NINDIRECT1 - NINDIRECT2) % NINDIRECT2 % NINDIRECT1] := by
    rw [pathOf, if_neg (by omega), if_neg (by omega), if_neg (by omega), List.cons_append, List.cons_append, List.nil_append]
  have outside : NINDIRECT1 ≤ (bn - NDIRECT - NINDIRECT1 - NINDIRECT2) / NINDIRECT2 := by
    refine (Nat.le_div_iff_mul_le (by decide)).mpr ?_
    omega
  rw [path]
  refine held_beyond ?_ (by simp) _
  rw [show [NDIRECT + 2, (bn - NDIRECT - NINDIRECT1 - NINDIRECT2) / NINDIRECT2] =
    [NDIRECT + 2] ++ [(bn - NDIRECT - NINDIRECT1 - NINDIRECT2) / NINDIRECT2] from rfl, held_append _ (by simp)]
  rw [entry_outside _ outside, ite_self]

/-- The block maps agree with the bitmap and the log can be used, whatever operations are open. -/
def Ready (fs : FS) : Prop := fs.Usable (fs.here False False False)

theorem Volume.here (volume : fs.Volume origin) (watch bounded roomy : Prop) : fs.Volume (fs.here watch bounded roomy) where
  layout := volume.layout
  reserved := volume.reserved
  summaries := volume.summaries
  free := volume.free
  tracked := ⟨[], rfl, trivial, fun _ _ => rfl⟩
  table := volume.table
  owned := by
    refine ⟨volume.owned.nonzero, volume.owned.distinct, volume.owned.inside, fun blockno data => ⟨fun set => ?_, ?_⟩, fun owner path _ lost => lost.2 owner path rfl⟩
    · by_cases held : ∃ owner path, fs.held owner path = blockno
      · exact .inr held
      · exact .inl ⟨set, fun owner path same => held ⟨owner, path, same⟩⟩
    · rintro (lost | ⟨owner, path, rfl⟩)
      · exact lost.1
      · exact volume.owned.used_of_held (volume.owned.region_nonzero data)

theorem Usable.ready (usable : fs.Usable origin) : fs.Ready := ⟨usable.volume.here _ _ _, usable.committing, usable.size⟩

theorem WellFormed.ready (wellFormed : fs.WellFormed) : fs.Ready := wellFormed.usable

theorem Ready.running (ready : fs.Ready) (loaded : fs.Loaded ip) (inOp : 1 ≤ fs.log.outstanding) : fs.Running (fs.here False False False) ip :=
  Usable.running fs.here_plain ready loaded inOp

/-- What the calls of a map do to the map of `ip`; the maps of the other inodes stay. -/
structure MapCalls (fs : FS) (ip : Nat) : Prop where
  find : ∀ bn < MAXFILE_BLOCKS, Ensures (imap2blockno ip bn) fs
    (fun block after => ∃ map, after.blockMap = assign fs.blockMap (fs.inode ip).inum map ∧
      (fs.blockMap (fs.inode ip).inum).FindsOrInserts
        (fun new => fs.sb.InData new ∧ bitOf fs.sb fs.store new = false ∧ after.store new = Bytes.zero) bn block map ∧
      Ensures (imap2blockno ip bn) after (fun again final => again = block ∧ final = after) fun reason _ => reason = .errExit .tooManyBlocks)
    fun reason _ => reason ≠ .assertion ∧ reason ≠ .errExit .inodeTooBig
  erase : ∀ bn < MAXFILE_BLOCKS, Ensures (imap2blocknoFree ip bn) fs
    (fun _ after => after.blockMap = assign fs.blockMap (fs.inode ip).inum ((fs.blockMap (fs.inode ip).inum).erase bn))
    fun reason _ => reason ≠ .assertion ∧ reason ≠ .errExit .inodeTooBigFree
  clear : Ensures (itrunc ip) fs (fun _ after => after.blockMap = assign fs.blockMap (fs.inode ip).inum PartialMap.empty)
    fun reason _ => reason ≠ .assertion

/-- A map that is changed for one inode only. -/
theorem blockMap_assign {inum : Nat} {map : PartialMap Nat Nat} (own : after.blockMap inum = map)
    (others : ∀ other, other ≠ inum → after.blockMap other = fs.blockMap other) : after.blockMap = assign fs.blockMap inum map := by
  funext other
  by_cases here : other = inum
  · rw [here, own, assign_self]
  · rw [others other here, assign_of_ne here]

/-- A walk to a file block maps that one or nothing. -/
theorem Walked.finds {bn block : Nat} (walked : Walked origin ip fs (pathOf bn) block after) :
    after.blockMap = assign fs.blockMap (fs.inode ip).inum (after.blockMap (fs.inode ip).inum) ∧
      (fs.blockMap (fs.inode ip).inum).FindsOrInserts
        (fun new => fs.sb.InData new ∧ bitOf fs.sb fs.store new = false ∧ after.store new = Bytes.zero) bn block
        (after.blockMap (fs.inode ip).inum) := by
  have frame : ∀ inum bn', ¬ (inum = (fs.inode ip).inum ∧ bn' = bn) → after.blockMap inum bn' = fs.blockMap inum bn' := fun inum bn' apart =>
    blockMap_congr (walked.frame _ _ fun both => apart ⟨both.1, pathOf_prefix both.2⟩)
  refine ⟨blockMap_assign rfl fun other apart => funext fun bn' => frame other bn' fun both => apart both.1, ?_⟩
  by_cases missing : fs.held (fs.inode ip).inum (pathOf bn) = 0
  · obtain ⟨clear, zero⟩ := walked.fresh missing
    have data := walked.grown.volume.owned.inside _ _ (walked.holds ▸ walked.nonzero)
    rw [walked.holds, walked.grown.keeps.sb] at data
    refine .inr ⟨blockMap_eq_none.mpr missing, ⟨data, clear, zero⟩, funext fun bn' => ?_⟩
    by_cases here : bn' = bn
    · rw [here, PartialMap.insert_self, blockMap_eq_some]
      exact ⟨walked.holds, walked.nonzero⟩
    · rw [PartialMap.insert_of_ne _ _ here]
      exact frame _ bn' fun both => here both.2
  · have same := walked.same missing
    have holds := walked.holds
    rw [same] at holds
    exact .inl ⟨blockMap_eq_some.mpr ⟨holds, walked.nonzero⟩, by rw [same]⟩

theorem Dropped.erases {bn : Nat} (dropped : Dropped origin ip bn fs after) (running : fs.Running origin ip) :
    after.blockMap = assign fs.blockMap (fs.inode ip).inum ((fs.blockMap (fs.inode ip).inum).erase bn) := by
  have gone : after.held (fs.inode ip).inum (pathOf bn) = 0 ∧
      ∀ inum bn', ¬ (inum = (fs.inode ip).inum ∧ bn' = bn) → after.held inum (pathOf bn') = fs.held inum (pathOf bn') := by
    by_cases adds : AddsRoot fs ip bn
    · obtain ⟨block, -, held⟩ := dropped.added adds
      have leaf : ∀ bn', pathOf bn' ≠ [NDIRECT + 1] := fun bn' same => pathOf_leaf bn' (same ▸ by decide)
      have frame : ∀ inum bn', after.held inum (pathOf bn') = fs.held inum (pathOf bn') := fun inum bn' => by
        rw [held, BlockTree.update_other _ _ fun both => leaf bn' both.2]
      refine ⟨?_, fun inum bn' _ => frame inum bn'⟩
      rw [frame]
      have low := adds.1.1
      have high := adds.1.2
      have before : [NDIRECT + 1] <+: pathOf bn := by
        rw [pathOf, if_neg (by omega), if_neg (by omega), if_pos (by omega)]
        exact ⟨_, rfl⟩
      exact held_missing_above (by simp) before ((running.root (by decide)).trans adds.2)
    · rw [dropped.held adds]
      exact ⟨BlockTree.update_same .., fun inum bn' apart => BlockTree.update_other _ _ fun both => apart ⟨both.1, pathOf_injective both.2⟩⟩
  refine blockMap_assign (funext fun bn' => ?_) fun other apart => funext fun bn' => blockMap_congr (gone.2 _ _ fun both => apart both.1)
  by_cases here : bn' = bn
  · rw [here, PartialMap.erase_self]
    exact blockMap_eq_none.mpr gone.1
  · rw [PartialMap.erase_of_ne _ here]
    exact blockMap_congr (gone.2 _ _ fun both => here both.2)

theorem Ready.mapCalls (ready : fs.Ready) (loaded : fs.Loaded ip) (inOp : 1 ≤ fs.log.outstanding) : MapCalls fs ip := by
  have running := ready.running loaded inOp
  constructor
  case find =>
    intro bn small
    refine (imap2blockno_walks running.volume loaded inOp small).mono ?_ ?_
    · intro block after walked
      have keeps := walked.grown.keeps
      have found : after.held (after.inode ip).inum (pathOf bn) = block := by rw [keeps.inum, walked.holds]
      obtain ⟨maps, finds⟩ := walked.finds
      refine ⟨_, maps, finds, ?_⟩
      refine (imap2blockno_walks walked.grown.volume (keeps.loaded.mpr loaded) (keeps.outstanding ▸ inOp) small).mono ?_ ?_
      · intro again final walked'
        have same := walked'.same (found ▸ walked.nonzero)
        have holds := walked'.holds
        rw [same, found] at holds
        exact ⟨holds.symm, same⟩
      · rintro reason final (⟨rfl, -⟩ | ⟨missing, -⟩)
        · rfl
        · exact absurd (found.symm.trans missing) walked.nonzero
    · rintro reason after (⟨rfl, -⟩ | ⟨-, rfl | ⟨rfl, -⟩⟩) <;> decide
  case erase =>
    intro bn small
    have reasons : Guards ip (fun _ _ => True) (fun reason => reason ≠ .assertion ∧ reason ≠ .errExit .inodeTooBigFree) (imap2blocknoFree ip bn) :=
      imap2blocknoFree_guards (fun _ off => ⟨off.2.1, off.2.2.2.1⟩) small (fun _ _ _ _ _ => trivial) fun _ =>
        addrsFindOrAlloc_guards (fun _ off => ⟨off.2.1, off.2.2.2.1⟩) (by decide) (fun _ _ _ _ => trivial) fun _ _ _ _ => trivial
    refine ((imap2blocknoFree_drops running (fun roomy => roomy.elim) fun bounded => bounded.elim).and (reasons fs trivial)).mono ?_ ?_
    · exact fun _ after both => both.1.1.erases running
    · exact fun _ _ both => both.2.2
  case clear =>
    refine (itrunc_empties running).mono ?_ ?_
    · rintro _ after ⟨-, cut⟩
      refine blockMap_assign (funext fun bn => blockMap_eq_none.mpr (cut.empty _ trivial)) fun other apart => funext fun bn => ?_
      exact blockMap_congr (cut.kept _ _ fun both => apart both.1)
    · rintro reason after ⟨⟨rfl, -⟩, -⟩
      decide

/-- After any calls on any inodes the block maps are injective, disjoint and below the limit, and
the next call acts on them as a call of a map. -/
theorem blockMap_refines (ready : start.Ready) (run : CallRun start fs) :
    (∀ inum bn block, fs.blockMap inum bn = some block → bn < MAXFILE_BLOCKS ∧ fs.sb.InData block ∧ bitOf fs.sb fs.store block = true) ∧
      (∀ inum bn inum' bn' block, fs.blockMap inum bn = some block → fs.blockMap inum' bn' = some block → inum = inum' ∧ bn = bn') ∧
      ∀ ip, start.Loaded ip → 1 ≤ fs.log.outstanding → MapCalls fs ip := by
  obtain ⟨usable, -, loaded⟩ := run.keeps start.here_plain ready
  have owned := usable.volume.owned
  refine ⟨fun inum bn block mapped => ?_, fun inum bn inum' bn' block mapped mapped' => ?_, fun ip isLoaded inOp => ?_⟩
  · obtain ⟨rfl, present⟩ := blockMap_eq_some.mp mapped
    exact ⟨mapped_below present, owned.inside _ _ present, owned.used_of_held present⟩
  · obtain ⟨rfl, present⟩ := blockMap_eq_some.mp mapped
    obtain ⟨same, -⟩ := blockMap_eq_some.mp mapped'
    obtain ⟨inumIs, path⟩ := owned.distinct _ _ _ _ present same.symm
    exact ⟨inumIs, pathOf_injective path⟩
  · exact usable.ready.mapCalls ((loaded ip).mpr isLoaded) inOp

/-- An operation on a live entry of a well-formed state. -/
theorem WellFormed.opens {α : Type} {program : M α} {value : α} (wellFormed : start.WellFormed) (live : start.Live ip)
    (returned : (do beginOp; ilock ip; program) start = (.ok value, after)) :
    ∃ fs, fs.Ready ∧ fs.Loaded ip ∧ 1 ≤ fs.log.outstanding ∧ (fs.inode ip).inum = (start.inode ip).inum ∧ program fs = (.ok value, after) := by
  obtain ⟨_, began, begins, rest⟩ := bind_returns returned
  obtain ⟨_, fs, locks, runs⟩ := bind_returns rest
  obtain ⟨usable, unmoved, -, outstanding⟩ := wellFormed.usable.begins.returned begins
  have inOp : 1 ≤ began.log.outstanding := by rw [outstanding, wellFormed.idle.outstanding]; decide
  have live' : began.Live ip := by rwa [Live, unmoved.inode, unmoved.ninode]
  obtain ⟨running, fetched, -⟩ := ((usable.opened start.here_plain inOp).locks live' fun roomy => roomy.elim).returned locks
  exact ⟨fs, running.usable.ready, running.loaded, running.op.inOp, by rw [fetched.frame.inum, unmoved.inode], runs⟩

/-- A new file with one block mapped through an index block. -/
theorem blockMap_refines_one : ∃ start fs, CallRun start fs ∧ (∃ block, fs.blockMap 17 50 = some block) ∧ MapCalls fs 0 := by
  have computed : valueOf (do
      beginOp
      ilock 0
      blockCall (.map 0 50)
      let fs : FS ← get
      pure (fs.log.outstanding, (fs.blockMap 17 50).isSome)) freshFile = some (1, true) := by decide +kernel
  obtain ⟨start, ready, loaded, inOp, -, rest⟩ := freshFile_wellFormed.opens ⟨by decide, by decide⟩ (returns_of_valueOf computed)
  obtain ⟨_, fs, mapped, rest⟩ := bind_returns rest
  obtain ⟨open', present⟩ : fs.log.outstanding = 1 ∧ (fs.blockMap 17 50).isSome = true := by
    rw [bind_ok get_apply] at rest
    simpa using congrArg Prod.fst rest
  have inside : CallsInside start start (.map 0 50) := ⟨loaded, inOp⟩
  have run : CallRun start fs := .call .start inside mapped
  exact ⟨start, fs, run, Option.isSome_iff_exists.mp present, (blockMap_refines ready run).2.2 0 loaded (by rw [open'])⟩

end FS
end Myfuse
