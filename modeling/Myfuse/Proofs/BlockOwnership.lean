import Myfuse.Proofs.Usable

/-! Who holds which block after any calls of the block map routines on any inodes:
each block handed out and not freed since is held at one place, and no other is. -/

namespace Myfuse
open Library Library.Exec

/-- The block map routines, and the operations around them. -/
inductive BlockCall where
  | beginOp
  | endOp
  | map (ip bn : Nat)
  | mapFree (ip bn : Nat)
  | trunc (ip : Nat)
  | resize (ip size : Nat)

/-- The newest event about the block hands it out. -/
def HandedOut (blockno : Nat) : List Event → Prop
  | [] => False
  | .blockAlloc other :: older => other = blockno ∨ HandedOut blockno older
  | .blockFree other :: older => other ≠ blockno ∧ HandedOut blockno older
  | _ :: older => HandedOut blockno older

theorem bitsAfter_handedOut {bits : Nat → Bool} {blockno : Nat} (clear : bits blockno = false) (recent : List Event) :
    bitsAfter bits recent blockno = true ↔ HandedOut blockno recent := by
  induction recent with
  | nil => simp [bitsAfter, HandedOut, clear]
  | cons event older ih =>
    cases event with
    | blockAlloc other =>
      by_cases same : other = blockno
      · simp [bitsAfter, HandedOut, same]
      · simp [bitsAfter, HandedOut, same, assign_of_ne (Ne.symm same), ih]
    | blockFree other =>
      by_cases same : other = blockno
      · simp [bitsAfter, HandedOut, same]
      · simp [bitsAfter, HandedOut, same, assign_of_ne (Ne.symm same), ih]
    | _ => exact ih

namespace FS
variable {fs middle after : FS} {ip : Nat}

def blockCall : BlockCall → M Unit
  | .beginOp => beginOp
  | .endOp => endOp
  | .map ip bn => do
    let _ ← imap2blockno ip bn
    pure ()
  | .mapFree ip bn => imap2blocknoFree ip bn
  | .trunc ip => itrunc ip
  | .resize ip size => itrunc2size ip size

/-- The entry a routine works on; it is called inside an operation. -/
def CallsInside (fs current : FS) : BlockCall → Prop
  | .beginOp | .endOp => True
  | .map ip _ | .mapFree ip _ | .trunc ip | .resize ip _ => fs.Loaded ip ∧ 1 ≤ current.log.outstanding

/-- Returned calls on the entries loaded at the start. -/
inductive CallRun (fs : FS) : FS → Prop
  | start : CallRun fs fs
  | call {middle after : FS} {next : BlockCall} : CallRun fs middle → fs.CallsInside middle next →
      blockCall next middle = (.ok (), after) → CallRun fs after

/-- No inode has a block, and the allocator knows of none in use. -/
structure AllFree (fs : FS) : Prop where
  layout : fs.sb.Valid
  log : fs.log.committing = false ∧ fs.log.size = NLOG
  bits : ∀ blockno < fs.sb.nbitmap * BPB, bitOf fs.sb fs.store blockno = metaBits fs.sb blockno
  summaries : Summaries fs.sb fs.store fs.bmap
  free : FirstFree fs.sb fs.store fs.bmap
  table : fs.TableOk
  addrs : ∀ inum slot, fs.roots inum slot = 0

/-- Each block that is out is held at one place of one inode, and every block held is out. -/
structure BlocksOwned (start fs : FS) : Prop where
  once : ∀ owner path owner' path', fs.held owner path ≠ 0 → fs.held owner path = fs.held owner' path' →
    owner = owner' ∧ path = path'
  region : ∀ owner path, fs.held owner path ≠ 0 → fs.sb.InData (fs.held owner path)
  marked : ∀ owner path, fs.held owner path ≠ 0 → bitOf fs.sb fs.store (fs.held owner path) = true
  out : ∃ recent, fs.history = recent ++ start.history ∧ Orderly (bitOf start.sb start.store) recent ∧
    ∀ blockno, fs.sb.InData blockno → ((∃ owner path, fs.held owner path = blockno) ↔ HandedOut blockno recent)

/-- A run from `fs` that has lost no block. -/
def lossless (fs : FS) : Origin :=
  { lost := fun _ => False, bits := bitOf fs.sb fs.store, history := fs.history, watch := False, bounded := False, roomy := False }

theorem lossless_plain (fs : FS) : fs.lossless.Plain := ⟨id, id, id⟩

theorem AllFree.held (free : fs.AllFree) (owner : Nat) (path : List Nat) : fs.held owner path = 0 :=
  BlockTree.place_empty (free.addrs owner) path

theorem AllFree.clear (free : fs.AllFree) {blockno : Nat} (data : fs.sb.InData blockno) : bitOf fs.sb fs.store blockno = false := by
  rw [free.bits blockno data.covered, metaBits, decide_eq_false_iff_not]
  unfold Superblock.InData at data
  omega

theorem AllFree.usable (free : fs.AllFree) : fs.Usable fs.lossless where
  committing := free.log.1
  size := free.log.2
  volume := by
    refine ⟨⟨free.layout, fun blockno inside outside => ?_, free.summaries, free.free, [], rfl, trivial, fun _ _ => rfl⟩, free.table,
      Superblock.zero_not_data free.layout, ?_, ?_, fun blockno data => ?_, fun _ _ _ => id⟩
    · rw [free.bits blockno inside, metaBits, decide_eq_true_iff]
      unfold Superblock.InData at outside
      omega
    · exact fun owner path _ _ holds => absurd (free.held owner path) holds
    · exact fun owner path holds => absurd (free.held owner path) holds
    · rw [free.clear data]
      refine iff_of_false Bool.false_ne_true ?_
      rintro (lost | ⟨owner, path, rfl⟩)
      · exact lost
      · rw [free.held] at data
        exact Superblock.zero_not_data free.layout data

/-- A returned call keeps the volume and the loaded entries. -/
theorem blockCall_keeps {origin : Origin} (plain : origin.Plain) (usable : middle.Usable origin) {next : BlockCall}
    (same : ∀ ip, middle.Loaded ip ↔ fs.Loaded ip) (inside : fs.CallsInside middle next)
    (returned : blockCall next middle = (.ok (), after)) :
    after.Usable origin ∧ after.sb = middle.sb ∧ ∀ ip, after.Loaded ip ↔ fs.Loaded ip := by
  have keeps : ∀ {ip}, after.Running origin ip → Keeps ip middle after →
      after.Usable origin ∧ after.sb = middle.sb ∧ ∀ ip, after.Loaded ip ↔ fs.Loaded ip :=
    fun running keeps => ⟨running.usable, keeps.sb, fun ip => keeps.loaded.trans (same ip)⟩
  cases next with
  | beginOp =>
    obtain ⟨usable, unmoved, -⟩ := usable.begins.returned returned
    exact ⟨usable, unmoved.sb, fun ip => (unmoved.loaded ip).trans (same ip)⟩
  | endOp =>
    obtain ⟨usable, unmoved, -⟩ := usable.ends.returned returned
    exact ⟨usable, unmoved.sb, fun ip => (unmoved.loaded ip).trans (same ip)⟩
  | map ip bn =>
    have running := usable.running plain ((same ip).mpr inside.1) inside.2
    obtain ⟨block, final, mapped, last⟩ := bind_returns returned
    obtain rfl : final = after := by simpa using last
    have grown := (running.map (fun roomy => absurd roomy plain.roomy) fun bounded => absurd bounded plain.bounded).returned mapped
    exact keeps grown.steady.running grown.steady.keeps
  | mapFree ip bn =>
    have running := usable.running plain ((same ip).mpr inside.1) inside.2
    obtain ⟨wrote, -⟩ := (imap2blocknoFree_spec running (fun roomy => absurd roomy plain.roomy)
      fun bounded => absurd bounded plain.bounded).returned returned
    exact keeps wrote.running wrote.keeps
  | trunc ip =>
    have running := usable.running plain ((same ip).mpr inside.1) inside.2
    have emptied := (itrunc_spec running).returned returned
    exact keeps emptied.acted.running emptied.acted.keeps
  | resize ip size =>
    have running := usable.running plain ((same ip).mpr inside.1) inside.2
    obtain ⟨bytes, acted, -⟩ := (itrunc2size_spec running (fun roomy => absurd roomy plain.roomy) size
      fun bounded => absurd bounded plain.bounded).returned returned
    exact keeps acted.running acted.keeps

theorem CallRun.keeps {origin : Origin} (plain : origin.Plain) (usable : fs.Usable origin) (run : CallRun fs after) :
    after.Usable origin ∧ after.sb = fs.sb ∧ ∀ ip, after.Loaded ip ↔ fs.Loaded ip := by
  induction run with
  | start => exact ⟨usable, rfl, fun _ => Iff.rfl⟩
  | call _ inside returned ih =>
    obtain ⟨usable, sb, loaded⟩ := ih
    obtain ⟨usable', sb', loaded'⟩ := blockCall_keeps plain usable loaded inside returned
    exact ⟨usable', sb'.trans sb, loaded'⟩

/-- After any returned calls the blocks that are out are held once each, and truncating
an inode next frees exactly its blocks, each once. -/
theorem calls_own_blocks (free : fs.AllFree) (run : CallRun fs middle) :
    BlocksOwned fs middle ∧ ∀ ip, fs.Loaded ip → 1 ≤ middle.log.outstanding → itrunc ip middle = (.ok (), after) →
      FreedAll middle (middle.inode ip).inum after ∧ (after.inode ip).copy.addrs = fun _ => 0 := by
  obtain ⟨usable, sb, loaded⟩ := run.keeps fs.lossless_plain free.usable
  have owned := usable.volume.owned
  obtain ⟨recent, grown, orderly, explained⟩ := usable.volume.tracked
  refine ⟨⟨owned.distinct, owned.inside, fun owner path holds => owned.used_of_held holds, recent, grown, orderly, fun blockno data => ?_⟩, ?_⟩
  · have bit := explained blockno data
    have taken := owned.taken blockno data
    rw [← bitsAfter_handedOut (free.clear (sb ▸ data))]
    exact (taken.trans ⟨fun either => either.resolve_left id, .inr⟩).symm.trans (by rw [bit]; exact Iff.rfl)
  · intro ip isLoaded inOp returned
    have running := usable.running fs.lossless_plain ((loaded ip).mpr isLoaded) inOp
    have emptied := (itrunc_spec running).returned returned
    exact ⟨emptied.freed, emptied.addrs⟩

/-- The same disk and bitmap, and no other slots. -/
theorem AllFree.congr (free : fs.AllFree) (sb : after.sb = fs.sb) (store : after.store = fs.store) (bmap : after.bmap = fs.bmap)
    (roots : after.roots = fs.roots) (table : after.TableOk) (log : after.log.committing = false ∧ after.log.size = NLOG) :
    after.AllFree := by
  refine ⟨sb ▸ free.layout, log, ?_, ?_, ?_, table, by rw [roots]; exact free.addrs⟩ <;> rw [sb, store]
  · exact free.bits
  · rw [bmap]
    exact free.summaries
  · rw [bmap]
    exact free.free

theorem freshFile_free : freshFile.AllFree := by
  have wellFormed := freshFile_wellFormed
  refine ⟨smallDisk_layout, ⟨wellFormed.idle.committing, wellFormed.idle.size⟩, smallDisk_blockless.bits, wellFormed.summaries,
    wellFormed.free, wellFormed.table, fun inum slot => ?_⟩
  rw [← held_root]
  exact held_blockless smallDisk_blockless (fresh_absent firstEntry_unread) inum [slot]

/-- Two blocks of a new file, one under an index block, are handed out and freed again. -/
theorem freshFile_calls : ∃ start middle after, start.AllFree ∧ itrunc 0 middle = (.ok (), after) ∧
    BlocksOwned start middle ∧ FreedAll middle (middle.inode 0).inum after ∧ (after.inode 0).copy.addrs = fun _ => 0 := by
  have computed : valueOf (do
      beginOp
      ilock 0
      blockCall (.map 0 3)
      let one : FS ← get
      blockCall (.map 0 50)
      let two : FS ← get
      itrunc 0
      pure (one.log.outstanding, two.log.outstanding)) freshFile = some (1, 1) := by decide +kernel
  have free := freshFile_free
  have live : freshFile.Live 0 := ⟨by decide, by decide⟩
  obtain ⟨_, began, begin', rest⟩ := bind_returns (returns_of_valueOf computed)
  obtain ⟨_, start, locks, rest⟩ := bind_returns rest
  obtain ⟨_, once, first, rest⟩ := bind_returns rest
  rw [bind_ok get_apply] at rest
  obtain ⟨_, middle, second, rest⟩ := bind_returns rest
  rw [bind_ok get_apply] at rest
  obtain ⟨_, after, truncates, last⟩ := bind_returns rest
  obtain ⟨one, two⟩ : once.log.outstanding = 1 ∧ middle.log.outstanding = 1 := by simpa using congrArg Prod.fst last
  obtain ⟨usable, unmoved, -, outstanding⟩ := free.usable.begins.returned begin'
  have live' : began.Live 0 := by rwa [Live, unmoved.inode, unmoved.ninode]
  have fetched := (ilock_fetches usable.volume.table live').returned locks
  have loaded := fetched.loaded live'
  have opened : start.log.outstanding = 1 := by rw [fetched.log, outstanding]; rfl
  have startFree : start.AllFree := by
    refine free.congr (fetched.sb.trans unmoved.sb) (fetched.store.trans unmoved.store) (fetched.bmap.trans unmoved.bmap)
      ((fetched.roots usable.volume.table live').trans unmoved.roots) (fetched.table usable.volume.table) ?_
    rw [fetched.log]
    exact ⟨usable.committing, usable.size⟩
  have inside : CallsInside start start (.map 0 3) := ⟨loaded, by rw [opened]⟩
  have inside' : CallsInside start once (.map 0 50) := ⟨loaded, by rw [one]⟩
  have run : CallRun start middle := .call (.call .start inside first) inside' second
  obtain ⟨owned, frees⟩ := calls_own_blocks startFree run
  exact ⟨start, middle, after, startFree, truncates, owned, frees 0 loaded (by rw [two]) truncates⟩

end FS
end Myfuse
