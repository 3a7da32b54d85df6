import Myfuse.Proofs.WellFormed

/-! Whole reads and writes of a file, each in an operation of its own: what is
written is read back, and nothing else is seen to change. -/

namespace Myfuse
open Library Library.Exec

namespace FS
variable {origin : Origin} {fs after : FS} {ip : Nat}

theorem bytesFrom_overlay (bytes : Nat → Byte) (off : Nat) (data : List Byte) :
    bytesFrom (overlay bytes off data) off data.length = data := by
  refine List.ext_getElem (by simp [bytesFrom]) fun k inside inside' => ?_
  have place : off ≤ off + k ∧ off + k < off + data.length := ⟨Nat.le_add_right _ _, by omega⟩
  simp only [bytesFrom, List.getElem_map, List.getElem_range, overlay, if_pos place, Nat.add_sub_cancel_left]
  rw [List.getD_eq_getElem?_getD, List.getElem?_eq_getElem inside', Option.getD_some]

/-- The size of a file, from its entry in memory or its dinode. -/
def fileSize (fs : FS) (inum : Nat) : Nat := (fs.current inum).size

/-- A write in its own operation. -/
theorem inodeWriteNbytesUnlocked_spec {data : List Byte} {off : Nat} (rest : fs.AtRest origin) (live : fs.Live ip)
    (lockable : origin.roomy → fs.Lockable ip) (inside : off ≤ MAXFILE_SIZE) (within : origin.bounded → off < MAXFILE_SIZE)
    (memory : data.length < 2 ^ 63) :
    Ensures (inodeWriteNbytesUnlocked ip data off) fs
      (fun count after => count = min data.length (MAXFILE_SIZE - off) ∧
        Served origin ip fs (max (fs.fileSize (fs.inode ip).inum) (off + count))
          (overlay (fs.content (fs.inode ip).inum) off (data.take count)) after)
      (Stops origin) := by
  refine (rest.session live lockable
    (fun count size bytes => count = min data.length (MAXFILE_SIZE - off) ∧
      size = max (fs.fileSize (fs.inode ip).inum) (off + count) ∧ bytes = overlay (fs.content (fs.inode ip).inum) off (data.take count))
    (fun _ _ same => same) fun ready running none clean inum copy content => ?_).weaken ?_
  · refine (inodeWriteNbytesLocked_spec running (fun _ => by omega) inside within memory).weaken ?_
    rintro count after ⟨rfl, acted, -⟩
    rw [copy, inum, content] at acted
    exact ⟨_, _, ⟨rfl, rfl, rfl⟩, acted.done⟩
  · rintro count after ⟨size, bytes, ⟨rfl, rfl, rfl⟩, served⟩
    exact ⟨rfl, served⟩

/-- A read in its own operation. -/
theorem inodeReadNbytesUnlocked_spec {nbytes off : Nat} (rest : fs.AtRest origin) (live : fs.Live ip)
    (lockable : origin.roomy → fs.Lockable ip)
    (within : origin.bounded → off / BSIZE < MAXFILE_BLOCKS ∧
      off + served (fs.fileSize (fs.inode ip).inum) nbytes off ≤ MAXFILE_SIZE) :
    Ensures (inodeReadNbytesUnlocked ip nbytes off) fs
      (fun data after => Served origin ip fs (fs.fileSize (fs.inode ip).inum) (fs.content (fs.inode ip).inum) after ∧
        data = if off > fs.fileSize (fs.inode ip).inum then []
          else bytesFrom (fs.content (fs.inode ip).inum) off (served (fs.fileSize (fs.inode ip).inum) nbytes off))
      (Stops origin) := by
  refine (rest.session live lockable
    (fun data size bytes => size = fs.fileSize (fs.inode ip).inum ∧ bytes = fs.content (fs.inode ip).inum ∧
      data = if off > fs.fileSize (fs.inode ip).inum then []
        else bytesFrom (fs.content (fs.inode ip).inum) off (served (fs.fileSize (fs.inode ip).inum) nbytes off))
    (fun _ _ same => same) fun ready running none clean inum copy content => ?_).weaken ?_
  · have size : (ready.inode ip).copy.size = fs.fileSize (fs.inode ip).inum := by rw [copy, fileSize]
    refine (inodeReadNbytesLocked_spec running (fun _ => by rw [none]; decide) fun bounded => ?_).weaken ?_
    · rw [size]
      exact within bounded
    · rintro data after ⟨steady, ends, dataIs⟩
      have done := steady.done ends clean
      rw [size, inum, content] at done dataIs
      exact ⟨_, _, ⟨rfl, rfl, dataIs⟩, done⟩
  · rintro data after ⟨size, bytes, ⟨rfl, rfl, rfl⟩, served⟩
    exact ⟨served, rfl⟩

theorem Served.fileSize {size : Nat} {bytes : Nat → Byte} (served : Served origin ip fs size bytes after) :
    after.fileSize (fs.inode ip).inum = size := by
  have current := current_loaded served.rest.volume.table served.loaded
  rw [served.frame.inum] at current
  rw [FS.fileSize, current, served.size]

theorem Served.otherSize {size inum : Nat} {bytes : Nat → Byte} (served : Served origin ip fs size bytes after)
    (inside : inum < fs.sb.ninodes) (apart : inum ≠ (fs.inode ip).inum) : after.fileSize inum = fs.fileSize inum := by
  rw [FS.fileSize, FS.fileSize, served.frame.current inside apart]

/-- A served entry can be locked again. -/
theorem Served.lockable {size : Nat} {bytes : Nat → Byte} (served : Served origin ip fs size bytes after) : after.Lockable ip := by
  refine ⟨served.unlocked, fun invalid => ?_⟩
  rw [served.loaded.2] at invalid
  cases invalid

/-- What a write stores is read back, and a read serves the bytes of the file up to
its end; no other byte and no other size changes. -/
theorem write_then_read (wellFormed : fs.WellFormed) (live : fs.Live ip) (lockable : fs.Lockable ip)
    (small : fs.fileSize (fs.inode ip).inum ≤ MAXFILE_SIZE) :
    (∀ (data : List Byte) (off : Nat), 1 ≤ data.length → off + data.length ≤ MAXFILE_SIZE →
      Ensures (inodeWriteNbytesUnlocked ip data off) fs
        (fun count written => count = data.length ∧
          written.fileSize (fs.inode ip).inum = max (fs.fileSize (fs.inode ip).inum) (off + data.length) ∧
          (∀ p, p < fs.fileSize (fs.inode ip).inum → p < off ∨ off + data.length ≤ p →
            written.content (fs.inode ip).inum p = fs.content (fs.inode ip).inum p) ∧
          (∀ inum, inum < fs.sb.ninodes → inum ≠ (fs.inode ip).inum →
            written.fileSize inum = fs.fileSize inum ∧ written.content inum = fs.content inum) ∧
          Ensures (inodeReadNbytesUnlocked ip data.length off) written (fun back _ => back = data)
            fun reason _ => reason = .errExit .noFreeSpace)
        fun reason _ => reason = .errExit .noFreeSpace) ∧
    ∀ nbytes off, off < fs.fileSize (fs.inode ip).inum → off + nbytes < 2 ^ 63 →
      Ensures (inodeReadNbytesUnlocked ip nbytes off) fs
        (fun data after => data = bytesFrom (fs.content (fs.inode ip).inum) off (min nbytes (fs.fileSize (fs.inode ip).inum - off)) ∧
          ∀ inum, inum < fs.sb.ninodes → after.fileSize inum = fs.fileSize inum ∧ after.content inum = fs.content inum)
        fun reason _ => reason = .errExit .noFreeSpace := by
  have rest := wellFormed.atRest True True
  have limit : MAXFILE_SIZE < 2 ^ 62 := by decide
  have full : MAXFILE_SIZE = MAXFILE_BLOCKS * BSIZE := rfl
  have stops : ∀ {start : FS} {reason after}, Stops (start.here False True True) reason after → reason = .errExit .noFreeSpace :=
    fun fails => (fails.1 trivial).resolve_right fun both => both.2 trivial
  constructor
  · intro data off some fits
    have count : min data.length (MAXFILE_SIZE - off) = data.length := by
      generalize MAXFILE_SIZE = bound at *
      omega
    refine (inodeWriteNbytesUnlocked_spec rest live (fun _ => lockable) (by generalize MAXFILE_SIZE = bound at *; omega)
      (fun _ => by generalize MAXFILE_SIZE = bound at *; omega) (by generalize MAXFILE_SIZE = bound at *; omega)).mono ?_
      fun _ _ fails => stops fails
    rintro _ written ⟨rfl, served⟩
    rw [count, List.take_length] at served
    have size := served.fileSize
    refine ⟨count, size, fun p _ outside => ?_, fun inum inside apart => ⟨served.otherSize inside apart, served.others inum apart⟩, ?_⟩
    · rw [served.own, overlay, if_neg (by omega)]
    · have inum : (written.inode ip).inum = (fs.inode ip).inum := served.frame.inum
      have start : off ≤ written.fileSize (written.inode ip).inum := by rw [inum, size]; omega
      have room : FS.served (written.fileSize (written.inode ip).inum) data.length off = data.length := by
        rw [served_eq start (by generalize MAXFILE_SIZE = bound at *; omega), inum, size]
        omega
      refine (inodeReadNbytesUnlocked_spec served.rest served.loaded.1 (fun _ => served.lockable) fun _ => ⟨?_, ?_⟩).mono ?_
        fun _ _ fails => stops fails
      · refine block_below (Nat.lt_of_le_of_lt (Nat.div_mul_le_self off BSIZE) ?_)
        generalize MAXFILE_SIZE = bound at *
        omega
      · rw [room]
        exact fits
      · rintro back after ⟨-, backIs⟩
        rw [backIs, if_neg (Nat.not_lt.mpr start), room, inum, served.own, bytesFrom_overlay]
  · intro nbytes off inside fits
    have room : FS.served (fs.fileSize (fs.inode ip).inum) nbytes off = min nbytes (fs.fileSize (fs.inode ip).inum - off) :=
      served_eq (Nat.le_of_lt inside) (by omega)
    refine (inodeReadNbytesUnlocked_spec rest live (fun _ => lockable) fun _ => ⟨?_, ?_⟩).mono ?_ fun _ _ fails => stops fails
    · refine block_below (Nat.lt_of_le_of_lt (Nat.div_mul_le_self off BSIZE) ?_)
      generalize MAXFILE_SIZE = bound at *
      omega
    · rw [room]
      generalize MAXFILE_SIZE = bound at *
      omega
    · rintro data after ⟨served, dataIs⟩
      rw [if_neg (Nat.not_lt.mpr (Nat.le_of_lt inside)), room] at dataIs
      refine ⟨dataIs, fun inum small => ?_⟩
      by_cases here : inum = (fs.inode ip).inum
      · rw [here]
        exact ⟨served.fileSize, served.own⟩
      · exact ⟨served.otherSize small here, served.others inum here⟩

theorem write_then_read_small : ∃ fs ip, Ensures (inodeWriteNbytesUnlocked ip [7, 8, 9] 180223) fs
    (fun count written => count = 3 ∧ written.fileSize (fs.inode ip).inum = 180226 ∧
      Ensures (inodeReadNbytesUnlocked ip 3 180223) written (fun back _ => back = [7, 8, 9])
        fun reason _ => reason = .errExit .noFreeSpace)
    fun reason _ => reason = .errExit .noFreeSpace := by
  have size : smallMount.fileSize (smallMount.inode 0).inum = 0 := smallMount_size
  refine ⟨smallMount, 0, ((write_then_read smallMount_wellFormed smallMount_live smallMount_lockable (by rw [size]; decide)).1
    [7, 8, 9] 180223 (by decide) (by decide)).weaken ?_⟩
  rintro count written ⟨countIs, sizeIs, -, -, reads⟩
  rw [size] at sizeIs
  exact ⟨countIs, sizeIs, reads⟩

end FS
end Myfuse
