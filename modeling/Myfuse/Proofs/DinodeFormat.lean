import Myfuse.Inode

/-! The dinode format: writing one dinode leaves the others of its block alone,
and type, link count, size and slots of the one written read back. -/

namespace Myfuse
open Library

namespace Dinode
variable {data data' : Block} {offset : Nat}

/-- A dinode is read from its own bytes. -/
theorem read_congr (same : ∀ index, offset ≤ index → index < offset + dinodeSize → data'.byte index = data.byte index) :
    read data' offset = read data offset := by
  have fields : ∀ low width, offset ≤ low → low + width ≤ offset + dinodeSize →
      data'.field low width = data.field low width := fun low width above below =>
    Bytes.field_congr fun index first last => same index (by omega) (by omega)
  simp only [dinodeSize] at fields
  unfold read readTimespec
  rw [fields offset 2 (by omega) (by omega), fields (offset + 2) 2 (by omega) (by omega),
    fields (offset + 4) 2 (by omega) (by omega), fields (offset + 6) 2 (by omega) (by omega),
    fields (offset + 8) 8 (by omega) (by omega), fields (offset + 16) 8 (by omega) (by omega),
    fields (offset + 16 + 8) 8 (by omega) (by omega), fields (offset + 32) 8 (by omega) (by omega),
    fields (offset + 32 + 8) 8 (by omega) (by omega), fields (offset + 48) 8 (by omega) (by omega),
    fields (offset + 48 + 8) 8 (by omega) (by omega), fields (offset + 64) 4 (by omega) (by omega)]
  congr 1
  funext k
  split
  next small =>
    simp only [NBLOCKADDR, NDIRECT, NSUBDIRECT] at small
    exact fields _ _ (by omega) (by omega)
  next => rfl

/-- The bytes outside a stored field. -/
theorem byte_setField_outside (data : Block) {low width value index : Nat} (outside : index < low ∨ low + width ≤ index) :
    (data.setField low width value).byte index = data.byte index := by
  by_cases inside : index < BSIZE
  · rw [Bytes.byte_setField _ _ _ _ inside, if_neg (by omega)]
  · rw [Bytes.byte_outside _ (Nat.not_lt.mp inside), Bytes.byte_outside _ (Nat.not_lt.mp inside)]

theorem byte_writeAddrs (addrs : Nat → Nat) {index count k : Nat} (data : Block)
    (outside : index < offset ∨ offset + 68 + 4 * (k + count) ≤ index) :
    (writeAddrs data offset addrs k count).byte index = data.byte index := by
  induction count generalizing k data with
  | zero => rfl
  | succ count ih =>
    rw [writeAddrs, ih _ (by omega), byte_setField_outside _ (by omega)]

/-- Writing a dinode changes its own bytes only. -/
theorem byte_write (copy : Dinode) {index : Nat} (outside : index < offset ∨ offset + dinodeSize ≤ index) :
    (write data offset copy).byte index = data.byte index := by
  simp only [dinodeSize] at outside
  simp only [write, writeTimespec]
  rw [byte_writeAddrs _ _ (by simp only [NBLOCKADDR, NDIRECT, NSUBDIRECT]; omega)]
  simp (disch := omega) only [byte_setField_outside]

theorem field_writeAddrs (addrs : Nat → Nat) {low width count k : Nat} (data : Block)
    (apart : low + width ≤ offset + 68 + 4 * k) :
    (writeAddrs data offset addrs k count).field low width = data.field low width := by
  induction count generalizing k data with
  | zero => rfl
  | succ count ih => rw [writeAddrs, ih _ (by omega), Bytes.field_setField_other _ (by omega)]

/-- The slots read back, cut to their width. -/
theorem slot_writeAddrs (addrs : Nat → Nat) {count k slot : Nat} (data : Block) (low : k ≤ slot) (high : slot < k + count)
    (inside : offset + 68 + 4 * (k + count) ≤ BSIZE) :
    (writeAddrs data offset addrs k count).field (offset + 68 + 4 * slot) 4 = addrs slot % 2 ^ 32 := by
  induction count generalizing k data with
  | zero => omega
  | succ count ih =>
    rw [writeAddrs]
    by_cases here : slot = k
    · rw [here, field_writeAddrs _ _ (by omega), Bytes.field_setField _ _ _ _ (by omega), show 256 ^ 4 = 2 ^ 32 from rfl]
    · exact ih _ (by omega) (by omega) (by omega)

theorem addrs_read_write (data : Block) (copy : Dinode) (inside : offset + dinodeSize ≤ BSIZE) {slot : Nat}
    (small : slot < NBLOCKADDR) : (read (write data offset copy) offset).addrs slot = copy.addrs slot % 2 ^ 32 := by
  simp only [read, if_pos small, write]
  simp only [dinodeSize, BSIZE] at inside
  exact slot_writeAddrs _ _ (Nat.zero_le _) (by omega) (by simp only [NBLOCKADDR, NDIRECT, NSUBDIRECT, BSIZE]; omega)

theorem type_read_write (data : Block) (copy : Dinode) (inside : offset + dinodeSize ≤ BSIZE) :
    (read (write data offset copy) offset).type = copy.type := by
  simp only [dinodeSize, BSIZE] at inside
  simp only [read, write, writeTimespec]
  rw [field_writeAddrs _ _ (by omega)]
  simp (disch := omega) only [Bytes.field_setField_other]
  rw [Bytes.field_setField _ _ _ _ (by simp only [BSIZE]; omega), show 256 ^ 2 = 2 ^ 16 from rfl,
    Nat.mod_eq_of_lt copy.type.isLt]
  simp

theorem nlink_read_write (data : Block) (copy : Dinode) (inside : offset + dinodeSize ≤ BSIZE) :
    (read (write data offset copy) offset).nlink = copy.nlink := by
  simp only [dinodeSize, BSIZE] at inside
  simp only [read, write, writeTimespec]
  rw [field_writeAddrs _ _ (by omega)]
  simp (disch := omega) only [Bytes.field_setField_other]
  rw [Bytes.field_setField _ _ _ _ (by simp only [BSIZE]; omega), show 256 ^ 2 = 2 ^ 16 from rfl,
    Nat.mod_eq_of_lt copy.nlink.isLt]
  simp

theorem size_read_write (data : Block) (copy : Dinode) (inside : offset + dinodeSize ≤ BSIZE) :
    (read (write data offset copy) offset).size = copy.size % 2 ^ 64 := by
  simp only [dinodeSize, BSIZE] at inside
  simp only [read, write, writeTimespec]
  rw [field_writeAddrs _ _ (by omega)]
  simp (disch := omega) only [Bytes.field_setField_other]
  rw [Bytes.field_setField _ _ _ _ (by simp only [BSIZE]; omega), show 256 ^ 8 = 2 ^ 64 from rfl]

theorem offsetOf_fits (inum : Nat) : offsetOf inum + dinodeSize ≤ BSIZE := by
  simp only [offsetOf, IPB, dinodeSize, BSIZE]
  omega

/-- Two dinodes of one block have disjoint bytes. -/
theorem read_write_other (data : Block) (copy : Dinode) {inum inum' : Nat} (block : inum / IPB = inum' / IPB)
    (apart : inum' ≠ inum) : read (write data (offsetOf inum) copy) (offsetOf inum') = read data (offsetOf inum') := by
  refine read_congr fun index low high => byte_write copy ?_
  simp only [offsetOf, IPB, dinodeSize, BSIZE] at *
  omega

end Dinode
end Myfuse
