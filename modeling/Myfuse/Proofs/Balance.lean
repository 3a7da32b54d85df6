import Myfuse.File
import Myfuse.Proofs.LogUse

/-! Books about operations, references and locks. Every function of the inode and
directory layers has one entry here; the calls of `file.c` add up to what is left open. -/

namespace Myfuse
open Library Library.Exec

/-- Operations going on, references and locks of the table entries, the pointers in the
file table, and entries that exist. -/
structure Account where
  ops : Int
  refs : Nat → Int
  locks : Nat → Bool
  files : Nat → Option Nat
  known : Set Nat

namespace Account

def hold (account : Account) (ip : Nat) : Account :=
  { account with refs := fun other => account.refs other + (if other = ip then 1 else 0), known := insert ip account.known }

def drop (account : Account) (ip : Nat) : Account :=
  { account with refs := fun other => account.refs other - if other = ip then 1 else 0 }

theorem hold_refs (account : Account) (ip other : Nat) :
    (account.hold ip).refs other = account.refs other + if other = ip then 1 else 0 := rfl

theorem drop_refs (account : Account) (ip other : Nat) :
    (account.drop ip).refs other = account.refs other - if other = ip then 1 else 0 := rfl

def lock (account : Account) (ip : Nat) : Account := { account with locks := assign account.locks ip true }

def unlock (account : Account) (ip : Nat) : Account := { account with locks := assign account.locks ip false }

def opened (account : Account) : Account := { account with ops := account.ops + 1 }

def ended (account : Account) : Account := { account with ops := account.ops - 1 }

@[simp] theorem lock_unlock {account : Account} {ip : Nat} (free : account.locks ip = false) : (account.lock ip).unlock ip = account := by
  have same : assign (assign account.locks ip true) ip false = account.locks := by
    funext other
    by_cases here : other = ip
    · rw [here, assign_self, free]
    · rw [assign_of_ne here, assign_of_ne here]
  rw [lock, unlock, same]

@[simp] theorem unlock_lock {account : Account} {ip : Nat} (taken : account.locks ip = true) : (account.unlock ip).lock ip = account := by
  have same : assign (assign account.locks ip false) ip true = account.locks := by
    funext other
    by_cases here : other = ip
    · rw [here, assign_self, taken]
    · rw [assign_of_ne here, assign_of_ne here]
  rw [lock, unlock, same]

theorem ended_opened (account : Account) : account.ended.opened = account := by
  rw [opened, ended]
  congr 1
  exact Int.sub_add_cancel _ _

theorem opened_ended (account : Account) : account.opened.ended = account := by
  rw [opened, ended]
  congr 1
  exact Int.add_sub_cancel _ _

end Account

namespace FS
variable {α β : Type} {fs : FS} {account : Account} {ip : Nat}

/-- The account of a state. Entries past the table do not exist. -/
structure Books (account : Account) (fs : FS) : Prop where
  ops : fs.log.outstanding = account.ops
  ref : ∀ ip, (fs.inode ip).ref = account.refs ip
  locked : ∀ ip, (fs.inode ip).locked = account.locks ip
  files : ∀ f, (fs.files f).ip = account.files f
  initialized : 0 < fs.ninode
  past : ∀ ip, fs.ninode ≤ ip → account.refs ip = 0 ∧ account.locks ip = false
  known : ∀ ip ∈ account.known, ip < fs.ninode
  pointers : ∀ f ip, account.files f = some ip → ip < fs.ninode

/-- A returned run leaves what `account` says. -/
abbrev Leaves (program : M α) (fs : FS) (account : α → Account) : Prop :=
  Ensures program fs (fun value after => Books (account value) after) fun _ _ => True

/-- A returned run leaves the account as it was. -/
def Neutral (program : M α) : Prop := ∀ (account : Account) (fs : FS), Books account fs → Leaves program fs fun _ => account

/-- After `inode_init`: entries past the table are not in use, and handles point into it. -/
structure Mounted (fs : FS) : Prop where
  initialized : 0 < fs.ninode
  past : ∀ ip, fs.ninode ≤ ip → (fs.inode ip).ref = 0 ∧ (fs.inode ip).locked = false
  pointers : ∀ f ip, (fs.files f).ip = some ip → ip < fs.ninode

def accountOf (fs : FS) : Account :=
  { ops := fs.log.outstanding, refs := fun ip => (fs.inode ip).ref, locks := fun ip => (fs.inode ip).locked, files := fun f => (fs.files f).ip,
    known := { ip | ip < fs.ninode } }

theorem Mounted.books (mounted : Mounted fs) : Books (accountOf fs) fs :=
  ⟨rfl, fun _ => rfl, fun _ => rfl, fun _ => rfl, mounted.initialized, mounted.past, fun _ inside => inside, mounted.pointers⟩

theorem Books.mounted (books : Books account fs) : Mounted fs := by
  refine ⟨books.initialized, fun ip outside => ?_, fun f ip pointer => books.pointers f ip ((books.files f).symm.trans pointer)⟩
  rw [books.ref, books.locked]
  exact books.past ip outside

/-- What `account` forgets. -/
theorem Books.same {other : Account} (books : Books account fs) (ops : other.ops = account.ops) (refs : ∀ ip, other.refs ip = account.refs ip)
    (locks : ∀ ip, other.locks ip = account.locks ip) (files : other.files = account.files) (known : other.known ⊆ account.known) :
    Books other fs := by
  refine ⟨books.ops.trans ops.symm, fun ip => ?_, fun ip => ?_, files ▸ books.files, books.initialized, fun ip outside => ?_,
    fun ip inside => books.known ip (known inside), files ▸ books.pointers⟩
  · rw [books.ref, refs]
  · rw [books.locked, locks]
  · rw [refs, locks]
    exact books.past ip outside

namespace Neutral
variable {first second : M α}

theorem pure (value : α) : Neutral (pure value : M α) := fun _ _ books => (ensures_pure value).mpr books

theorem stop (reason : Exit) : Neutral (stop reason : M α) := fun _ _ _ => (ensures_stop reason).mpr trivial

theorem bind {next : α → M β} (head : Neutral first) (tail : ∀ value, Neutral (next value)) : Neutral (first >>= next) :=
  fun account _ books => Ensures.bind (head account _ books) fun value after books => tail value account after books

theorem get {next : FS → M α} (rest : ∀ fs, Neutral (next fs)) : Neutral (Exec.get >>= next) :=
  fun account fs books => ensures_bind.mpr (ensures_get.mpr (rest fs account fs books))

theorem ite {condition : Prop} [Decidable condition] (yes : Neutral first) (no : Neutral second) :
    Neutral (if condition then first else second) := by
  split
  · exact yes
  · exact no

theorem forRange {body : Nat → M Unit} (each : ∀ i, Neutral (body i)) (lo count : Nat) : Neutral (forRange lo count body) := by
  intro account fs books
  exact Ensures.forRange (fun _ => Books account) books fun i current _ _ books => each i account current books

theorem leaves {program : M α} (even : Neutral program) (books : Books account fs) : Leaves program fs fun _ => account := even account fs books

/-- A change outside of the books. -/
theorem modify {change : FS → FS} (ops : ∀ fs, (change fs).log.outstanding = fs.log.outstanding)
    (entries : ∀ fs ip, ((change fs).inode ip).ref = (fs.inode ip).ref ∧ ((change fs).inode ip).locked = (fs.inode ip).locked)
    (tables : ∀ fs, (change fs).ninode = fs.ninode ∧ (change fs).files = fs.files) : Neutral (modify change : M Unit) := by
  intro account fs books
  obtain ⟨size, files⟩ := tables fs
  refine (ensures_modify _).mpr ⟨(ops fs).trans books.ops, fun ip => ?_, fun ip => ?_, ?_, ?_, ?_, ?_, ?_⟩
  · exact (entries fs ip).1.trans (books.ref ip)
  · exact (entries fs ip).2.trans (books.locked ip)
  · rw [files]
    exact books.files
  · rw [size]
    exact books.initialized
  · rw [size]
    exact books.past
  · rw [size]
    exact books.known
  · rw [size]
    exact books.pointers

end Neutral

theorem note_neutral (event : Event) : Neutral (note event) := .modify (fun _ => rfl) (fun _ _ => ⟨rfl, rfl⟩) fun _ => ⟨rfl, rfl⟩

theorem modifyBmap_neutral (change : BmapCache → BmapCache) : Neutral (modifyBmap change) :=
  .modify (fun _ => rfl) (fun _ _ => ⟨rfl, rfl⟩) fun _ => ⟨rfl, rfl⟩

/-- Neither the references nor the lock. -/
theorem modifyInode_neutral {change : Inode → Inode} (ref : ∀ inode, (change inode).ref = inode.ref)
    (locked : ∀ inode, (change inode).locked = inode.locked) : Neutral (modifyInode ip change) := by
  refine .modify (fun _ => rfl) (fun fs other => ?_) fun _ => ⟨rfl, rfl⟩
  show (assign fs.inode ip (change (fs.inode ip)) other).ref = _ ∧ (assign fs.inode ip (change (fs.inode ip)) other).locked = _
  rw [assign_apply]
  split
  next here =>
    rw [here]
    exact ⟨ref _, locked _⟩
  next => exact ⟨rfl, rfl⟩

theorem modifyCopy_neutral (change : Dinode → Dinode) : Neutral (modifyCopy ip change) := modifyInode_neutral (fun _ => rfl) fun _ => rfl

theorem loggedRead_neutral (blockno : Nat) : Neutral (loggedRead blockno) := .get fun _ => .pure _

theorem getCurrentTimespec_neutral : Neutral getCurrentTimespec :=
  .get fun _ => .bind (.modify (fun _ => rfl) (fun _ _ => ⟨rfl, rfl⟩) fun _ => ⟨rfl, rfl⟩) fun _ => .pure _

theorem loggedUpdate_neutral (blockno : Nat) (change : Block → Block) : Neutral (loggedUpdate blockno change) := by
  refine .bind (.modify (fun _ => rfl) (fun _ _ => ⟨rfl, rfl⟩) fun _ => ⟨rfl, rfl⟩) fun _ => .get fun fs => .ite (.stop _) (.ite (.stop _) ?_)
  exact .bind (.modify (fun _ => Fslog.absorb_outstanding _ _) (fun _ _ => ⟨rfl, rfl⟩) fun _ => ⟨rfl, rfl⟩) fun _ => note_neutral _

theorem bmapBlockStatueSet_neutral (blockno i : Nat) : Neutral (bmapBlockStatueSet blockno i) :=
  .get fun _ => .ite (.stop _) (.bind (modifyBmap_neutral _) fun _ => loggedUpdate_neutral _ _)

theorem blockAllocUpdateCache_neutral (c j : Nat) : Neutral (blockAllocUpdateCache c j) := by
  refine .bind (modifyBmap_neutral _) fun _ => .get fun fs => .ite (.bind (modifyBmap_neutral _) fun _ => .get fun fs => ?_) ?_
  · split
    · exact modifyBmap_neutral _
    · exact .bind (modifyBmap_neutral _) fun _ => .stop _
  · dsimp only
    split
    · exact modifyBmap_neutral _
    · exact .pure _

theorem blockAlloc_neutral : Neutral blockAlloc := by
  refine .get fun fs => .ite (.stop _) (.bind (bmapBlockStatueSet_neutral _ _) fun _ => .bind (blockAllocUpdateCache_neutral _ _) fun _ => ?_)
  exact .bind (note_neutral _) fun _ => .bind (loggedUpdate_neutral _ _) fun _ => .pure _

theorem blockFree_neutral (blockno : Nat) : Neutral (blockFree blockno) :=
  .bind (bmapBlockStatueSet_neutral _ _) fun _ => .bind (modifyBmap_neutral _) fun _ => note_neutral _

theorem iupdate_neutral : Neutral (iupdate ip) :=
  .bind getCurrentTimespec_neutral fun _ => .bind (modifyCopy_neutral _) fun _ => .get fun _ => loggedUpdate_neutral _ _

theorem addrsFindOrAlloc_neutral (slot : Nat) : Neutral (addrsFindOrAlloc ip slot) :=
  .get fun _ => .ite (.bind blockAlloc_neutral fun _ => .bind (modifyCopy_neutral _) fun _ => .pure _) (.pure _)

theorem indexFindOrAlloc_neutral (blockno index : Nat) : Neutral (indexFindOrAlloc blockno index) :=
  .bind (loggedRead_neutral _) fun _ => .ite (.bind blockAlloc_neutral fun _ => .bind (loggedUpdate_neutral _ _) fun _ => .pure _) (.pure _)

theorem assert_neutral (condition : Prop) [Decidable condition] : Neutral (assert condition) := .ite (.pure _) (.stop _)

theorem assertNoNeedToRestart_neutral : Neutral assertNoNeedToRestartOpInImap2blockno := .get fun _ => .ite (.stop _) (.pure _)

theorem imap2blockno_neutral (bn : Nat) : Neutral (imap2blockno ip bn) := by
  unfold imap2blockno
  refine .bind assertNoNeedToRestart_neutral fun _ => ?_
  dsimp only
  split
  · exact addrsFindOrAlloc_neutral bn
  split
  · exact .bind (addrsFindOrAlloc_neutral _) fun _ => indexFindOrAlloc_neutral _ _
  split
  · refine .bind (addrsFindOrAlloc_neutral _) fun _ => .bind (assert_neutral _) fun _ => ?_
    exact .bind (indexFindOrAlloc_neutral _ _) fun _ => indexFindOrAlloc_neutral _ _
  split
  · refine .bind (addrsFindOrAlloc_neutral _) fun _ => .bind (assert_neutral _) fun _ => ?_
    refine .bind (indexFindOrAlloc_neutral _ _) fun _ => .bind (assert_neutral _) fun _ => ?_
    exact .bind (indexFindOrAlloc_neutral _ _) fun _ => indexFindOrAlloc_neutral _ _
  · exact .stop _

theorem freeEntries_neutral : ∀ level blockno, Neutral (freeEntries level blockno)
  | 0, _ => .bind (loggedRead_neutral _) fun _ => .forRange (fun _ => .ite (blockFree_neutral _) (.pure _)) _ _
  | level + 1, _ => .bind (loggedRead_neutral _) fun _ =>
    .forRange (fun _ => .ite (.bind (freeEntries_neutral level _) fun _ => blockFree_neutral _) (.pure _)) _ _

theorem freeTree_neutral (slot level : Nat) : Neutral (freeTree ip slot level) :=
  .get fun _ => .ite (.bind (freeEntries_neutral level _) fun _ => blockFree_neutral _) (.pure _)

theorem itrunc_neutral : Neutral (itrunc ip) := by
  have direct (i : Nat) : Neutral (do
      let fs ← Exec.get
      let addr := (fs.inode ip).copy.addrs i
      if addr ≠ 0 then blockFree addr else pure ()) :=
    .get fun _ => .ite (blockFree_neutral _) (.pure _)
  refine .bind (.forRange direct _ _) fun _ => .bind (freeTree_neutral _ _) fun _ => .bind (freeTree_neutral _ _) fun _ => ?_
  exact .bind (freeTree_neutral _ _) fun _ => .bind (modifyCopy_neutral _) fun _ => iupdate_neutral

theorem writeBlock_neutral (bn offset : Nat) (data : List Byte) : Neutral (writeBlock ip bn offset data) :=
  .bind (imap2blockno_neutral bn) fun _ => loggedUpdate_neutral _ _

theorem readBlock_neutral (bn offset count : Nat) : Neutral (readBlock ip bn offset count) :=
  .bind (imap2blockno_neutral bn) fun _ => .bind (loggedRead_neutral _) fun _ => .pure _

theorem touch_neutral : Neutral (touch ip) := .bind getCurrentTimespec_neutral fun _ => modifyCopy_neutral _

/-- Between operations everything logged has been committed. -/
def AllCommitted (fs : FS) : Prop := fs.log.outstanding = 0 → fs.log.block = []

theorem beginOp_leaves (books : Books account fs) : Leaves beginOp fs fun _ => account.opened := by
  refine ensures_bind.mpr (ensures_get.mpr (ensures_ite.mpr ⟨fun _ => ?_, fun _ => (ensures_stop _).mpr trivial⟩))
  refine Ensures.bind ((ensures_modify _).mpr ?_) fun _ after books => (note_neutral _).leaves books
  exact ⟨congrArg (· + 1) books.ops, books.ref, books.locked, books.files, books.initialized, books.past, books.known, books.pointers⟩

theorem endOp_leaves (books : Books account fs) : Ensures endOp fs (fun _ after => Books account.ended after ∧ AllCommitted after) fun _ _ => True := by
  refine ensures_bind.mpr ((ensures_modify _).mpr ?_)
  have books : Books account.ended { fs with log := { fs.log with outstanding := fs.log.outstanding - 1 } } :=
    ⟨congrArg (· - 1) books.ops, books.ref, books.locked, books.files, books.initialized, books.past, books.known, books.pointers⟩
  generalize { fs with log := { fs.log with outstanding := fs.log.outstanding - 1 } } = current at books
  refine ensures_bind.mpr (ensures_get.mpr (ensures_ite.mpr ⟨fun _ => (ensures_stop _).mpr trivial, fun _ => ?_⟩))
  refine ensures_bind.mpr ((ensures_modify _).mpr (ensures_ite.mpr ⟨fun _ => ?_, fun more => ?_⟩))
  · refine commit_spec.mono (fun _ after same => ?_) fun _ _ _ => trivial
    rw [same]
    exact ⟨⟨books.ops, books.ref, books.locked, books.files, books.initialized, books.past, books.known, books.pointers⟩, fun _ => rfl⟩
  · refine (ensures_pure _).mpr ⟨⟨books.ops, books.ref, books.locked, books.files, books.initialized, books.past, books.known, books.pointers⟩, fun none => ?_⟩
    exact absurd none more

/-- A change of one entry, as the new account has it. -/
theorem modifyInode_leaves {change : Inode → Inode} {other : Account} (books : Books account fs)
    (ref : (change (fs.inode ip)).ref = other.refs ip) (locked : (change (fs.inode ip)).locked = other.locks ip)
    (same : (other.ops = account.ops ∧ other.files = account.files) ∧ ∀ entry, entry ≠ ip → other.refs entry = account.refs entry ∧ other.locks entry = account.locks entry)
    (past : fs.ninode ≤ ip → other.refs ip = 0 ∧ other.locks ip = false) (known : ∀ entry ∈ other.known, entry < fs.ninode) :
    Leaves (modifyInode ip change) fs fun _ => other := by
  refine (ensures_modify _).mpr ⟨books.ops.trans same.1.1.symm, fun entry => ?_, fun entry => ?_, same.1.2 ▸ books.files, books.initialized,
    fun entry outside => ?_, known, same.1.2 ▸ books.pointers⟩
  · show (assign fs.inode ip (change (fs.inode ip)) entry).ref = _
    rw [assign_apply]
    split
    next here => rw [here, ref]
    next apart => rw [(same.2 entry apart).1, books.ref]
  · show (assign fs.inode ip (change (fs.inode ip)) entry).locked = _
    rw [assign_apply]
    split
    next here => rw [here, locked]
    next apart => rw [(same.2 entry apart).2, books.locked]
  · by_cases here : entry = ip
    · rw [here] at outside ⊢
      exact past outside
    · rw [(same.2 entry here).1, (same.2 entry here).2]
      exact books.past entry outside

theorem Books.inside (books : Books account fs) (used : account.refs ip ≠ 0 ∨ account.locks ip = true) : ip < fs.ninode := by
  by_contra outside
  obtain ⟨none, free⟩ := books.past ip (Nat.not_lt.mp outside)
  cases used with
  | inl refs => exact refs none
  | inr locked => rw [free] at locked; cases locked

/-- The entry is locked, having been free. -/
theorem ilock_leaves (books : Books account fs) (ip : Nat) :
    Ensures (ilock ip) fs (fun _ after => Books (account.lock ip) after ∧ account.locks ip = false) fun _ _ => True := by
  refine ensures_bind.mpr (ensures_get.mpr (ensures_ite.mpr ⟨fun _ => (ensures_stop _).mpr trivial, fun used => ?_⟩))
  refine ensures_ite.mpr ⟨fun _ => (ensures_stop _).mpr trivial, fun free => ?_⟩
  have unlocked : account.locks ip = false := by
    rw [← books.locked, ← Bool.not_eq_true]
    exact free
  have referenced : account.refs ip ≠ 0 := by
    rw [← books.ref]
    omega
  have inside := books.inside (.inl referenced)
  have taken : Leaves (modifyInode ip fun inode => { inode with locked := true }) fs fun _ => account.lock ip := by
    refine modifyInode_leaves books (books.ref ip) (assign_self _ _ _).symm ⟨⟨rfl, rfl⟩, fun entry apart => ⟨rfl, assign_of_ne apart _ _⟩⟩
      (fun outside => absurd inside (Nat.not_lt.mpr outside)) books.known
  refine Ensures.bind taken fun _ current books => ensures_ite.mpr ⟨fun _ => (ensures_pure _).mpr ⟨books, unlocked⟩, fun _ => ?_⟩
  refine Ensures.bind ((loggedRead_neutral _).leaves books) fun _ _ books => ?_
  have read : Neutral (modifyInode ip fun inode => { inode with copy := fs.dinode inode.inum, valid := true }) :=
    modifyInode_neutral (fun _ => rfl) fun _ => rfl
  refine Ensures.bind (read.leaves books) fun _ _ books => ?_
  refine ensures_ite.mpr ⟨fun _ => (ensures_stop _).mpr trivial, fun _ => ensures_ite.mpr ⟨fun _ => (ensures_stop _).mpr trivial, fun _ => ?_⟩⟩
  exact (ensures_pure _).mpr ⟨books, unlocked⟩

theorem iunlock_leaves (books : Books account fs) (ip : Nat) : Leaves (iunlock ip) fs fun _ => account.unlock ip := by
  refine modifyInode_leaves books (books.ref ip) (assign_self _ _ _).symm ⟨⟨rfl, rfl⟩, fun entry apart => ⟨rfl, assign_of_ne apart _ _⟩⟩
    (fun outside => ⟨(books.past ip outside).1, assign_self _ _ _⟩) books.known

theorem modifyRef_leaves {change : Inode → Inode} (books : Books account fs) (inside : ip < fs.ninode)
    (ref : (change (fs.inode ip)).ref = account.refs ip + 1) (locked : (change (fs.inode ip)).locked = (fs.inode ip).locked) :
    Leaves (modifyInode ip change) fs fun _ => account.hold ip := by
  refine modifyInode_leaves books ?_ (locked.trans (books.locked ip)) ⟨⟨rfl, rfl⟩, fun entry apart => ⟨?_, rfl⟩⟩
    (fun outside => absurd inside (Nat.not_lt.mpr outside)) fun entry known => ?_
  · rw [ref, Account.hold_refs, if_pos rfl]
  · rw [Account.hold_refs, if_neg apart, Int.add_zero]
  · cases Set.mem_insert_iff.mp known with
    | inl here => exact here ▸ inside
    | inr before => exact books.known entry before

theorem igetClaim_leaves (books : Books account fs) (free : account.refs ip = 0) (inside : ip < fs.ninode) (inum : Nat) :
    Leaves (igetClaim ip inum) fs fun ip => account.hold ip := by
  have claimed : Leaves (modifyInode ip fun inode => { inode with inum, ref := 1, valid := false }) fs fun _ => account.hold ip :=
    modifyRef_leaves books inside (by rw [free]; rfl) rfl
  exact Ensures.bind claimed fun _ _ books => (ensures_pure _).mpr books

theorem itableGrow_leaves (books : Books account fs) :
    Ensures itableGrow fs (fun _ after => Books account after ∧ fs.ninode < after.ninode) fun _ _ => True := by
  have initialized := books.initialized
  refine (ensures_modify _).mpr ⟨⟨books.ops, fun ip => ?_, fun ip => ?_, books.files, Nat.mul_pos initialized (by decide), fun ip outside => ?_, fun ip known => ?_, fun f ip file => ?_⟩, ?_⟩
  · dsimp only
    split
    next new => exact (books.past ip new.1).1.symm
    next => exact books.ref ip
  · dsimp only
    split
    next new => exact (books.past ip new.1).2.symm
    next => exact books.locked ip
  · have outside : fs.ninode * 2 ≤ ip := outside
    exact books.past ip (by omega)
  · have inside := books.known ip known
    show ip < fs.ninode * 2
    omega
  · have inside := books.pointers f ip file
    show ip < fs.ninode * 2
    omega
  · show fs.ninode < fs.ninode * 2
    omega

/-- The entry given out is held once more. -/
theorem iget_leaves (books : Books account fs) (inum : Nat) : Leaves (iget inum) fs fun ip => account.hold ip := by
  refine ensures_bind.mpr (ensures_get.mpr ?_)
  split
  next ip found =>
    have inside : ip < fs.ninode := List.mem_range.mp (List.mem_of_find?_eq_some found)
    have counted : Leaves (modifyInode ip fun inode => { inode with ref := inode.ref + 1 }) fs fun _ => account.hold ip :=
      modifyRef_leaves books inside (congrArg (· + 1) (books.ref ip)) rfl
    exact Ensures.bind counted fun _ _ books => (ensures_pure _).mpr books
  next =>
    split
    next ip empty =>
      have holds := List.find?_some empty
      have free : (fs.inode ip).ref = 0 := of_decide_eq_true holds
      exact igetClaim_leaves books ((books.ref ip).symm.trans free) (List.mem_range.mp (List.mem_of_find?_eq_some empty)) inum
    next =>
      refine Ensures.bind (itableGrow_leaves books) fun _ grown step => ?_
      exact igetClaim_leaves step.1 (books.past fs.ninode (Nat.le_refl _)).1 step.2 inum

theorem iput_leaves (books : Books account fs) (existing : ip ∈ account.known) : Leaves (iput ip) fs fun _ => account.drop ip := by
  have dropped : ∀ {current : FS}, Books account current →
      Leaves (modifyInode ip fun inode => { inode with ref := inode.ref - 1 }) current fun _ => account.drop ip := by
    intro current books
    refine modifyInode_leaves books ?_ (books.locked ip) ⟨⟨rfl, rfl⟩, fun entry apart => ⟨?_, rfl⟩⟩
      (fun outside => absurd (books.known ip existing) (Nat.not_lt.mpr outside)) books.known
    · rw [Account.drop_refs, if_pos rfl, ← books.ref]
    · rw [Account.drop_refs, if_neg apart, Int.sub_zero]
  unfold iput
  refine ensures_bind.mpr (ensures_get.mpr ?_)
  dsimp only
  split
  · refine ensures_ite.mpr ⟨fun _ => (ensures_stop _).mpr trivial, fun _ => ?_⟩
    refine Ensures.bind (itrunc_neutral.leaves books) fun _ _ books => ?_
    refine Ensures.bind ((modifyCopy_neutral _).leaves books) fun _ _ books => Ensures.bind (iupdate_neutral.leaves books) fun _ _ books => ?_
    have invalidated : Neutral (modifyInode ip fun inode => { inode with valid := false }) := modifyInode_neutral (fun _ => rfl) fun _ => rfl
    exact Ensures.bind (invalidated.leaves books) fun _ _ books => dropped books
  · exact dropped books

theorem iunlockput_leaves (books : Books account fs) (existing : ip ∈ account.known) :
    Leaves (iunlockput ip) fs fun _ => (account.unlock ip).drop ip :=
  Ensures.bind (iunlock_leaves books ip) fun _ _ books => iput_leaves books existing

/-! Functions that restart the operation of an inode: they leave it locked, or as it was. -/

theorem Account.lock_locked {account : Account} (locked : account.locks ip = true) : account.lock ip = account := by
  have same : assign account.locks ip true = account.locks := by
    rw [← locked]
    exact assign_eq_self ip account.locks
  rw [Account.lock, same]

theorem Account.lock_unlock_lock (account : Account) (ip : Nat) : (account.unlock ip).lock ip = account.lock ip := by
  have same : assign (assign account.locks ip false) ip true = assign account.locks ip true := by
    funext other
    by_cases here : other = ip
    · rw [here, assign_self, assign_self]
    · rw [assign_of_ne here, assign_of_ne here, assign_of_ne here]
  rw [Account.lock, Account.unlock, Account.lock, same]

theorem Account.lock_lock (account : Account) (ip : Nat) : (account.lock ip).lock ip = account.lock ip :=
  Account.lock_locked (assign_self _ _ _)

/-- The account is as before, or has the inode locked as well: a restart locks what it was given. -/
def Loose (ip : Nat) (program : M α) : Prop := ∀ (account : Account) (fs : FS), Books account fs →
  Ensures program fs (fun _ after => Books account after ∨ Books (account.lock ip) after) fun _ _ => True

namespace Loose

theorem bind {first : M α} {next : α → M β} (head : Loose ip first) (tail : ∀ value, Loose ip (next value)) : Loose ip (first >>= next) := by
  intro account fs books
  refine Ensures.bind (head account fs books) fun value after either => ?_
  cases either with
  | inl same => exact tail value account after same
  | inr locked =>
    refine (tail value _ after locked).weaken fun _ _ either => .inr ?_
    rw [Account.lock_lock] at either
    exact either.elim id id

theorem get {next : FS → M α} (rest : ∀ fs, Loose ip (next fs)) : Loose ip (Exec.get >>= next) :=
  fun account fs books => ensures_bind.mpr (ensures_get.mpr (rest fs account fs books))

theorem ite {condition : Prop} [Decidable condition] {first second : M α} (yes : Loose ip first) (no : Loose ip second) :
    Loose ip (if condition then first else second) := by
  split
  · exact yes
  · exact no

/-- For an inode that is locked already nothing is left open. -/
theorem locked {program : M α} (loose : Loose ip program) (books : Books account fs) (locked : account.locks ip = true) :
    Leaves program fs fun _ => account := by
  refine (loose account fs books).weaken fun _ _ either => ?_
  rw [Account.lock_locked locked] at either
  exact either.elim id id

end Loose

theorem Neutral.loose {program : M α} (even : Neutral program) : Loose ip program := fun account fs books =>
  (even account fs books).weaken fun _ _ => .inl

theorem restartOpOn_loose (nwrote : Nat) : Loose ip (restartOpOn ip nwrote) := by
  refine .get fun _ => .ite (.bind iupdate_neutral.loose fun _ => ?_) (Neutral.pure _).loose
  intro account fs books
  refine Ensures.bind (iunlock_leaves books ip) fun _ _ books => Ensures.bind (endOp_leaves books) fun _ _ books => ?_
  refine Ensures.bind (beginOp_leaves books.1) fun _ _ books => (ilock_leaves books ip).weaken fun _ _ books => .inr ?_
  have back := books.1
  rw [Account.ended_opened, Account.lock_unlock_lock] at back
  exact back

theorem writeBlocks_loose (data : List Byte) (bn : Nat) : Loose ip (writeBlocks ip data bn) := by
  unfold writeBlocks
  split
  next more =>
    refine .bind (restartOpOn_loose _) fun _ => .bind (writeBlock_neutral _ _ _).loose fun _ => ?_
    exact writeBlocks_loose (data.drop BSIZE) (bn + 1)
  next => exact (Neutral.pure _).loose
  termination_by data.length
  decreasing_by
    rename_i more
    simp only [BSIZE, List.length_drop] at more ⊢
    omega

theorem inodeWriteNbytesLocked_loose (data : List Byte) (off : Nat) : Loose ip (inodeWriteNbytesLocked ip data off) := by
  unfold inodeWriteNbytesLocked
  apply Loose.ite (Neutral.pure _).loose
  dsimp only
  refine .bind (modifyCopy_neutral _).loose fun _ => .bind iupdate_neutral.loose fun _ => ?_
  refine .bind (restartOpOn_loose _) fun _ => .bind (writeBlock_neutral _ _ _).loose fun _ => ?_
  have finish (nbytes : Nat) : Loose ip (do touch ip; iupdate ip; pure nbytes) :=
    .bind touch_neutral.loose fun _ => .bind iupdate_neutral.loose fun _ => (Neutral.pure _).loose
  apply Loose.ite (finish _)
  refine .bind (writeBlocks_loose _ _) fun left => .bind (restartOpOn_loose _) fun _ => ?_
  split
  · exact .bind (writeBlock_neutral _ _ _).loose fun _ => finish _
  · exact finish _

theorem readBlocks_loose (nbytes bn : Nat) : Loose ip (readBlocks ip nbytes bn) := by
  unfold readBlocks
  split
  next more =>
    refine .bind (restartOpOn_loose _) fun _ => .bind (readBlock_neutral _ _ _).loose fun _ => ?_
    exact .bind (readBlocks_loose (nbytes - BSIZE) (bn + 1)) fun _ => (Neutral.pure _).loose
  split
  · exact .bind (restartOpOn_loose _) fun _ => (readBlock_neutral _ _ _).loose
  · exact (Neutral.pure _).loose
  termination_by nbytes
  decreasing_by
    rename_i more
    simp only [BSIZE] at more ⊢
    omega

theorem inodeReadNbytesLocked_loose (nbytes off : Nat) : Loose ip (inodeReadNbytesLocked ip nbytes off) := by
  unfold inodeReadNbytesLocked
  refine .get fun fs => ?_
  dsimp only
  refine .ite (Neutral.pure _).loose (.bind (readBlock_neutral _ _ _).loose fun head => .ite ?_ ?_)
  · refine .bind getCurrentTimespec_neutral.loose fun _ => .bind (modifyCopy_neutral _).loose fun _ => ?_
    exact .bind iupdate_neutral.loose fun _ => (Neutral.pure _).loose
  · refine .bind (readBlocks_loose _ _) fun rest => .bind iupdate_neutral.loose fun _ => ?_
    exact .bind getCurrentTimespec_neutral.loose fun _ => .bind (modifyCopy_neutral _).loose fun _ => (Neutral.pure _).loose

theorem restartHelper_neutral : Neutral (itrunc2sizeLogOpRestartHelper ip) := by
  refine .get fun _ => .ite (.bind (note_neutral _) fun _ => ?_) (.pure _)
  intro account fs books
  refine Ensures.bind (endOp_leaves books) fun _ _ books => (beginOp_leaves books.1).weaken fun _ _ books => ?_
  rw [Account.ended_opened] at books
  exact books

theorem addrsFreeSafe_neutral (slot : Nat) : Neutral (addrsFreeSafe ip slot) :=
  .get fun _ => .ite (.bind restartHelper_neutral fun _ => .bind (blockFree_neutral _) fun _ => modifyCopy_neutral _) (.pure _)

theorem indexFreeSafe_neutral (blockno index : Nat) : Neutral (indexFreeSafe ip blockno index) :=
  .bind (loggedRead_neutral _) fun _ => .ite (.bind restartHelper_neutral fun _ => .bind (blockFree_neutral _) fun _ => loggedUpdate_neutral _ _) (.pure _)

theorem indexFollow_neutral (blockno index : Nat) {rest : Nat → M Unit} (follows : ∀ addr, Neutral (rest addr)) :
    Neutral (indexFollow blockno index rest) := .bind (loggedRead_neutral _) fun _ => .ite (.pure _) (follows _)

theorem imap2blocknoFree_neutral (bn : Nat) : Neutral (imap2blocknoFree ip bn) := by
  unfold imap2blocknoFree
  refine .bind assertNoNeedToRestart_neutral fun _ => ?_
  dsimp only
  split
  · exact addrsFreeSafe_neutral bn
  refine .get fun fs => ?_
  split
  · exact .ite (.pure _) (indexFreeSafe_neutral _ _)
  split
  · refine .bind (addrsFindOrAlloc_neutral _) fun addr => .bind (assert_neutral _) fun _ => ?_
    exact indexFollow_neutral _ _ fun addr => indexFreeSafe_neutral _ _
  split
  · refine .ite (.pure _) (.bind (assert_neutral _) fun _ => indexFollow_neutral _ _ fun addr => ?_)
    exact .bind (assert_neutral _) fun _ => indexFollow_neutral _ _ fun addr => indexFreeSafe_neutral _ _
  · exact .stop _

theorem itrunc2size_neutral (size : Nat) : Neutral (itrunc2size ip size) := by
  have finish : Neutral (do modifyCopy ip fun copy => { copy with size }; iupdate ip) :=
    .bind (modifyCopy_neutral _) fun _ => iupdate_neutral
  have grow (i : Nat) : Neutral (do itrunc2sizeLogOpRestartHelper ip; let _ ← imap2blockno ip i) :=
    .bind restartHelper_neutral fun _ => .bind (imap2blockno_neutral i) fun _ => .pure _
  have cut (i : Nat) : Neutral (do itrunc2sizeLogOpRestartHelper ip; imap2blocknoFree ip i) :=
    .bind restartHelper_neutral fun _ => imap2blocknoFree_neutral i
  unfold itrunc2size
  refine .get fun fs => .ite finish ?_
  dsimp only
  split
  · refine .bind itrunc_neutral fun _ => .get fun fs => .ite ?_ ?_
    · exact .bind (.forRange grow _ _) fun _ => finish
    · exact .bind (.forRange cut _ _) fun _ => finish
  · refine .get fun fs => .ite ?_ ?_
    · exact .bind (.forRange grow _ _) fun _ => finish
    · exact .bind (.forRange cut _ _) fun _ => finish

end FS
end Myfuse
