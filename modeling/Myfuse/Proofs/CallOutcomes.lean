import Myfuse.Proofs.CallBalance
import Myfuse.Proofs.RecycledCalls

/-! What each call of `file.c` leaves on the books. Where a call can leave something
open, its start is a program of its own, whose result decides. -/

namespace Myfuse
open Library Library.Exec

namespace FS
variable {fs : FS} {account : Account} {ip dp : Nat}

/-- The account after a call that has ended its operation. -/
def Closed (account : Account) (after : FS) : Prop := Books account after ∧ AllCommitted after

theorem statInum_neutral (inum : Nat) : Neutral (statInum inum) := by
  intro account fs books
  refine Ensures.bind (iget_leaves books inum) fun ip _ books => Ensures.bind (ilock_leaves books ip) fun _ _ locked => ?_
  obtain ⟨books, free⟩ := locked
  refine ensures_bind.mpr (ensures_get.mpr (Ensures.bind (iunlockput_back books free) fun _ _ books => ?_))
  exact (ensures_pure _).mpr books

theorem getattr_closed (books : Books account fs) (path : List Byte) :
    Ensures (myfuseGetattr path) fs (fun _ => Closed account) fun _ _ => True := by
  refine Ensures.bind (beginOp_leaves books) fun _ _ books => Ensures.bind (path2inode_leaves books path) fun found _ books => ?_
  cases found with
  | none => exact Ensures.bind (endOp_closes books) fun _ _ closed => (ensures_pure _).mpr closed
  | some ip =>
    refine Ensures.bind (ilock_leaves books ip) fun _ _ locked => ensures_bind.mpr (ensures_get.mpr ?_)
    refine Ensures.bind (iunlockput_back locked.1 locked.2) fun _ _ books => ?_
    exact Ensures.bind (endOp_closes books) fun _ _ closed => (ensures_pure _).mpr closed

theorem readdirFrom_neutral (dp : Nat) (data : List Byte) (full : List (Name × Stat) → Name × Stat → Bool) :
    ∀ count off filled, Neutral (readdirFrom dp data full count off filled)
  | 0, _, _ => .pure _
  | count + 1, off, filled => by
    unfold readdirFrom
    refine .ite (.stop _) ?_
    dsimp only
    refine .ite (readdirFrom_neutral dp data full count _ filled) ?_
    split
    · exact .stop _
    · have step (st : Int × Stat) (name : Name) : Neutral (
          if st.1 = 0 then
            if full filled (name, st.2) then pure (filled ++ [(name, st.2)])
            else readdirFrom dp data full count (off + direntSize) (filled ++ [(name, st.2)])
          else readdirFrom dp data full count (off + direntSize) filled) :=
        .ite (.ite (.pure _) (readdirFrom_neutral dp data full count _ _)) (readdirFrom_neutral dp data full count _ _)
      refine .get fun fs => ?_
      split
      · exact .bind (statInum_neutral _) fun st => step st _
      · exact .bind (.pure _) fun st => step st _

/-- A call that has nothing to do leaves the state as it is. -/
theorem readdir_closed (books : Books account fs) (full : List (Name × Stat) → Name × Stat → Bool) (fi : Option FuseFileInfo) :
    Ensures (myfuseReaddir full fi) fs (fun _ after => after = fs ∨ Closed account after) fun _ _ => True := by
  cases fi with
  | none => exact (ensures_pure _).mpr (.inl rfl)
  | some fi =>
    unfold myfuseReaddir
    refine Ensures.bind (beginOp_leaves books) fun _ _ books => ?_
    split
    · exact (ensures_stop _).mpr trivial
    refine ensures_bind.mpr (ensures_get.mpr ?_)
    split
    · exact Ensures.bind (endOp_closes books) fun _ _ closed => (ensures_pure _).mpr (.inr closed)
    next dp _ =>
      refine Ensures.bind (ilock_leaves books dp) fun _ _ locked => ensures_bind.mpr (ensures_get.mpr ?_)
      obtain ⟨books, free⟩ := locked
      refine Ensures.bind ((inodeReadNbytesLocked_loose _ _).locked books (Account.lock_locks _ _)) fun data _ books => ?_
      refine ensures_ite.mpr ⟨fun _ => (ensures_stop _).mpr trivial, fun _ => ?_⟩
      refine Ensures.bind ((readdirFrom_neutral dp data full _ _ _).leaves books) fun _ _ books => ?_
      refine Ensures.bind (iunlock_back books free) fun _ _ books => Ensures.bind (endOp_closes books) fun _ _ closed => ?_
      exact (ensures_pure _).mpr (.inr closed)

/-- An operation on one locked inode. -/
theorem unlocked_closed {α : Type} {program : M α} (loose : Loose ip program) (books : Books account fs) :
    Ensures (do beginOp; ilock ip; let value ← program; iunlock ip; endOp; pure value) fs (fun _ => Closed account) fun _ _ => True := by
  refine Ensures.bind (beginOp_leaves books) fun _ _ books => Ensures.bind (ilock_leaves books ip) fun _ _ locked => ?_
  obtain ⟨books, free⟩ := locked
  refine Ensures.bind (loose.locked books (Account.lock_locks _ _)) fun _ _ books => ?_
  refine Ensures.bind (iunlock_back books free) fun _ _ books => Ensures.bind (endOp_closes books) fun _ _ closed => ?_
  exact (ensures_pure _).mpr closed

theorem handleInode_unchanged (fi : FuseFileInfo) : Ensures (handleInode fi) fs (fun _ after => after = fs) fun _ _ => True := by
  unfold handleInode
  cases fi.fh with
  | none => exact (ensures_stop _).mpr trivial
  | some file => exact ensures_bind.mpr (ensures_get.mpr ((ensures_pure _).mpr rfl))

theorem beginOp_stop {reason : Exit} {α : Type} {ok : α → FS → Prop} (books : Books account fs) :
    Ensures (do beginOp; stop reason) fs ok fun _ _ => True :=
  Ensures.bind (beginOp_leaves books) fun _ _ _ => (ensures_stop _).mpr trivial

theorem read_closed (books : Books account fs) (size offset : Nat) (fi : FuseFileInfo) :
    Ensures (myfuseRead size offset fi) fs (fun _ => Closed account) fun _ _ => True := by
  refine Ensures.bind (handleInode_unchanged fi) fun found _ same => ?_
  subst same
  cases found with
  | none => exact beginOp_stop books
  | some ip => exact Ensures.bind (unlocked_closed (inodeReadNbytesLocked_loose _ _) books) fun _ _ closed => (ensures_pure _).mpr closed

theorem write_closed (books : Books account fs) (data : List Byte) (offset : Nat) (fi : FuseFileInfo) :
    Ensures (myfuseWrite data offset fi) fs (fun _ => Closed account) fun _ _ => True := by
  refine Ensures.bind (handleInode_unchanged fi) fun found _ same => ?_
  subst same
  cases found with
  | none => exact beginOp_stop books
  | some ip => exact Ensures.bind (unlocked_closed (inodeWriteNbytesLocked_loose _ _) books) fun _ _ closed => (ensures_pure _).mpr closed

/-- The books after a call that gives out a handle when it succeeds. -/
def HandleGiven (account : Account) (value : Int × FuseFileInfo) (after : FS) : Prop :=
  AllCommitted after ∧ (value.1 ≠ 0 ∧ Books account after ∨ value.1 = 0 ∧ ∃ ip file, value.2.fh = some file ∧ Handed account ip file after)

theorem opendir_given (books : Books account fs) (path : List Byte) (fi : FuseFileInfo) :
    Ensures (myfuseOpendir path fi) fs (HandleGiven account) fun _ _ => True := by
  refine Ensures.bind (beginOp_leaves books) fun _ _ books => Ensures.bind (path2inode_leaves books path) fun found _ books => ?_
  have refused : -ENOENT ≠ 0 ∧ -ENOTDIR ≠ 0 := by decide
  cases found with
  | none => exact Ensures.bind (endOp_closes books) fun _ _ closed => (ensures_pure _).mpr ⟨closed.2, .inl ⟨refused.1, closed.1⟩⟩
  | some dir_inode =>
    refine Ensures.bind (ilock_leaves books dir_inode) fun _ _ locked => ensures_bind.mpr (ensures_get.mpr ?_)
    obtain ⟨books, free⟩ := locked
    refine ensures_ite.mpr ⟨fun _ => ?_, fun _ => ?_⟩
    · refine Ensures.bind (iunlockput_back books free) fun _ _ books => Ensures.bind (endOp_closes books) fun _ _ closed => ?_
      exact (ensures_pure _).mpr ⟨closed.2, .inl ⟨refused.2, closed.1⟩⟩
    · refine Ensures.bind (filealloc_leaves books) fun file _ found => ?_
      obtain ⟨files, books⟩ := found
      refine Ensures.bind (point_leaves books (Set.mem_insert dir_inode _) file) fun _ _ pointed => ?_
      obtain ⟨files, pointer, books⟩ := pointed
      have books : Books (({ account.hold dir_inode with files } : Account).opened.lock dir_inode) _ := books
      refine Ensures.bind (iunlock_back books free) fun _ _ books => Ensures.bind (endOp_closes books) fun _ _ closed => ?_
      exact (ensures_pure _).mpr ⟨closed.2, .inr ⟨rfl, dir_inode, file, rfl, files, pointer, closed.1⟩⟩

/-! Calls that start with one walk. -/

/-- The walk of a call finds nothing. -/
def FindsNothing (path : List Byte) (fs : FS) : Prop := ∃ after, walkPath path fs = (.ok none, after)

theorem not_findsNothing {path : List Byte} {after : FS} (walked : walkPath path fs = (.ok (some ip), after)) : ¬ FindsNothing path fs := by
  rintro ⟨_, again⟩
  rw [walked] at again
  cases again

theorem walkPath_bind {α : Type} {path : List Byte} {next : Option Nat → M α} {ok : α → FS → Prop} (books : Books account fs)
    (rest : ∀ found middle, walkPath path fs = (.ok found, middle) → Books (account.opened.holdPtr found) middle →
      Ensures (next found) middle ok fun _ _ => True) :
    Ensures (do beginOp; let found ← path2inode path; next found) fs ok fun _ _ => True := by
  have walk : Ensures (walkPath path) fs (fun found after => Books (account.opened.holdPtr found) after) fun _ _ => True :=
    Ensures.bind (beginOp_leaves books) fun _ _ books => path2inode_leaves books path
  have split : (do beginOp; let found ← path2inode path; next found) = walkPath path >>= next := by
    rw [walkPath, bind_assoc]
  rw [split]
  exact Ensures.bind walk.ran fun found middle reached => rest found middle reached.2 reached.1

theorem access_outcome (books : Books account fs) (path : List Byte) :
    Ensures (myfuseAccess path) fs
      (fun _ after => FindsNothing path fs ∧ Books account.opened after ∨ ¬ FindsNothing path fs ∧ Closed account after) fun _ _ => True := by
  refine walkPath_bind books fun found middle walked books => ?_
  cases found with
  | none => exact (ensures_pure _).mpr (.inl ⟨⟨middle, walked⟩, books⟩)
  | some ip =>
    refine Ensures.bind (iput_back books) fun _ _ books => Ensures.bind (endOp_closes books) fun _ _ closed => ?_
    exact (ensures_pure _).mpr (.inr ⟨not_findsNothing walked, closed⟩)

theorem chmod_outcome (books : Books account fs) (path : List Byte) (mode : Nat) :
    Ensures (myfuseChmod path mode) fs
      (fun _ after => FindsNothing path fs ∧ Books account.opened after ∨ ¬ FindsNothing path fs ∧ Closed account after) fun _ _ => True := by
  refine walkPath_bind books fun found middle walked books => ?_
  cases found with
  | none => exact (ensures_pure _).mpr (.inl ⟨⟨middle, walked⟩, books⟩)
  | some ip =>
    refine Ensures.bind (ilock_leaves books ip) fun _ _ locked => ?_
    obtain ⟨books, free⟩ := locked
    refine Ensures.bind ((modifyCopy_neutral _).leaves books) fun _ _ books => Ensures.bind (iupdate_neutral.leaves books) fun _ _ books => ?_
    refine Ensures.bind (iunlockput_back books free) fun _ _ books => Ensures.bind (endOp_closes books) fun _ _ closed => ?_
    exact (ensures_pure _).mpr (.inr ⟨not_findsNothing walked, closed⟩)

/-- A directory keeps the reference of the walk. -/
theorem truncate_outcome (books : Books account fs) (path : List Byte) (size : Nat) :
    Ensures (myfuseTruncate path size) fs
      (fun _ after => SeesDirectory fs path ∧ (∃ ip, Closed (account.hold ip) after) ∨ ¬ SeesDirectory fs path ∧ Closed account after)
      fun _ _ => True := by
  refine walkPath_bind books fun found middle walked books => ?_
  cases found with
  | none =>
    refine Ensures.bind (endOp_closes books) fun _ _ closed => (ensures_pure _).mpr (.inr ⟨?_, closed⟩)
    rintro ⟨ip, after, again, -⟩
    rw [walked] at again
    cases again
  | some ip =>
    refine ensures_bind.mpr (ensures_get.mpr (ensures_ite.mpr ⟨fun directory => ?_, fun other => ?_⟩))
    · have books : Books (account.hold ip).opened middle := books
      exact Ensures.bind (endOp_closes books) fun _ _ closed => (ensures_pure _).mpr (.inl ⟨(sees_iff walked).mpr directory, ip, closed⟩)
    · refine Ensures.bind (ilock_leaves books ip) fun _ _ locked => ?_
      obtain ⟨books, free⟩ := locked
      refine Ensures.bind ((itrunc2size_neutral size).leaves books) fun _ _ books => ?_
      refine Ensures.bind (iunlockput_back books free) fun _ _ books => Ensures.bind (endOp_closes books) fun _ _ closed => ?_
      exact (ensures_pure _).mpr (.inr ⟨fun sees => other ((sees_iff walked).mp sees), closed⟩)

theorem Books.hold_swap {first second : Nat} (books : Books ((account.hold first).hold second) fs) : Books ((account.hold second).hold first) fs := by
  refine books.same rfl (fun other => ?_) (fun _ => rfl) rfl (Set.insert_comm _ _ _).subset
  rw [Account.hold_refs, Account.hold_refs, Account.hold_refs, Account.hold_refs]
  omega

theorem openHandle_given (books : Books ((account.opened.hold ip).lock ip) fs) (free : account.locks ip = false) (flags : Nat) (fi : FuseFileInfo) :
    Ensures (do let file ← openHandle ip flags; pure ((0 : Int), { fi with fh := some file })) fs (HandleGiven account) fun _ _ => True :=
  Ensures.bind (openHandle_leaves books free flags) fun file _ handed => (ensures_pure _).mpr ⟨handed.2, .inr ⟨rfl, ip, file, rfl, handed.1⟩⟩

theorem open_outcome (books : Books account fs) (path : List Byte) (fi : FuseFileInfo) :
    Ensures (myfuseOpen path fi) fs
      (fun value after => (FindsNothing path fs ∧ fi.flags &&& O_CREAT = 0) ∧ value.1 ≠ 0 ∧ Books account.opened after ∨
        ¬ (FindsNothing path fs ∧ fi.flags &&& O_CREAT = 0) ∧ HandleGiven account value after) fun _ _ => True := by
  have refused : -ENOENT ≠ 0 := by decide
  refine walkPath_bind books fun found middle walked books => ?_
  cases found with
  | some ip =>
    refine Ensures.bind (ilock_leaves books ip) fun _ _ locked => ?_
    exact (openHandle_given locked.1 locked.2 fi.flags fi).weaken fun _ _ given => .inr ⟨fun missed => not_findsNothing walked missed.1, given⟩
  | none =>
    refine ensures_ite.mpr ⟨fun plain => (ensures_pure _).mpr (.inl ⟨⟨⟨middle, walked⟩, plain⟩, refused, books⟩), fun creates => ?_⟩
    refine Ensures.weaken (?_ : Ensures _ _ (HandleGiven account) _) fun _ _ given => .inr ⟨fun missed => creates missed.2, given⟩
    refine Ensures.bind (path2parentinode_leaves books path) fun parent _ books => ?_
    cases parent with
    | none => exact Ensures.bind (endOp_closes books) fun _ _ closed => (ensures_pure _).mpr ⟨closed.2, .inl ⟨refused, closed.1⟩⟩
    | some parent =>
      refine Ensures.bind (ialloc_leaves books _) fun file_inode _ books => ?_
      have books := books.hold_swap
      refine Ensures.bind ((modifyCopy_neutral _).leaves books) fun _ _ books => Ensures.bind (iupdate_neutral.leaves books) fun _ _ books => ?_
      refine Ensures.bind (ilock_leaves books parent.1) fun _ _ locked => ensures_bind.mpr (ensures_get.mpr ?_)
      obtain ⟨books, free⟩ := locked
      refine Ensures.bind ((dirlink_loose _ _).locked books (Account.lock_locks _ _)) fun _ _ books => ?_
      refine Ensures.bind (iunlockput_back books free) fun _ _ books => Ensures.bind (ilock_leaves books file_inode) fun _ _ locked => ?_
      exact openHandle_given locked.1 locked.2 _ _

theorem create_given (books : Books account fs) (path : List Byte) (mode : Nat) (fi : FuseFileInfo) :
    Ensures (myfuseCreate path mode fi) fs (HandleGiven account) fun _ _ => True := by
  have refused : -ENOENT ≠ 0 := by decide
  refine ensures_ite.mpr ⟨fun _ => (ensures_stop _).mpr trivial, fun _ => ?_⟩
  refine Ensures.bind (beginOp_leaves books) fun _ _ books => Ensures.bind (path2parentinode_leaves books path) fun parent _ books => ?_
  cases parent with
  | none => exact Ensures.bind (endOp_closes books) fun _ _ closed => (ensures_pure _).mpr ⟨closed.2, .inl ⟨refused, closed.1⟩⟩
  | some parent =>
    refine Ensures.bind (ialloc_leaves books _) fun file_inode _ books => ?_
    refine Ensures.bind (ilock_leaves books.hold_swap file_inode) fun _ _ locked => ?_
    obtain ⟨books, free⟩ := locked
    refine Ensures.bind ((modifyCopy_neutral _).leaves books) fun _ _ books => Ensures.bind (getCurrentTimespec_neutral.leaves books) fun _ _ books => ?_
    refine Ensures.bind ((modifyCopy_neutral _).leaves books) fun _ _ books => Ensures.bind (iupdate_neutral.leaves books) fun _ _ books => ?_
    refine Ensures.bind (ilock_leaves books parent.1) fun _ _ locked => ensures_bind.mpr (ensures_get.mpr ?_)
    obtain ⟨books, parent_free⟩ := locked
    refine Ensures.bind ((dirlink_loose _ _).locked books (Account.lock_locks _ _)) fun _ current books => ?_
    have books : Books ((((account.opened.hold file_inode).lock file_inode).hold parent.1).lock parent.1) current := books
    exact Ensures.bind (iunlockput_back books parent_free) fun _ _ books => openHandle_given books free _ _

/-- The inode whose reference a release gives back. -/
def givenBack (fs : FS) (fi : Option FuseFileInfo) : Option Nat :=
  (fi.bind FuseFileInfo.fh).bind fun f => if (fs.files f).ref = 1 then (fs.files f).ip else none

theorem release_outcome (books : Books account fs) (existing : ∀ f ip, account.files f = some ip → ip ∈ account.known) (fi : Option FuseFileInfo) :
    Ensures (myfuseRelease fi) fs
      (fun _ after => (AllCommitted fs → AllCommitted after) ∧ match givenBack fs fi with
        | none => Books account after
        | some ip => Books (account.drop ip) after) fun _ _ => True := by
  cases fi with
  | none => exact (ensures_pure _).mpr ⟨id, books⟩
  | some fi =>
    unfold myfuseRelease givenBack
    cases handle : fi.fh with
    | none =>
      simp only [Option.bind_some, handle, Option.bind_none]
      exact (ensures_pure _).mpr ⟨id, books⟩
    | some f =>
      simp only [Option.bind_some, handle]
      refine Ensures.bind (ensures_bind.mpr (ensures_get.mpr (ensures_ite.mpr ⟨fun _ => (ensures_stop _).mpr trivial, fun opened => ?_⟩)))
        fun _ _ left => (ensures_pure _).mpr left
      refine ensures_bind.mpr ((ensures_modify _).mpr ?_)
      have drops : Neutral (modifyFile f fun file => { file with ref := file.ref - 1 }) := modifyFile_neutral fun _ => rfl
      have counted := (ensures_modify _).mp (drops.leaves books)
      refine ensures_ite.mpr ⟨fun shared => ?_, fun last => ?_⟩
      · rw [if_neg (by omega)]
        exact (ensures_pure _).mpr ⟨id, counted⟩
      · rw [if_pos (by omega)]
        refine Ensures.bind (beginOp_leaves counted) fun _ _ books => ?_
        cases pointer : (fs.files f).ip with
        | none => exact ensures_bind.mpr ((ensures_stop _).mpr trivial)
        | some ip =>
          have held : ip ∈ account.known := existing f ip ((counted.files f).symm.trans ((congrArg File.ip (assign_self _ _ _)).trans pointer))
          refine Ensures.bind (iput_leaves books held) fun _ _ books => ?_
          have books : Books (account.drop ip).opened _ := books
          exact (endOp_closes books).weaken fun _ _ closed => ⟨fun _ => closed.2, closed.1⟩

/-! Calls that lock two inodes. -/

theorem Account.lock_swap (account : Account) (first second : Nat) : (account.lock first).lock second = (account.lock second).lock first := by
  have same : assign (assign account.locks first true) second true = assign (assign account.locks second true) first true := by
    funext other
    simp only [assign_apply]
    split
    · split <;> rfl
    · rfl
  rw [Account.lock, Account.lock, Account.lock, Account.lock, same]

theorem Account.lock_free {first second : Nat} : (account.lock first).locks second = false ↔ second ≠ first ∧ account.locks second = false := by
  show assign account.locks first true second = false ↔ _
  rw [assign_apply]
  split
  next same => simp [same]
  next apart => simp [apart]

theorem clearDirent_leaves (books : Books account fs) (locked : account.locks dp = true) (name : Name) :
    Leaves (clearDirent dp name) fs fun found => account.holdPtr found := by
  refine Ensures.bind (dirlookup_leaves books locked name) fun found _ books => ?_
  cases found with
  | none => exact (ensures_pure _).mpr books
  | some place =>
    refine Ensures.bind ((inodeWriteNbytesLocked_loose _ _).locked books locked) fun _ _ books => (ensures_pure _).mpr books

theorem unlink_closed (books : Books account fs) (path : List Byte) : Ensures (myfuseUnlink path) fs (fun _ => Closed account) fun _ _ => True := by
  refine Ensures.bind (beginOp_leaves books) fun _ _ books => Ensures.bind (path2inode_leaves books path) fun found _ books => ?_
  cases found with
  | none => exact Ensures.bind (endOp_closes books) fun _ _ closed => (ensures_pure _).mpr closed
  | some ip =>
    refine Ensures.bind (path2parentinode_leaves books path) fun parent _ books => ?_
    cases parent with
    | none => exact (ensures_stop _).mpr trivial
    | some parent =>
      obtain ⟨dp, name⟩ := parent
      refine Ensures.bind (ilock_leaves books dp) fun _ _ locked => ?_
      obtain ⟨books, parent_free⟩ := locked
      refine Ensures.bind (ilock_leaves books ip) fun _ current locked => ensures_bind.mpr (ensures_get.mpr ?_)
      obtain ⟨books, free⟩ := locked
      obtain ⟨apart, ip_free⟩ := Account.lock_free.mp free
      refine ensures_ite.mpr ⟨fun _ => ?_, fun _ => ?_⟩
      · have books : Books ((((account.opened.lock dp).lock ip).hold ip).hold dp) current := books
        rw [Account.lock_swap] at books
        have books : Books ((((account.opened.hold ip).lock ip).hold dp).lock dp) current := books
        refine Ensures.bind (iunlockput_back books (Account.lock_free.mpr ⟨apart.symm, parent_free⟩)) fun _ _ books => ?_
        refine Ensures.bind (iunlockput_back books ip_free) fun _ _ books => Ensures.bind (endOp_closes books) fun _ _ closed => ?_
        exact (ensures_pure _).mpr closed
      · have finish : ∀ {current : FS}, Books ((((account.opened.hold ip).hold dp).lock dp).lock ip) current →
            Ensures (do iupdate ip; iunlockput ip; iunlockput dp; endOp; pure (0 : Int)) current (fun _ => Closed account) fun _ _ => True := by
          intro current books
          have books : Books ((((account.opened.lock dp).lock ip).hold ip).hold dp) current := books
          have books : Books ((((account.opened.hold dp).lock dp).hold ip).lock ip) current := books.hold_swap
          refine Ensures.bind (iupdate_neutral.leaves books) fun _ _ books => ?_
          refine Ensures.bind (iunlockput_back books free) fun _ _ books => ?_
          refine Ensures.bind (iunlockput_back books parent_free) fun _ _ books => Ensures.bind (endOp_closes books) fun _ _ closed => ?_
          exact (ensures_pure _).mpr closed
        refine Ensures.bind ((modifyCopy_neutral _).leaves books) fun _ _ books => ensures_bind.mpr (ensures_get.mpr ?_)
        refine ensures_ite.mpr ⟨fun _ => ?_, fun _ => finish books⟩
        refine Ensures.bind (clearDirent_leaves books ?_ name) fun found _ books => ?_
        · rw [Account.lock_swap]
          exact Account.lock_locks _ _
        · cases found with
          | none => exact finish books
          | some found => exact Ensures.bind (iput_back books) fun _ _ books => finish books

/-- `myfuse_mkdir` up to its `dirlink`: the new inode, the parent and the name. -/
def mkdirPrepare (path : List Byte) : M (Nat × Nat × Name) := do
  beginOp
  let dp ← path2parentinode path
  let ip ← ialloc T_DIR_INODE_MYFUSE
  ilock ip
  match dp with
  | none => stop (.errExit .invalidInode)
  | some (dp, name) => do
    ilock dp
    pure (ip, dp, name)

/-- The name is there when `myfuse_mkdir` wants to link it. -/
def NameTaken (path : List Byte) (fs : FS) : Prop :=
  ∃ ip dp name middle, mkdirPrepare path fs = (.ok (ip, dp, name), middle) ∧ ∃ place after, dirlookup dp name middle = (.ok (some place), after)

/-- The rest of `myfuse_mkdir`. -/
def mkdirFinish (mode : Nat) : Nat × Nat × Name → M Int
  | (ip, dp, name) => do
    let fs ← get
    let linked ← dirlink dp name (fs.inode ip).inum
    if linked ≠ 0 then do
      iunlockput ip
      endOp
      pure (-EEXIST)
    else do
      iunlockput dp
      modifyCopy ip fun copy => { copy with nlink := 1, perm := mode }
      let now ← getCurrentTimespec
      modifyCopy ip fun copy => { copy with st_atimespec := now, st_mtimespec := now, st_ctimespec := now }
      iupdate ip
      iunlockput ip
      endOp
      pure 0

theorem myfuseMkdir_eq (path : List Byte) (mode : Nat) : myfuseMkdir path mode = mkdirPrepare path >>= mkdirFinish mode := by
  simp only [mkdirPrepare, bind_assoc]
  refine congrArg _ (funext fun _ => congrArg _ (funext fun dp => congrArg _ (funext fun ip => congrArg _ (funext fun _ => ?_))))
  cases dp with
  | none => rfl
  | some parent =>
    simp only [bind_assoc]
    rfl

/-- `dirlink` fails just when the name is there. -/
theorem dirlink_taken (books : Books account fs) (locked : account.locks dp = true) (name : Name) (inum : Nat) :
    Ensures (dirlink dp name inum) fs
      (fun linked after => Books account after ∧ (linked ≠ 0 ↔ ∃ place middle, dirlookup dp name fs = (.ok (some place), middle))) fun _ _ => True := by
  have taken : Ensures (dirlink dp name inum) fs
      (fun linked _ => linked ≠ 0 ↔ ∃ place middle, dirlookup dp name fs = (.ok (some place), middle)) fun _ _ => True := by
    refine Ensures.bind (dirlookup_either books name).ran fun found middle reached => ?_
    cases found with
    | some place => exact Ensures.bind ensures_true fun _ _ _ => (ensures_pure _).mpr (iff_of_true (by decide) ⟨place, middle, reached.2⟩)
    | none =>
      have fresh : ¬ ∃ place middle, dirlookup dp name fs = (.ok (some place), middle) := by
        rintro ⟨place, other, again⟩
        rw [reached.2] at again
        cases again
      refine Ensures.bind ensures_true fun _ _ _ => Ensures.bind ensures_true fun _ _ _ => ?_
      exact ensures_ite.mpr ⟨fun _ => (ensures_stop _).mpr trivial, fun _ => (ensures_pure _).mpr (iff_of_false (fun other => other rfl) fresh)⟩
  exact (((dirlink_loose name inum).locked books locked).and taken).mono (fun _ _ both => both) fun _ _ _ => trivial

/-- Two held and locked inodes, the second one locked last. -/
structure BothLocked (account : Account) (first second : Nat) (after : FS) : Prop where
  books : Books ((((account.hold first).lock first).hold second).lock second) after
  first_free : account.locks first = false
  second_free : (account.lock first).locks second = false

theorem BothLocked.swap {first second : Nat} (both : BothLocked account first second fs) : BothLocked account second first fs := by
  obtain ⟨books, first_free, second_free⟩ := both
  obtain ⟨apart, free⟩ := Account.lock_free.mp second_free
  refine ⟨?_, free, Account.lock_free.mpr ⟨apart.symm, first_free⟩⟩
  have books : Books ((((account.lock first).lock second).hold first).hold second) fs := books
  rw [Account.lock_swap] at books
  exact books.hold_swap

theorem BothLocked.neutral {first second : Nat} {α : Type} {program : M α} (even : Neutral program) (both : BothLocked account first second fs) :
    Ensures program fs (fun _ after => BothLocked account first second after) fun _ _ => True :=
  (even.leaves both.books).weaken fun _ _ books => ⟨books, both.first_free, both.second_free⟩

/-- Both are put, the second one first. -/
theorem BothLocked.put {first second : Nat} {α : Type} {rest : M α} {ok : α → FS → Prop} (both : BothLocked account first second fs)
    (next : ∀ after, Books account after → Ensures rest after ok fun _ _ => True) :
    Ensures (do iunlockput second; iunlockput first; rest) fs ok fun _ _ => True :=
  Ensures.bind (iunlockput_back both.books both.second_free) fun _ _ books =>
    Ensures.bind (iunlockput_back books both.first_free) fun _ after books => next after books

theorem mkdirPrepare_leaves (books : Books account fs) (path : List Byte) :
    Ensures (mkdirPrepare path) fs (fun found after => BothLocked account.opened found.1 found.2.1 after) fun _ _ => True := by
  refine Ensures.bind (beginOp_leaves books) fun _ _ books => Ensures.bind (path2parentinode_leaves books path) fun parent _ books => ?_
  refine Ensures.bind (ialloc_leaves books _) fun ip _ books => Ensures.bind (ilock_leaves books ip) fun _ current locked => ?_
  cases parent with
  | none => exact (ensures_stop _).mpr trivial
  | some parent =>
    obtain ⟨books, free⟩ := locked
    have books : Books (((account.opened.lock ip).hold parent.1).hold ip) current := books
    have books : Books (((account.opened.lock ip).hold ip).hold parent.1) current := books.hold_swap
    exact Ensures.bind (ilock_leaves books parent.1) fun _ _ locked => (ensures_pure _).mpr ⟨locked.1, free, locked.2⟩

theorem mkdir_outcome (books : Books account fs) (path : List Byte) (mode : Nat) :
    Ensures (myfuseMkdir path mode) fs
      (fun _ after => AllCommitted after ∧
        (NameTaken path fs ∧ (∃ dp, account.locks dp = false ∧ Books ((account.hold dp).lock dp) after) ∨ ¬ NameTaken path fs ∧ Books account after))
      fun _ _ => True := by
  rw [myfuseMkdir_eq]
  refine Ensures.bind (mkdirPrepare_leaves books path).ran fun found middle reached => ?_
  obtain ⟨ip, dp, name⟩ := found
  obtain ⟨both, prepared⟩ := reached
  have taken_iff : NameTaken path fs ↔ ∃ place after, dirlookup dp name middle = (.ok (some place), after) := by
    refine ⟨fun ⟨_, _, _, _, again, found⟩ => ?_, fun found => ⟨ip, dp, name, middle, prepared, found⟩⟩
    rw [prepared] at again
    cases again
    exact found
  rw [taken_iff]
  refine ensures_bind.mpr (ensures_get.mpr (Ensures.bind (dirlink_taken both.books (Account.lock_locks _ _) _ _) fun linked current outcome => ?_))
  obtain ⟨books, taken⟩ := outcome
  have both : BothLocked account.opened ip dp current := ⟨books, both.first_free, both.second_free⟩
  rw [← taken]
  refine ensures_ite.mpr ⟨fun failed => ?_, fun done => ?_⟩
  · have books : Books ((((account.hold dp).lock dp).opened.hold ip).lock ip) current := both.swap.books
    refine Ensures.bind (iunlockput_back books both.swap.second_free) fun _ _ books => Ensures.bind (endOp_closes books) fun _ _ closed => ?_
    exact (ensures_pure _).mpr ⟨closed.2, .inl ⟨failed, dp, both.swap.first_free, closed.1⟩⟩
  · refine Ensures.bind (iunlockput_back both.books both.second_free) fun _ _ books => ?_
    refine Ensures.bind ((modifyCopy_neutral _).leaves books) fun _ _ books => Ensures.bind (getCurrentTimespec_neutral.leaves books) fun _ _ books => ?_
    refine Ensures.bind ((modifyCopy_neutral _).leaves books) fun _ _ books => Ensures.bind (iupdate_neutral.leaves books) fun _ _ books => ?_
    refine Ensures.bind (iunlockput_back books both.first_free) fun _ _ books => Ensures.bind (endOp_closes books) fun _ _ closed => ?_
    exact (ensures_pure _).mpr ⟨closed.2, .inr ⟨done, closed.1⟩⟩

/-- `myfuse_rmdir` up to its test of the link count, or to its end if it refuses. -/
def rmdirPrepare (path : List Byte) : M (Int ⊕ Nat × Nat × Name) := do
  beginOp
  match ← path2inode path with
  | none => do
    endOp
    pure (.inl (-ENOENT))
  | some ip => do
    ilock ip
    if ← hasDirent ip then do
      iunlockput ip
      endOp
      pure (.inl (-ENOTEMPTY))
    else do
      match ← path2parentinode path with
      | none => stop (.errExit .invalidInode)
      | some (dp, name) => do
        ilock dp
        modifyCopy ip fun copy => { copy with nlink := copy.nlink - 1 }
        pure (.inr (ip, dp, name))

/-- The rest of `myfuse_rmdir`. -/
def rmdirFinish : Int ⊕ Nat × Nat × Name → M Int
  | .inl res => pure res
  | .inr (ip, dp, name) => do
    let fs ← get
    if (fs.inode ip).copy.nlink = 0 then do
      let _ ← clearDirent dp name
      pure ()
    else pure ()
    iupdate ip
    iunlockput dp
    iunlockput ip
    endOp
    pure 0

theorem myfuseRmdir_eq (path : List Byte) : myfuseRmdir path = rmdirPrepare path >>= rmdirFinish := by
  simp only [rmdirPrepare, bind_assoc]
  refine congrArg _ (funext fun _ => congrArg _ (funext fun found => ?_))
  cases found with
  | none =>
    simp only [bind_assoc]
    rfl
  | some ip =>
    simp only [bind_assoc]
    refine congrArg _ (funext fun _ => congrArg _ (funext fun used => ?_))
    cases used with
    | true =>
      simp only [bind_assoc, if_true]
      rfl
    | false =>
      simp only [bind_assoc, if_false, Bool.false_eq_true]
      refine congrArg _ (funext fun parent => ?_)
      cases parent with
      | none => rfl
      | some parent =>
        simp only [bind_assoc]
        rfl

/-- `myfuse_rmdir` takes an entry out of the parent: its inode comes from `dirlookup`, and nobody puts it. -/
def ClearsEntry (path : List Byte) (fs : FS) : Prop :=
  ∃ ip dp name middle, rmdirPrepare path fs = (.ok (.inr (ip, dp, name)), middle) ∧ (middle.inode ip).copy.nlink = 0 ∧
    ∃ place after, dirlookup dp name middle = (.ok (some place), after)

theorem hasDirent_loose : Loose ip (hasDirent ip) := by
  refine .get fun fs => ?_
  dsimp only
  refine .ite (.bind (inodeReadNbytesLocked_loose _ _) fun data => .ite (Neutral.stop _).loose ?_) (Neutral.pure _).loose
  split
  · exact (Neutral.stop _).loose
  · exact (Neutral.pure _).loose

theorem rmdirPrepare_leaves (books : Books account fs) (path : List Byte) :
    Ensures (rmdirPrepare path) fs (fun found after => match found with
      | .inl _ => Closed account after
      | .inr (ip, dp, _) => BothLocked account.opened ip dp after) fun _ _ => True := by
  refine Ensures.bind (beginOp_leaves books) fun _ _ books => Ensures.bind (path2inode_leaves books path) fun found _ books => ?_
  cases found with
  | none => exact Ensures.bind (endOp_closes books) fun _ _ closed => (ensures_pure _).mpr closed
  | some ip =>
    refine Ensures.bind (ilock_leaves books ip) fun _ _ locked => ?_
    obtain ⟨books, free⟩ := locked
    refine Ensures.bind (hasDirent_loose.locked books (Account.lock_locks _ _)) fun used _ books => ensures_ite.mpr ⟨fun _ => ?_, fun _ => ?_⟩
    · refine Ensures.bind (iunlockput_back books free) fun _ _ books => Ensures.bind (endOp_closes books) fun _ _ closed => ?_
      exact (ensures_pure _).mpr closed
    · refine Ensures.bind (path2parentinode_leaves books path) fun parent _ books => ?_
      cases parent with
      | none => exact (ensures_stop _).mpr trivial
      | some parent =>
        refine Ensures.bind (ilock_leaves books parent.1) fun _ _ locked => ?_
        have both : BothLocked account.opened ip parent.1 _ := ⟨locked.1, free, locked.2⟩
        exact Ensures.bind (both.neutral (modifyCopy_neutral _)) fun _ _ both => (ensures_pure _).mpr both

theorem rmdir_outcome (books : Books account fs) (path : List Byte) :
    Ensures (myfuseRmdir path) fs
      (fun _ after => AllCommitted after ∧
        (ClearsEntry path fs ∧ (∃ found, Books (account.hold found) after) ∨ ¬ ClearsEntry path fs ∧ Books account after))
      fun _ _ => True := by
  rw [myfuseRmdir_eq]
  refine Ensures.bind (rmdirPrepare_leaves books path).ran fun found middle reached => ?_
  obtain ⟨books, prepared⟩ := reached
  cases found with
  | inl res =>
    refine (ensures_pure _).mpr ⟨books.2, .inr ⟨?_, books.1⟩⟩
    rintro ⟨ip, dp, name, other, again, -⟩
    rw [prepared] at again
    cases again
  | inr found =>
    obtain ⟨ip, dp, name⟩ := found
    have both : BothLocked account.opened ip dp middle := books
    have clears_iff : ClearsEntry path fs ↔ (middle.inode ip).copy.nlink = 0 ∧ ∃ place after, dirlookup dp name middle = (.ok (some place), after) := by
      refine ⟨fun ⟨_, _, _, _, again, found⟩ => ?_, fun found => ⟨ip, dp, name, middle, prepared, found⟩⟩
      rw [prepared] at again
      cases again
      exact found
    have finish : ∀ (left : Account) {current : FS}, BothLocked left.opened ip dp current →
        Ensures (do iupdate ip; iunlockput dp; iunlockput ip; endOp; pure (0 : Int)) current (fun _ => Closed left) fun _ _ => True := by
      intro left current both
      refine Ensures.bind (both.neutral iupdate_neutral) fun _ _ both => both.put fun _ books => ?_
      exact Ensures.bind (endOp_closes books) fun _ _ closed => (ensures_pure _).mpr closed
    rw [clears_iff]
    refine ensures_bind.mpr (ensures_get.mpr (ensures_ite.mpr ⟨fun last => ?_, fun more => ?_⟩))
    · refine Ensures.bind (clearDirent_leaves both.books (Account.lock_locks _ _) name).ran fun found _ cleared => ?_
      obtain ⟨books, ran⟩ := cleared
      obtain ⟨place, _, looked, rest⟩ := bind_returns ran
      cases place with
      | none =>
        cases rest
        refine (finish account ⟨books, both.first_free, both.second_free⟩).weaken fun _ _ closed => ⟨closed.2, .inr ⟨fun clears => ?_, closed.1⟩⟩
        obtain ⟨-, _, _, again⟩ := clears
        rw [looked] at again
        cases again
      | some place =>
        obtain ⟨_, _, -, rest⟩ := bind_returns rest
        cases rest
        refine (finish (account.hold place.1) ⟨books.same rfl (fun other => ?_) (fun _ => rfl) rfl ?_, both.first_free, both.second_free⟩).weaken
          fun _ _ closed => ⟨closed.2, .inl ⟨⟨last, place, _, looked⟩, place.1, closed.1⟩⟩
        · show account.refs other + _ + _ + _ = account.refs other + _ + _ + _
          omega
        · intro other inside
          simp only [Account.lock, Account.hold, Account.opened, Account.holdPtr, Set.mem_insert_iff] at inside ⊢
          tauto
    · exact (finish account both).weaken fun _ _ closed => ⟨closed.2, .inr ⟨fun clears => more clears.1, closed.1⟩⟩

end FS
end Myfuse
