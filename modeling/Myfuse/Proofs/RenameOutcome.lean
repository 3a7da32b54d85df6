import Myfuse.Proofs.CallOutcomes

/-! What `myfuse_rename` leaves on the books: the references of its walks when it gives
up early, and a lock when the exchange restarts the operation on a directory that it
has not locked. -/

namespace Myfuse
open Library Library.Exec

namespace FS
variable {fs : FS} {account : Account} {ip dp : Nat}

/-- What the four walks of `myfuse_rename` find. -/
structure RenamePaths where
  target_ip : Option Nat
  target_dp : Option (Nat × Name)
  from_ip : Option Nat
  from_dp : Option (Nat × Name)

/-- The test that ends the call with `-ENOENT`. -/
def RenamePaths.Missing (paths : RenamePaths) : Prop :=
  (paths.target_ip = none ∧ paths.target_dp = none) ∨ paths.from_ip = none ∨ paths.from_dp = none

/-- A reference for everything found. -/
def RenamePaths.holds (paths : RenamePaths) (account : Account) : Account :=
  (((account.holdPtr paths.target_ip).holdPtr (paths.target_dp.map Prod.fst)).holdPtr paths.from_ip).holdPtr (paths.from_dp.map Prod.fst)

def renamePaths (source target : List Byte) : M RenamePaths := do
  beginOp
  let target_ip ← path2inode target
  let target_dp ← path2parentinode target
  let from_ip ← path2inode source
  let from_dp ← path2parentinode source
  pure ⟨target_ip, target_dp, from_ip, from_dp⟩

/-- `myfuse_rename` gives up after its walks. -/
def RenameMisses (source target : List Byte) (fs : FS) : Prop := ∃ paths after, renamePaths source target fs = (.ok paths, after) ∧ paths.Missing

/-- It gives up, having found something. -/
def RenameMissesSome (source target : List Byte) (fs : FS) : Prop :=
  ∃ paths after, renamePaths source target fs = (.ok paths, after) ∧ paths.Missing ∧ paths ≠ ⟨none, none, none, none⟩

theorem renamePaths_leaves (books : Books account fs) (source target : List Byte) :
    Leaves (renamePaths source target) fs fun paths => paths.holds account.opened := by
  refine Ensures.bind (beginOp_leaves books) fun _ _ books => Ensures.bind (path2inode_leaves books target) fun _ _ books => ?_
  refine Ensures.bind (path2parentinode_leaves books target) fun _ _ books => Ensures.bind (path2inode_leaves books source) fun _ _ books => ?_
  exact Ensures.bind (path2parentinode_leaves books source) fun _ _ books => (ensures_pure _).mpr books

/-- The unlinking part of `renameUnlink`. -/
def renameTake (paths : RenamePaths) : M (Option (Nat × Nat × Name × Option Nat × Option (Nat × Name))) :=
  match paths.from_ip, paths.from_dp with
  | some from_ip, some (from_dp, from_name) =>
    if paths.target_ip = none ∧ paths.target_dp = none then pure none
    else do
      ilock from_ip
      ilock from_dp
      dropDirent from_dp from_name
      iunlock from_dp
      iunlock from_ip
      pure (some (from_ip, from_dp, from_name, paths.target_ip, paths.target_dp))
  | _, _ => pure none

theorem renameUnlink_eq (source target : List Byte) : renameUnlink source target = renamePaths source target >>= renameTake := by
  simp only [renamePaths, bind_assoc]
  rfl

theorem dropDirent_leaves (books : Books account fs) (locked : account.locks dp = true) (name : Name) :
    Leaves (dropDirent dp name) fs fun _ => account := by
  refine Ensures.bind (dirlookup_leaves books locked name) fun found _ books => ?_
  cases found with
  | none => exact ensures_bind.mpr ((ensures_stop _).mpr trivial)
  | some place =>
    refine Ensures.bind (iput_back books) fun _ _ books => ?_
    exact Ensures.bind ((inodeWriteNbytesLocked_loose _ _).locked books locked) fun _ _ books => (ensures_pure _).mpr books

theorem renameTake_leaves (books : Books account fs) (paths : RenamePaths) :
    Ensures (renameTake paths) fs (fun found after => match found with
      | none => paths.Missing ∧ after = fs
      | some (from_ip, from_dp, from_name, target_ip, target) => ¬ paths.Missing ∧
          paths = ⟨target_ip, target, some from_ip, some (from_dp, from_name)⟩ ∧ Books account after ∧ account.locks from_dp = false)
      fun _ _ => True := by
  obtain ⟨target_ip, target, from_ip, parent⟩ := paths
  cases from_ip with
  | none => exact (ensures_pure _).mpr ⟨.inr (.inl rfl), rfl⟩
  | some from_ip =>
    cases parent with
    | none => exact (ensures_pure _).mpr ⟨.inr (.inr rfl), rfl⟩
    | some parent =>
      obtain ⟨from_dp, from_name⟩ := parent
      refine ensures_ite.mpr ⟨fun missing => (ensures_pure _).mpr ⟨.inl missing, rfl⟩, fun present => ?_⟩
      refine Ensures.bind (ilock_leaves books from_ip) fun _ _ locked => Ensures.bind (ilock_leaves locked.1 from_dp) fun _ _ both => ?_
      obtain ⟨books, parent_free⟩ := both
      refine Ensures.bind (dropDirent_leaves books (Account.lock_locks _ _) from_name) fun _ _ books => ?_
      refine Ensures.bind (iunlock_back books parent_free) fun _ _ books => Ensures.bind (iunlock_back books locked.2) fun _ _ books => ?_
      refine (ensures_pure _).mpr ⟨?_, rfl, books, (Account.lock_free.mp parent_free).2⟩
      rintro (missing | missing | missing)
      · exact present missing
      · cases missing
      · cases missing

theorem renameTake_missing {paths : RenamePaths} (missing : paths.Missing) : renameTake paths = pure none := by
  obtain ⟨target_ip, target, from_ip, parent⟩ := paths
  rcases missing with absent | absent | absent
  · cases from_ip with
    | none => rfl
    | some from_ip =>
      cases parent with
      | none => rfl
      | some parent => exact if_pos absent
  · cases absent
    rfl
  · cases absent
    cases from_ip with
    | none => rfl
    | some from_ip => rfl

/-- `RENAME_EXCHANGE` up to the link in the directory of the source, which is locked only
if it is one of the two inodes of the target. -/
def exchangeClear (target_dp : Nat) (target_name : Name) (target_ip : Nat) (from_name : Name) (inum : Nat) : M Unit := do
  ilock target_dp
  ilock target_ip
  dropDirent target_dp target_name
  let _ ← dirlink target_dp from_name inum
  pure ()

/-- A restart in `program` has locked the inode. -/
def LocksBy {α : Type} (program : M α) (ip : Nat) (fs : FS) : Prop :=
  ∃ value after, program fs = (.ok value, after) ∧ (after.inode ip).locked = true

/-- The exchange links `target_inum` in a directory that it has not locked, and that link restarts the operation. -/
def LinksUnlocked (dp : Nat) (name : Name) (ip : Nat) (from_name : Name) (inum from_dp target_inum : Nat) (fs : FS) : Prop :=
  from_dp ≠ dp ∧ from_dp ≠ ip ∧ ∃ linked, exchangeClear dp name ip from_name inum fs = (.ok (), linked) ∧
    LocksBy (dirlink from_dp from_name target_inum) from_dp linked

/-- That is so in the branch that `myfuse_rename` takes. -/
def RestartsUnlocked (flags from_ip from_dp : Nat) (from_name : Name) (target_ip : Option Nat) (target : Option (Nat × Name)) (fs : FS) : Prop :=
  ∃ ip dp name, target_ip = some ip ∧ target = some (dp, name) ∧ ¬ fs.saysDirectory ip ∧ flags &&& RENAME_EXCHANGE ≠ 0 ∧
    LinksUnlocked dp name ip from_name (fs.inode from_ip).inum from_dp (fs.inode ip).inum fs

theorem Account.lock_lock_cases {first second ip : Nat} (account : Account) (free : account.locks ip = false) :
    (ip = first ∨ ip = second) ∧ ((account.lock first).lock second).lock ip = (account.lock first).lock second ∨
      (ip ≠ first ∧ ip ≠ second) ∧ ((account.lock first).lock second).locks ip = false := by
  by_cases last : ip = second
  · subst last
    exact .inl ⟨.inr rfl, Account.lock_lock _ _⟩
  · by_cases initial : ip = first
    · subst initial
      refine .inl ⟨.inl rfl, ?_⟩
      rw [Account.lock_swap account ip second, Account.lock_lock]
    · exact .inr ⟨⟨initial, last⟩, Account.lock_free.mpr ⟨last, Account.lock_free.mpr ⟨initial, free⟩⟩⟩

theorem exchange_leaves (books : Books account fs) {from_dp : Nat} (free : account.locks from_dp = false) (dp ip : Nat) (name from_name : Name)
    (inum target_inum : Nat) :
    Ensures (do
      ilock dp
      ilock ip
      dropDirent dp name
      let _ ← dirlink dp from_name inum
      let _ ← dirlink from_dp from_name target_inum
      iunlock ip
      iunlock dp
      pure (0 : Int)) fs
      (fun _ after => LinksUnlocked dp name ip from_name inum from_dp target_inum fs ∧ Books (account.lock from_dp) after ∨
        ¬ LinksUnlocked dp name ip from_name inum from_dp target_inum fs ∧ Books account after) fun _ _ => True := by
  have split : (do
      ilock dp
      ilock ip
      dropDirent dp name
      let _ ← dirlink dp from_name inum
      let _ ← dirlink from_dp from_name target_inum
      iunlock ip
      iunlock dp
      pure (0 : Int)) = exchangeClear dp name ip from_name inum >>= fun _ => (do
      let _ ← dirlink from_dp from_name target_inum
      iunlock ip
      iunlock dp
      pure (0 : Int)) := by
    simp only [exchangeClear, bind_assoc]
    rfl
  rw [split]
  have cleared : Ensures (exchangeClear dp name ip from_name inum) fs
      (fun _ after => Books ((account.lock dp).lock ip) after ∧ account.locks dp = false ∧ (account.lock dp).locks ip = false) fun _ _ => True := by
    refine Ensures.bind (ilock_leaves books dp) fun _ _ first => Ensures.bind (ilock_leaves first.1 ip) fun _ _ second => ?_
    have locked : ((account.lock dp).lock ip).locks dp = true := by
      rw [Account.lock_swap]
      exact Account.lock_locks _ _
    refine Ensures.bind (dropDirent_leaves second.1 locked name) fun _ _ books => ?_
    exact Ensures.bind ((dirlink_loose _ _).locked books locked) fun _ _ books => (ensures_pure _).mpr ⟨books, first.2, second.2⟩
  refine Ensures.bind cleared.ran fun _ linked reached => ?_
  obtain ⟨⟨books, dp_free, ip_free⟩, clear⟩ := reached
  have finish : ∀ {left : Account} {current : FS}, Books ((left.lock dp).lock ip) current → left.locks dp = false → (left.lock dp).locks ip = false →
      Leaves (do iunlock ip; iunlock dp; pure (0 : Int)) current fun _ => left := by
    intro left current books dp_free ip_free
    refine Ensures.bind (iunlock_back books ip_free) fun _ _ books => Ensures.bind (iunlock_back books dp_free) fun _ _ books => ?_
    exact (ensures_pure _).mpr books
  refine Ensures.bind ((dirlink_loose from_name target_inum) _ _ books).ran fun value current outcome => ?_
  obtain ⟨either, ran⟩ := outcome
  have place : (from_dp = dp ∨ from_dp = ip) ∧ ((account.lock dp).lock ip).lock from_dp = (account.lock dp).lock ip ∨
      (from_dp ≠ dp ∧ from_dp ≠ ip) ∧ ((account.lock dp).lock ip).locks from_dp = false := Account.lock_lock_cases account free
  cases place with
  | inl known =>
    obtain ⟨own, same⟩ := known
    rw [same, or_self] at either
    refine (finish either dp_free ip_free).weaken fun _ _ books => .inr ⟨fun restarts => ?_, books⟩
    cases own with
    | inl same => exact restarts.1 same
    | inr same => exact restarts.2.1 same
  | inr foreign =>
    obtain ⟨⟨not_dp, not_ip⟩, unlocked⟩ := foreign
    cases either with
    | inl same =>
      refine (finish same dp_free ip_free).weaken fun _ _ books => .inr ⟨?_, books⟩
      rintro ⟨-, -, other, again, value, after, linking, locked⟩
      rw [clear] at again
      cases again
      rw [ran] at linking
      cases linking
      rw [same.locked, unlocked] at locked
      cases locked
    | inr relocked =>
      have taken : (current.inode from_dp).locked = true := (relocked.locked from_dp).trans (Account.lock_locks _ _)
      rw [Account.lock_swap, Account.lock_swap account] at relocked
      refine (finish relocked ?_ ?_).weaken fun _ _ books => .inl ⟨⟨not_dp, not_ip, linked, clear, value, current, ran, taken⟩, books⟩
      · exact Account.lock_free.mpr ⟨Ne.symm not_dp, dp_free⟩
      · obtain ⟨apart, free⟩ := Account.lock_free.mp ip_free
        exact Account.lock_free.mpr ⟨apart, Account.lock_free.mpr ⟨Ne.symm not_ip, free⟩⟩

theorem renameTarget_leaves (books : Books account fs) {from_ip from_dp : Nat} (free : account.locks from_dp = false) (from_name : Name)
    (target_ip : Option Nat) (target : Option (Nat × Name)) (flags : Nat) :
    Ensures (renameTarget from_ip from_dp from_name target_ip target flags) fs
      (fun _ after => RestartsUnlocked flags from_ip from_dp from_name target_ip target fs ∧ Books (account.lock from_dp) after ∨
        ¬ RestartsUnlocked flags from_ip from_dp from_name target_ip target fs ∧ Books account after) fun _ _ => True := by
  have linked : ∀ (dp : Nat) (name : Name) (inum : Nat),
      Leaves (do ilock dp; let _ ← dirlink dp name inum; iunlock dp; pure (0 : Int)) fs fun _ => account := by
    intro dp name inum
    refine Ensures.bind (ilock_leaves books dp) fun _ _ locked => ?_
    refine Ensures.bind ((dirlink_loose _ _).locked locked.1 (Account.lock_locks _ _)) fun _ _ books => ?_
    exact Ensures.bind (iunlock_back books locked.2) fun _ _ books => (ensures_pure _).mpr books
  refine ensures_bind.mpr (ensures_get.mpr ?_)
  cases target_ip with
  | none =>
    cases target with
    | none => exact (ensures_stop _).mpr trivial
    | some parent =>
      refine (linked parent.1 parent.2 _).weaken fun _ _ books => .inr ⟨?_, books⟩
      rintro ⟨ip, dp, name, here, -⟩
      cases here
  | some ip =>
    refine ensures_ite.mpr ⟨fun directory => ?_, fun other => ensures_ite.mpr ⟨fun exchange => ?_, fun plain => ?_⟩⟩
    · refine (linked ip from_name _).weaken fun _ _ books => .inr ⟨?_, books⟩
      rintro ⟨_, dp, name, here, -, file, -⟩
      cases here
      exact file directory
    · cases target with
      | none => exact (ensures_stop _).mpr trivial
      | some parent =>
        obtain ⟨dp, name⟩ := parent
        refine (exchange_leaves books free dp ip name from_name _ _).weaken fun _ _ outcome => ?_
        have same : RestartsUnlocked flags from_ip from_dp from_name (some ip) (some (dp, name)) fs ↔
            LinksUnlocked dp name ip from_name (fs.inode from_ip).inum from_dp (fs.inode ip).inum fs := by
          refine ⟨fun ⟨_, _, _, here, there, _, _, links⟩ => ?_, fun links => ⟨ip, dp, name, rfl, rfl, other, exchange, links⟩⟩
          cases here
          cases there
          exact links
        rw [same]
        exact outcome
    · have unchanged : ¬ RestartsUnlocked flags from_ip from_dp from_name (some ip) target fs := by
        rintro ⟨_, _, _, -, -, -, exchange, -⟩
        exact plain exchange
      exact ensures_ite.mpr ⟨fun _ => (ensures_pure _).mpr (.inr ⟨unchanged, books⟩), fun _ => (ensures_pure _).mpr (.inr ⟨unchanged, books⟩)⟩

/-- `myfuse_rename` with `RENAME_EXCHANGE` ends with the directory of the source locked. -/
def ExchangeRestarts (source target : List Byte) (flags : Nat) (fs : FS) : Prop :=
  ∃ from_ip from_dp from_name target_ip parent middle,
    renameUnlink source target fs = (.ok (some (from_ip, from_dp, from_name, target_ip, parent)), middle) ∧
      RestartsUnlocked flags from_ip from_dp from_name target_ip parent middle

theorem iputSome_back {found : Option Nat} (books : Books (account.holdPtr found) fs) : Leaves (iputSome found) fs fun _ => account := by
  cases found with
  | none => exact (ensures_pure _).mpr books
  | some ip => exact iput_back books

theorem renameUnlink_leaves (books : Books account fs) (source target : List Byte) :
    Ensures (renameUnlink source target) fs (fun found after => match found with
      | none => ∃ paths, renamePaths source target fs = (.ok paths, after) ∧ paths.Missing ∧ Books (paths.holds account.opened) after
      | some (from_ip, from_dp, _, target_ip, parent) => ¬ RenameMisses source target fs ∧ account.locks from_dp = false ∧
          Books ((((account.opened.holdPtr target_ip).holdPtr (parent.map Prod.fst)).hold from_ip).hold from_dp) after) fun _ _ => True := by
  rw [renameUnlink_eq]
  refine Ensures.bind (renamePaths_leaves books source target).ran fun paths middle reached => ?_
  obtain ⟨books, walked⟩ := reached
  refine (renameTake_leaves books paths).weaken fun found after outcome => ?_
  cases found with
  | none =>
    obtain ⟨missing, rfl⟩ := outcome
    exact ⟨paths, walked, missing, books⟩
  | some found =>
    obtain ⟨from_ip, from_dp, from_name, target_ip, parent⟩ := found
    obtain ⟨present, rfl, books, free⟩ := outcome
    refine ⟨?_, ?_, books⟩
    · rintro ⟨_, _, again, missing⟩
      rw [walked] at again
      cases again
      exact present missing
    · simpa only [RenamePaths.holds, Account.holdPtr_locks, Account.opened] using free

theorem rename_outcome (books : Books account fs) (source target : List Byte) (flags : Nat) :
    Ensures (myfuseRename source target flags) fs
      (fun _ after =>
        (∃ paths middle, renamePaths source target fs = (.ok paths, middle) ∧ paths.Missing ∧ Books (paths.holds account.opened) after) ∨
        ¬ RenameMisses source target fs ∧ AllCommitted after ∧
          (ExchangeRestarts source target flags fs ∧ (∃ from_dp, account.locks from_dp = false ∧ Books (account.lock from_dp) after) ∨
            ¬ ExchangeRestarts source target flags fs ∧ Books account after)) fun _ _ => True := by
  rw [myfuseRename_eq]
  refine Ensures.bind (renameUnlink_leaves books source target).ran fun found middle reached => ?_
  obtain ⟨outcome, walked⟩ := reached
  cases found with
  | none =>
    obtain ⟨paths, ran, missing, books⟩ := outcome
    exact (ensures_pure _).mpr (.inl ⟨paths, middle, ran, missing, books⟩)
  | some found =>
    obtain ⟨from_ip, from_dp, from_name, target_ip, parent⟩ := found
    obtain ⟨present, free, books⟩ := outcome
    have restarts_iff : ExchangeRestarts source target flags fs ↔ RestartsUnlocked flags from_ip from_dp from_name target_ip parent middle := by
      refine ⟨fun ⟨_, _, _, _, _, _, again, restarts⟩ => ?_, fun restarts => ⟨_, _, _, _, _, middle, walked, restarts⟩⟩
      rw [walked] at again
      cases again
      exact restarts
    rw [restarts_iff]
    -- The references go in the order of the `iput`s, so the holds are turned around first.
    have finish : ∀ (left : Account) (res : Int) {current : FS},
        Books ((((left.opened.holdPtr target_ip).holdPtr (parent.map Prod.fst)).hold from_ip).hold from_dp) current →
        Ensures (do iputSome target_ip; iputSome (parent.map Prod.fst); iput from_ip; iput from_dp; endOp; pure res) current
          (fun _ => Closed left) fun _ _ => True := by
      intro left res current books
      have books : Books ((((left.opened.hold from_dp).hold from_ip).holdPtr (parent.map Prod.fst)).holdPtr target_ip) current := by
        refine books.same ?_ (fun other => ?_) (fun other => ?_) ?_ ?_
        · simp only [Account.holdPtr_ops, Account.hold]
        · simp only [Account.holdPtr_refs, Account.hold_refs]
          omega
        · simp only [Account.holdPtr_locks, Account.hold]
        · simp only [Account.holdPtr_files, Account.hold]
        · intro other inside
          cases target_ip <;> cases parent <;> simp only [Account.hold, Account.holdPtr, Option.map, Set.mem_insert_iff] at inside ⊢ <;> tauto
      refine Ensures.bind (iputSome_back books) fun _ _ books => Ensures.bind (iputSome_back books) fun _ _ books => ?_
      refine Ensures.bind (iput_back books) fun _ _ books => Ensures.bind (iput_back books) fun _ _ books => ?_
      exact Ensures.bind (endOp_closes books) fun _ _ closed => (ensures_pure _).mpr closed
    have free : ((((account.opened.holdPtr target_ip).holdPtr (parent.map Prod.fst)).hold from_ip).hold from_dp).locks from_dp = false := by
      simpa only [Account.hold, Account.holdPtr_locks, Account.opened] using free
    refine Ensures.bind (renameTarget_leaves books free from_name target_ip parent flags) fun res current outcome => ?_
    cases outcome with
    | inl restarted =>
      have moved : Books (((((account.lock from_dp).opened.holdPtr target_ip).holdPtr (parent.map Prod.fst)).hold from_ip).hold from_dp) current := by
        refine restarted.2.same ?_ (fun other => ?_) (fun other => ?_) ?_ ?_
        · simp only [Account.holdPtr_ops, Account.hold, Account.lock, Account.opened]
        · simp only [Account.holdPtr_refs, Account.hold_refs, Account.lock, Account.opened]
        · simp only [Account.holdPtr_locks, Account.hold, Account.lock, Account.opened]
        · simp only [Account.holdPtr_files, Account.hold, Account.lock, Account.opened]
        · intro other inside
          cases target_ip <;> cases parent <;> exact inside
      exact (finish (account.lock from_dp) res moved).weaken fun _ _ closed =>
        .inr ⟨present, closed.2, .inl ⟨restarted.1, from_dp, by simpa only [Account.hold, Account.holdPtr_locks, Account.opened] using free, closed.1⟩⟩
    | inr even => exact (finish account res even.2).weaken fun _ _ closed => .inr ⟨present, closed.2, .inr ⟨even.1, closed.1⟩⟩

end FS
end Myfuse
