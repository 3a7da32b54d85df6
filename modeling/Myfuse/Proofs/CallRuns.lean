import Myfuse.FuseCall
import Myfuse.Proofs.RenameOutcome

/-! Runs of FUSE calls: what every call gives back of the operations, references and
locks that it took, and when it keeps some of them. -/

namespace Myfuse
open Library Library.Exec

/-- Against `left`, nothing is missing and nothing too much, but for the references handed
out and given back. -/
def Account.Balanced (account left : Account) (handed back : Option Nat) : Prop :=
  (∀ ip, left.locks ip = account.locks ip) ∧
    ∀ ip, left.refs ip + (if back = some ip then 1 else 0) = account.refs ip + if handed = some ip then 1 else 0

namespace Account
variable {account left : Account}

theorem balanced_self (account : Account) : account.Balanced account none none := ⟨fun _ => rfl, fun _ => rfl⟩

theorem balanced_opened (account : Account) : account.Balanced account.opened none none := ⟨fun _ => rfl, fun _ => rfl⟩

theorem balanced_hold (ip : Nat) (files : Nat → Option Nat) : account.Balanced { account.hold ip with files } (some ip) none := by
  refine ⟨fun _ => rfl, fun other => ?_⟩
  show account.refs other + (if other = ip then 1 else 0) + _ = _
  simp only [Option.some.injEq, eq_comm, reduceCtorEq, if_false, Int.add_zero]

theorem balanced_drop (ip : Nat) : account.Balanced (account.drop ip) none (some ip) := by
  refine ⟨fun _ => rfl, fun other => ?_⟩
  rw [drop_refs]
  simp only [Option.some.injEq, eq_comm, reduceCtorEq, if_false, Int.add_zero, Int.sub_add_cancel]

/-- A reference too much. -/
theorem unbalanced_of_more {ip : Nat} (more : account.refs ip < left.refs ip) : ¬ account.Balanced left none none := by
  intro balanced
  have same := balanced.2 ip
  simp only [reduceCtorEq, if_false, Int.add_zero] at same
  omega

theorem unbalanced_hold (ip : Nat) : ¬ account.Balanced (account.hold ip) none none := by
  have more : account.refs ip < (account.hold ip).refs ip := by
    rw [hold_refs, if_pos rfl]
    omega
  exact unbalanced_of_more more

theorem unbalanced_lock {ip : Nat} (free : account.locks ip = false) (taken : left.locks ip = true) : ¬ account.Balanced left none none := by
  intro balanced
  rw [← balanced.1 ip, taken] at free
  cases free

end Account

namespace FuseCall
open FS

/-- The calls that return without `end_op`. -/
def LeavesOpen : FuseCall → FS → Prop
  | openFile path fi, fs => FindsNothing path fs ∧ fi.flags &&& O_CREAT = 0
  | access path, fs => FindsNothing path fs
  | chmod path _, fs => FindsNothing path fs
  | rename source target _, fs => RenameMisses source target fs
  | _, _ => False

/-- The calls that keep a reference or a lock. -/
def LeavesHeld : FuseCall → FS → Prop
  | mkdir path _, fs => NameTaken path fs
  | rmdir path, fs => ClearsEntry path fs
  | truncate path _, fs => SeesDirectory fs path
  | rename source target flags, fs => RenameMissesSome source target fs ∨ ExchangeRestarts source target flags fs
  | _, _ => False

/-- The inode whose reference a call gives back. -/
def back : FuseCall → FS → Option Nat
  | release fi, fs => givenBack fs fi
  | _, _ => none

/-- What a call leaves on the books. -/
structure Tally (call : FuseCall) (fs : FS) (account left : Account) (handle : Option Nat) (after : FS) : Prop where
  books : Books left after
  opens : call.LeavesOpen fs → left.ops = account.ops + 1
  ends : ¬ call.LeavesOpen fs → left.ops = account.ops ∧ (AllCommitted fs → AllCommitted after)
  balanced : account.Balanced left (handle.bind left.files) (call.back fs) ↔ ¬ call.LeavesHeld fs

variable {fs after : FS} {account left : Account} {call : FuseCall} {handle : Option Nat}

/-- A call that ends its operation and keeps nothing. -/
theorem Tally.of_closed (clean : ¬ call.LeavesOpen fs) (kept : ¬ call.LeavesHeld fs) (none_back : call.back fs = none)
    (closed : Closed account after) : call.Tally fs account account none after := by
  refine ⟨closed.1, fun opens => absurd opens clean, fun _ => ⟨rfl, fun _ => closed.2⟩, iff_of_true ?_ kept⟩
  rw [none_back]
  exact account.balanced_self

/-- One that succeeds with a handle, or fails without. -/
theorem Tally.of_given {value : Int × FuseFileInfo} (clean : ¬ call.LeavesOpen fs) (kept : ¬ call.LeavesHeld fs) (none_back : call.back fs = none)
    (given : HandleGiven account value after) : ∃ left, call.Tally fs account left (handed value).2 after := by
  obtain ⟨committed, failed | succeeded⟩ := given
  · refine ⟨account, ?_⟩
    rw [handed, if_neg failed.1]
    exact .of_closed clean kept none_back ⟨failed.2, committed⟩
  · obtain ⟨zero, ip, file, handle, files, pointer, books⟩ := succeeded
    refine ⟨{ account.hold ip with files }, books, fun opens => absurd opens clean, fun _ => ⟨rfl, fun _ => committed⟩, iff_of_true ?_ kept⟩
    rw [none_back, handed, if_pos zero, handle]
    show account.Balanced _ (files file) none
    rw [pointer]
    exact Account.balanced_hold ip files

theorem Tally.of_opened (opens : call.LeavesOpen fs) (kept : ¬ call.LeavesHeld fs) (none_back : call.back fs = none)
    (books : Books account.opened after) : call.Tally fs account account.opened none after := by
  refine ⟨books, fun _ => rfl, fun clean => absurd opens clean, iff_of_true ?_ kept⟩
  rw [none_back]
  exact account.balanced_opened

/-- One that ends its operation and keeps something. -/
theorem Tally.of_kept (clean : ¬ call.LeavesOpen fs) (kept : call.LeavesHeld fs) (none_back : call.back fs = none)
    (ops : left.ops = account.ops) (unbalanced : ¬ account.Balanced left none none) (books : Books left after) (committed : AllCommitted after) :
    call.Tally fs account left none after := by
  refine ⟨books, fun opens => absurd opens clean, fun _ => ⟨ops, fun _ => committed⟩, iff_of_false ?_ (fun other => other kept)⟩
  rw [none_back]
  exact unbalanced

theorem readdir_tally (books : Books account fs) (full : List (Name × Stat) → Name × Stat → Bool) (fi : Option FuseFileInfo) :
    Ensures (readdir full fi).run fs (fun value after => ∃ left, (readdir full fi).Tally fs account left value.2 after) fun _ _ => True := by
  refine Ensures.bind (readdir_closed books full fi) fun _ _ outcome => (ensures_pure _).mpr ⟨account, ?_⟩
  cases outcome with
  | inl same =>
    rw [same]
    exact ⟨books, False.elim, fun _ => ⟨rfl, id⟩, iff_of_true account.balanced_self id⟩
  | inr closed => exact .of_closed id id rfl closed

theorem release_tally (books : Books account fs) (existing : ∀ f ip, account.files f = some ip → ip ∈ account.known) (fi : Option FuseFileInfo) :
    Ensures (release fi).run fs (fun value after => ∃ left, (release fi).Tally fs account left value.2 after) fun _ _ => True := by
  refine Ensures.bind (release_outcome books existing fi) fun _ _ outcome => (ensures_pure _).mpr ?_
  obtain ⟨committed, outcome⟩ := outcome
  split at outcome
  next none_back =>
    refine ⟨account, outcome, False.elim, fun _ => ⟨rfl, committed⟩, iff_of_true ?_ id⟩
    show account.Balanced account none (givenBack fs fi)
    rw [none_back]
    exact account.balanced_self
  next ip given =>
    refine ⟨account.drop ip, outcome, False.elim, fun _ => ⟨rfl, committed⟩, iff_of_true ?_ id⟩
    show account.Balanced (account.drop ip) none (givenBack fs fi)
    rw [given]
    exact Account.balanced_drop ip

/-- A walk that found something is held. -/
theorem RenamePaths.unbalanced (paths : RenamePaths) (found : paths ≠ ⟨none, none, none, none⟩) :
    ¬ account.Balanced (paths.holds account.opened) none none := by
  obtain ⟨target_ip, target_dp, from_ip, from_dp⟩ := paths
  have refs : ∀ ip, (RenamePaths.holds ⟨target_ip, target_dp, from_ip, from_dp⟩ account.opened).refs ip = account.refs ip +
      (if target_ip = some ip then 1 else 0) + (if target_dp.map Prod.fst = some ip then 1 else 0) +
      (if from_ip = some ip then 1 else 0) + if from_dp.map Prod.fst = some ip then 1 else 0 := by
    intro ip
    simp only [RenamePaths.holds, Account.holdPtr_refs, Account.opened]
  have some_held : ∃ ip, target_ip = some ip ∨ target_dp.map Prod.fst = some ip ∨ from_ip = some ip ∨ from_dp.map Prod.fst = some ip := by
    cases target_ip with
    | some ip => exact ⟨ip, .inl rfl⟩
    | none =>
      cases target_dp with
      | some parent => exact ⟨parent.1, .inr (.inl rfl)⟩
      | none =>
        cases from_ip with
        | some ip => exact ⟨ip, .inr (.inr (.inl rfl))⟩
        | none =>
          cases from_dp with
          | some parent => exact ⟨parent.1, .inr (.inr (.inr rfl))⟩
          | none => exact absurd rfl found
  obtain ⟨ip, held⟩ := some_held
  have more : account.refs ip < (RenamePaths.holds ⟨target_ip, target_dp, from_ip, from_dp⟩ account.opened).refs ip := by
    rw [refs]
    split_ifs <;> first | omega | simp_all
  exact Account.unbalanced_of_more more

theorem rename_tally (books : Books account fs) (source target : List Byte) (flags : Nat) :
    Ensures (rename source target flags).run fs (fun value after => ∃ left, (rename source target flags).Tally fs account left value.2 after)
      fun _ _ => True := by
  refine Ensures.bind (rename_outcome books source target flags) fun _ _ outcome => (ensures_pure _).mpr ?_
  rcases outcome with ⟨paths, middle, walked, missing, books⟩ | ⟨present, committed, ⟨restarts, dp, free, books⟩ | ⟨restarts, books⟩⟩
  · have opens : RenameMisses source target fs := ⟨paths, middle, walked, missing⟩
    have not_exchange : ¬ ExchangeRestarts source target flags fs := by
      rintro ⟨_, _, _, _, _, _, taken, -⟩
      rw [renameUnlink_eq, bind_ok walked] at taken
      rw [renameTake_missing missing] at taken
      cases taken
    refine ⟨paths.holds account.opened, books, fun _ => ?_, fun clean => absurd opens clean, ?_⟩
    · simp only [RenamePaths.holds, Account.holdPtr_ops]
      rfl
    · by_cases found : paths = ⟨none, none, none, none⟩
      · subst found
        refine iff_of_true account.balanced_opened ?_
        rintro (⟨_, _, again, -, some_found⟩ | restarts)
        · rw [walked] at again
          cases again
          exact some_found rfl
        · exact not_exchange restarts
      · exact iff_of_false (RenamePaths.unbalanced paths found) fun other => other (.inl ⟨paths, middle, walked, missing, found⟩)
  · exact ⟨account.lock dp, .of_kept present (.inr restarts) rfl rfl (Account.unbalanced_lock free (Account.lock_locks _ _)) books committed⟩
  · have kept : ¬ (rename source target flags).LeavesHeld fs := by
      rintro (⟨paths, after, walked, missing, -⟩ | again)
      · exact present ⟨paths, after, walked, missing⟩
      · exact restarts again
    exact ⟨account, .of_closed present kept rfl ⟨books, committed⟩⟩

theorem run_tally (books : Books account fs) (existing : ∀ f ip, account.files f = some ip → ip ∈ account.known) (call : FuseCall) :
    Ensures call.run fs (fun value after => ∃ left, call.Tally fs account left value.2 after) fun _ _ => True := by
  cases call with
  | readdir full fi => exact readdir_tally books full fi
  | release fi => exact release_tally books existing fi
  | rename source target flags => exact rename_tally books source target flags
  | getattr path => exact Ensures.bind (getattr_closed books path) fun _ _ closed => (ensures_pure _).mpr ⟨account, .of_closed id id rfl closed⟩
  | unlink path => exact Ensures.bind (unlink_closed books path) fun _ _ closed => (ensures_pure _).mpr ⟨account, .of_closed id id rfl closed⟩
  | read size offset fi =>
    exact Ensures.bind (read_closed books size offset fi) fun _ _ closed => (ensures_pure _).mpr ⟨account, .of_closed id id rfl closed⟩
  | write data offset fi =>
    exact Ensures.bind (write_closed books data offset fi) fun _ _ closed => (ensures_pure _).mpr ⟨account, .of_closed id id rfl closed⟩
  | opendir path fi => exact Ensures.bind (opendir_given books path fi) fun _ _ given => (ensures_pure _).mpr (Tally.of_given id id rfl given)
  | create path mode fi => exact Ensures.bind (create_given books path mode fi) fun _ _ given => (ensures_pure _).mpr (Tally.of_given id id rfl given)
  | openFile path fi =>
    refine Ensures.bind (open_outcome books path fi) fun value _ outcome => (ensures_pure _).mpr ?_
    cases outcome with
    | inl missed =>
      rw [handed, if_neg missed.2.1]
      exact ⟨account.opened, .of_opened missed.1 id rfl missed.2.2⟩
    | inr given => exact Tally.of_given given.1 id rfl given.2
  | access path =>
    refine Ensures.bind (access_outcome books path) fun _ _ outcome => (ensures_pure _).mpr ?_
    cases outcome with
    | inl missed => exact ⟨account.opened, .of_opened missed.1 id rfl missed.2⟩
    | inr found => exact ⟨account, .of_closed found.1 id rfl found.2⟩
  | chmod path mode =>
    refine Ensures.bind (chmod_outcome books path mode) fun _ _ outcome => (ensures_pure _).mpr ?_
    cases outcome with
    | inl missed => exact ⟨account.opened, .of_opened missed.1 id rfl missed.2⟩
    | inr found => exact ⟨account, .of_closed found.1 id rfl found.2⟩
  | mkdir path mode =>
    refine Ensures.bind (mkdir_outcome books path mode) fun _ _ outcome => (ensures_pure _).mpr ?_
    obtain ⟨committed, ⟨taken, dp, free, books⟩ | ⟨linked, books⟩⟩ := outcome
    · exact ⟨(account.hold dp).lock dp, .of_kept id taken rfl rfl (Account.unbalanced_lock free (Account.lock_locks _ _)) books committed⟩
    · exact ⟨account, .of_closed id linked rfl ⟨books, committed⟩⟩
  | rmdir path =>
    refine Ensures.bind (rmdir_outcome books path) fun _ _ outcome => (ensures_pure _).mpr ?_
    obtain ⟨committed, ⟨clears, ip, books⟩ | ⟨kept, books⟩⟩ := outcome
    · exact ⟨account.hold ip, .of_kept id clears rfl rfl (Account.unbalanced_hold ip) books committed⟩
    · exact ⟨account, .of_closed id kept rfl ⟨books, committed⟩⟩
  | truncate path size =>
    refine Ensures.bind (truncate_outcome books path size) fun _ _ outcome => (ensures_pure _).mpr ?_
    rcases outcome with ⟨sees, ip, closed⟩ | ⟨other, closed⟩
    · exact ⟨account.hold ip, .of_kept id sees rfl rfl (Account.unbalanced_hold ip) closed.1 closed.2⟩
    · exact ⟨account, .of_closed id other rfl closed⟩

end FuseCall

namespace FS
variable {fs after : FS} {account : Account} {call : FuseCall} {value : Int × Option Nat}

theorem Mounted.tally (mounted : Mounted fs) (returned : call.run fs = (.ok value, after)) :
    ∃ left, call.Tally fs (accountOf fs) left value.2 after :=
  (FuseCall.run_tally mounted.books mounted.pointers call).returned returned

/-- Calls in a row, none of which leaves its operation open. -/
inductive CleanRun : FS → FS → Prop where
  | nil (fs : FS) : CleanRun fs fs
  | call {start fs after : FS} {call : FuseCall} {value : Int × Option Nat} (before : CleanRun start fs) (clean : ¬ call.LeavesOpen fs)
      (returned : call.run fs = (.ok value, after)) : CleanRun start after

/-- No operation is outstanding, and everything logged has been committed. -/
def AllDone (fs : FS) : Prop := fs.log.outstanding = 0 ∧ fs.log.block = []

theorem CleanRun.idle {start : FS} (run : CleanRun start fs) (mounted : Mounted start) (idle : AllDone start) : Mounted fs ∧ AllDone fs := by
  induction run with
  | nil => exact ⟨mounted, idle⟩
  | call before clean returned ih =>
    obtain ⟨mounted, idle⟩ := ih
    obtain ⟨left, tally⟩ := mounted.tally returned
    obtain ⟨ops, committed⟩ := tally.ends clean
    have outstanding := (tally.books.ops.trans ops).trans idle.1
    exact ⟨tally.books.mounted, outstanding, committed (fun _ => idle.2) outstanding⟩

/-- A call gives back its operation unless its walks come up empty; a run of such calls leaves the log idle. -/
theorem transactions_balanced_iff (mounted : Mounted fs) :
    (∀ (call : FuseCall) (value : Int × Option Nat) (after : FS), call.run fs = (.ok value, after) →
      (after.log.outstanding = fs.log.outstanding ↔ ¬ call.LeavesOpen fs)) ∧
    (AllDone fs → ∀ after, CleanRun fs after → AllDone after) := by
  refine ⟨fun call value after returned => ?_, fun idle after run => (run.idle mounted idle).2⟩
  obtain ⟨left, tally⟩ := mounted.tally returned
  rw [tally.books.ops]
  refine ⟨fun same opens => ?_, fun clean => (tally.ends clean).1⟩
  have more := tally.opens opens
  have start : (accountOf fs).ops = fs.log.outstanding := rfl
  omega

/-- The file system that `mkfs` makes in a small image, mounted. -/
def emptyMounted : FS := fresh (initSuperBlock 2000) (smallImage (initSuperBlock 2000) ROOTINO) fun _ => Inode.zero

theorem emptyMounted_mounted : Mounted emptyMounted :=
  ⟨by decide +kernel, fun _ _ => ⟨rfl, rfl⟩, fun _ _ pointer => by cases pointer⟩

theorem transactions_balanced_empty :
    (∀ (call : FuseCall) (value : Int × Option Nat) (after : FS), call.run emptyMounted = (.ok value, after) →
      (after.log.outstanding = emptyMounted.log.outstanding ↔ ¬ call.LeavesOpen emptyMounted)) ∧
    (AllDone emptyMounted → ∀ after, CleanRun emptyMounted after → AllDone after) :=
  transactions_balanced_iff emptyMounted_mounted

/-- `/x` is not there. -/
theorem access_leaves_operation : ¬ ∀ fs : FS, Mounted fs → ∀ (call : FuseCall) (value : Int × Option Nat) (after : FS),
    call.run fs = (.ok value, after) → after.log.outstanding = fs.log.outstanding := by
  intro claimed
  have value : valueOf (FuseCall.access [47, 120]).run emptyMounted = some (-ENOENT, none) := by decide +kernel
  have same := claimed emptyMounted emptyMounted_mounted _ _ _ (returns_of_valueOf value)
  have left : ((FuseCall.access [47, 120]).run emptyMounted).2.log.outstanding = emptyMounted.log.outstanding + 1 := by decide +kernel
  rw [left] at same
  exact absurd same (by decide +kernel)

end FS
end Myfuse
