import Myfuse.WriteThreads
import Myfuse.Proofs.FileBytes

/-! The stretches of a read or a write between its restarts: one after the other they
are the call, and each lays down or takes up the next bytes of it. -/

namespace Myfuse
open Library Library.Exec

namespace FS
variable {ip nwrote fuel nbytes bn : Nat} {rest : M Stretch} {target : M FileAnswer} {data : List Byte}

/-- A call goes on by itself after each restart. -/
def resume (ip : Nat) : Nat → Stretch → M FileAnswer
  | _, .done answer => pure answer
  | 0, .again _ => stop .blocked
  | fuel + 1, .again part => do
    iunlock ip
    endOp
    beginOp
    ilock ip
    let stretch ← stretch ip part
    resume ip fuel stretch

theorem resume_done (fuel : Nat) (answer : FileAnswer) : resume ip fuel (.done answer) = pure answer := by
  cases fuel <;> rfl

/-- A restart inside a call is a pause that the call ends by itself. -/
theorem pauseOn_resumes (part : FilePart) (again : (stretch ip part >>= resume ip fuel) = target) (goes : (rest >>= resume ip (fuel + 1)) = target) :
    (pauseOn ip nwrote part rest >>= resume ip (fuel + 1)) = (restartOpOn ip nwrote >>= fun _ => target) := by
  funext fs
  unfold pauseOn restartOpOn
  by_cases many : fs.n_log_wrote ≥ nwrote - 1
  · rw [Exec.bind_assoc, Exec.bind_assoc, bind_ok get_apply, bind_ok get_apply, if_pos many, if_pos many]
    simp only [Exec.bind_assoc]
    rw [← again]
    rfl
  · rw [Exec.bind_assoc, Exec.bind_assoc, bind_ok get_apply, bind_ok get_apply, if_neg many, if_neg many, goes]
    rfl

/-- `inode_write_nbytes_locked` from its last restart on. -/
def writeEnd (ip nbytes : Nat) (data : List Byte) (inode_blockno : Nat) : M FileAnswer := do
  if data.length ≠ 0 then writeBlock ip inode_blockno 0 data else pure ()
  touch ip
  iupdate ip
  pure (.wrote nbytes)

/-- `inode_write_nbytes_locked` from its loop on. -/
def writeRest (ip nbytes : Nat) (data : List Byte) (inode_blockno : Nat) : M FileAnswer := do
  let (data, inode_blockno) ← writeBlocks ip data inode_blockno
  restartOpOn ip (MAXOPBLOCKS - 3 - 1)
  writeEnd ip nbytes data inode_blockno

theorem finishWrite_resumes (fuel : Nat) : (finishWrite ip nbytes >>= resume ip fuel) = (do touch ip; iupdate ip; pure (.wrote nbytes)) := by
  unfold finishWrite
  simp only [Exec.bind_assoc]
  cases fuel <;> rfl

theorem writeLastPart_resumes (fuel : Nat) : (writeLastPart ip nbytes data bn >>= resume ip fuel) = writeEnd ip nbytes data bn := by
  unfold writeLastPart writeEnd
  dsimp only
  by_cases some : data.length ≠ 0
  · rw [if_pos some, if_pos some, Exec.bind_assoc]
    simp only [finishWrite_resumes]
  · rw [if_neg some, if_neg some]
    exact finishWrite_resumes fuel

theorem writeBlocksPart_resumes (data : List Byte) (bn fuel : Nat) (enough : data.length ≤ fuel) :
    (writeBlocksPart ip nbytes data bn >>= resume ip (fuel + 1)) = writeRest ip nbytes data bn := by
  unfold writeBlocksPart writeRest
  rw [writeBlocks]
  by_cases more : data.length > BSIZE
  · obtain ⟨spare, rfl⟩ : ∃ spare, fuel = spare + 1 := ⟨fuel - 1, by simp only [BSIZE] at more; omega⟩
    have shorter : (data.drop BSIZE).length ≤ spare := by
      rw [List.length_drop]
      simp only [BSIZE] at more ⊢
      omega
    rw [if_pos more, if_pos more]
    simp only [Exec.bind_assoc]
    apply pauseOn_resumes
    · rw [← writeRest, ← writeBlocksPart_resumes (data.drop BSIZE) (bn + 1) spare shorter]
      unfold stretch
      rw [Exec.bind_assoc]
    · rw [← writeRest, ← writeBlocksPart_resumes (data.drop BSIZE) (bn + 1) (spare + 1) (Nat.le_succ_of_le shorter), Exec.bind_assoc]
  · rw [if_neg more, if_neg more]
    exact pauseOn_resumes (.writeLast nbytes data bn) (writeLastPart_resumes fuel) (writeLastPart_resumes (fuel + 1))
  termination_by data.length
  decreasing_by
    all_goals
      rw [List.length_drop]
      simp only [BSIZE] at more ⊢
      omega

theorem writeFirstPart_resumes (data : List Byte) (off fuel : Nat) (enough : data.length ≤ fuel) :
    (writeFirstPart ip nbytes data off >>= resume ip (fuel + 1)) = (do
      writeBlock ip (off / BSIZE) (off % BSIZE) (data.take (BSIZE - off % BSIZE))
      if nbytes ≤ BSIZE - off % BSIZE then do
        touch ip
        iupdate ip
        pure (.wrote nbytes)
      else writeRest ip nbytes (data.drop (BSIZE - off % BSIZE)) (off / BSIZE + 1)) := by
  unfold writeFirstPart
  dsimp only
  rw [Exec.bind_assoc]
  congr 1
  funext _
  split
  next => exact finishWrite_resumes _
  next =>
    apply writeBlocksPart_resumes
    rw [List.length_drop]
    omega

/-- A write that nobody comes between. -/
theorem writePart_resumes (data : List Byte) (off fuel : Nat) (enough : data.length ≤ fuel) :
    (writePart ip data off >>= resume ip (fuel + 2)) = (do
      let nbytes ← inodeWriteNbytesLocked ip data off
      pure (.wrote nbytes)) := by
  unfold writePart inodeWriteNbytesLocked
  by_cases past : off > MAXFILE_SIZE
  · rw [if_pos past, if_pos past]
    rfl
  · rw [if_neg past, if_neg past]
    dsimp only
    generalize (if sizeT (off + data.length) > MAXFILE_SIZE then _ else data.length) = nbytes
    have short : (data.take nbytes).length ≤ fuel := by
      rw [List.length_take]
      omega
    simp only [Exec.bind_assoc]
    congr 1
    funext _
    congr 1
    funext _
    apply Eq.trans (pauseOn_resumes (.writeFirst nbytes (data.take nbytes) off) (writeFirstPart_resumes (data.take nbytes) off fuel short)
      (writeFirstPart_resumes (data.take nbytes) off (fuel + 1) (by omega)))
    congr 1
    funext _
    congr 1
    funext _
    split
    next => simp only [Exec.bind_assoc]; rfl
    next =>
      simp only [writeRest, Exec.bind_assoc]
      congr 1
      funext left
      congr 1
      funext _
      unfold writeEnd
      dsimp only
      split <;> (simp only [Exec.bind_assoc]; rfl)

/-- `inode_read_nbytes_locked` after its loop. -/
def readEnd (ip : Nat) (got : List Byte) : M FileAnswer := do
  iupdate ip
  let now ← getCurrentTimespec
  modifyCopy ip fun copy => { copy with st_atimespec := now }
  pure (.served got)

theorem finishRead_resumes (got : List Byte) (fuel : Nat) : (finishRead ip got >>= resume ip fuel) = readEnd ip got := by
  unfold finishRead readEnd
  simp only [Exec.bind_assoc]
  cases fuel <;> rfl

theorem readLast_resumes (got : List Byte) (nbytes bn fuel : Nat) : (stretch ip (.readLast got nbytes bn) >>= resume ip fuel) = (do
    let data ← readBlock ip bn 0 nbytes
    readEnd ip (got ++ data)) := by
  unfold stretch
  simp only [Exec.bind_assoc, finishRead_resumes]

theorem readBlocksPart_resumes (got : List Byte) (nbytes bn fuel : Nat) (enough : nbytes ≤ fuel) :
    (readBlocksPart ip got nbytes bn >>= resume ip (fuel + 1)) = (do
      let rest ← readBlocks ip nbytes bn
      readEnd ip (got ++ rest)) := by
  unfold readBlocksPart
  rw [readBlocks]
  by_cases more : nbytes > BSIZE
  · obtain ⟨spare, rfl⟩ : ∃ spare, fuel = spare + 1 := ⟨fuel - 1, by simp only [BSIZE] at more; omega⟩
    have shorter : nbytes - BSIZE ≤ spare := by
      simp only [BSIZE] at more ⊢
      omega
    rw [if_pos more, if_pos more]
    simp only [Exec.bind_assoc]
    have regroup : ∀ head, (do
        let rest ← readBlocks ip (nbytes - BSIZE) (bn + 1)
        (pure (head ++ rest) : M (List Byte)) >>= fun data => readEnd ip (got ++ data)) = (do
        let rest ← readBlocks ip (nbytes - BSIZE) (bn + 1)
        readEnd ip (got ++ head ++ rest)) := by
      intro head
      simp only [List.append_assoc]
      rfl
    simp only [regroup]
    apply pauseOn_resumes
    · unfold stretch
      simp only [Exec.bind_assoc, readBlocksPart_resumes _ (nbytes - BSIZE) (bn + 1) spare shorter]
    · simp only [Exec.bind_assoc, readBlocksPart_resumes _ (nbytes - BSIZE) (bn + 1) (spare + 1) (Nat.le_succ_of_le shorter)]
  · rw [if_neg more, if_neg more]
    by_cases some : nbytes ≠ 0
    · rw [if_pos some, if_pos some]
      simp only [Exec.bind_assoc]
      exact pauseOn_resumes (.readLast got nbytes bn) (readLast_resumes got nbytes bn fuel) (readLast_resumes got nbytes bn (fuel + 1))
    · rw [if_neg some, if_neg some, finishRead_resumes]
      exact (congrArg (readEnd ip) (List.append_nil got)).symm
  termination_by nbytes
  decreasing_by
    all_goals
      simp only [BSIZE] at more ⊢
      omega

theorem served_le {size nbytes off : Nat} (start : off ≤ size) : served size nbytes off ≤ nbytes := by
  unfold served sizeT
  split
  next beyond =>
    have := Nat.mod_le (off + nbytes) (2 ^ 64)
    have less : (off + nbytes) % 2 ^ 64 - size ≤ nbytes := by omega
    omega
  next => exact Nat.le_refl nbytes

/-- A read that nobody comes between. -/
theorem readPart_resumes (nbytes off fuel : Nat) (enough : nbytes ≤ fuel) :
    (readPart ip nbytes off >>= resume ip (fuel + 1)) = (do
      let data ← inodeReadNbytesLocked ip nbytes off
      pure (.served data)) := by
  funext fs
  unfold readPart inodeReadNbytesLocked
  simp only [Exec.bind_assoc]
  rw [bind_ok get_apply, bind_ok get_apply]
  by_cases past : off > (fs.inode ip).copy.size
  · rw [if_pos past, if_pos past]
    rfl
  · rw [if_neg past, if_neg past]
    have fewer : served (fs.inode ip).copy.size nbytes off ≤ nbytes := served_le (Nat.not_lt.mp past)
    unfold served at fewer
    generalize (if sizeT (off + nbytes) > (fs.inode ip).copy.size then _ else nbytes) = count at fewer
    simp only [Exec.bind_assoc]
    apply congrFun
    congr 1
    funext head
    split
    next =>
      simp only [Exec.bind_assoc]
      rfl
    next =>
      rw [readBlocksPart_resumes _ _ _ fuel (by omega)]
      unfold readEnd
      simp only [Exec.bind_assoc]
      rfl

/-- The locked call and what follows it. -/
theorem unlocks_after {program : M Stretch} {locked : M α} {answer : α → FileAnswer} (resumes : (program >>= resume ip fuel) = (do
    let value ← locked
    pure (answer value))) : (do
      let value ← locked
      iunlock ip
      endOp
      pure (answer value)) = (do
      let stretch ← program
      let answer ← resume ip fuel stretch
      iunlock ip
      endOp
      pure answer) := by
  have both := congrArg (fun program => program >>= fun answer => do
    iunlock ip
    endOp
    pure answer) resumes
  simp only [Exec.bind_assoc] at both
  exact both.symm

/-- A call from where it is to lock the inode. -/
def callFrom (ip fuel : Nat) (part : FilePart) : M FileAnswer := do
  ilock ip
  let stretch ← stretch ip part
  let answer ← resume ip fuel stretch
  iunlock ip
  endOp
  pure answer

theorem resume_again (fuel : Nat) (part : FilePart) : (do
    let answer ← resume ip (fuel + 1) (.again part)
    iunlock ip
    endOp
    pure answer) = (do
      iunlock ip
      endOp
      beginOp
      callFrom ip fuel part) := by
  unfold callFrom
  conv =>
    lhs
    unfold resume
  simp only [Exec.bind_assoc]

/-- A call alone is its stretches, each after the other. -/
theorem ioAlone_stretches (ip : Nat) (call : IoCall) : ∃ fuel, ioAlone ip call = (beginOp >>= fun _ => callFrom ip fuel call.part) := by
  cases call with
  | write data off =>
    have resumes := unlocks_after (@writePart_resumes ip data off data.length (Nat.le_refl _))
    refine ⟨data.length + 2, ?_⟩
    unfold ioAlone inodeWriteNbytesUnlocked callFrom
    simp only [Exec.bind_assoc]
    exact congrArg (fun rest => do beginOp; ilock ip; rest) resumes
  | read nbytes off =>
    have resumes := unlocks_after (@readPart_resumes ip nbytes off nbytes (Nat.le_refl _))
    refine ⟨nbytes + 1, ?_⟩
    unfold ioAlone inodeReadNbytesUnlocked callFrom
    simp only [Exec.bind_assoc]
    exact congrArg (fun rest => do beginOp; ilock ip; rest) resumes

end FS

namespace WriteThreads
variable {Thread : Type} [DecidableEq Thread] {ip : Nat} {start state after final : WriteThreads Thread} {thread : Thread}

theorem Runs.trans (head : Runs ip start state) (tail : Runs ip state after) : Runs ip start after := by
  induction tail with
  | nil => exact head
  | step _ stepped ih => exact ih.step stepped

theorem runs_one {here phase : FilePhase} {fs : FS} (place : state.phase thread = here) (stepped : next ip here state.fs = (.ok phase, fs)) :
    Runs ip state { fs, phase := assign state.phase thread phase } := by
  apply Runs.step .nil
  unfold step
  rw [place, stepped]

/-- A step of one thread before a run. -/
theorem runs_first (state : WriteThreads Thread) {here phase : FilePhase} {fs : FS} (place : state.phase thread = here) (stepped : next ip here state.fs = (.ok phase, fs))
    {answer : FileAnswer} {last : FS} (rest : Runs ip { fs, phase := assign state.phase thread phase }
      { fs := last, phase := assign (assign state.phase thread phase) thread (.returned answer) }) :
    Runs ip state { fs := last, phase := assign state.phase thread (.returned answer) } := by
  rw [assign_twice] at rest
  exact (runs_one place stepped).trans rest

/-- The inode is locked, worked on and unlocked in one step. -/
theorem works_returns {fs locked worked unlocked : FS} {part : FilePart} {stretched : Stretch} (locks : FS.ilock ip fs = (.ok (), locked))
    (stretches : FS.stretch ip part locked = (.ok stretched, worked)) (unlocks : FS.iunlock ip worked = (.ok (), unlocked)) :
    next ip (.opened part fs.n_log_wrote) fs = (.ok (.closing stretched unlocked.n_log_wrote), unlocked) := by
  change works ip part fs.n_log_wrote fs = _
  unfold works
  rw [bind_ok (modify_apply _)]
  apply (bind_ok locks).trans
  rw [bind_ok stretches, bind_ok unlocks, bind_ok get_apply]
  rfl

theorem closes_returns {fs closed : FS} (ends : FS.endOp fs = (.ok (), closed)) (stretched : Stretch) :
    next ip (.closing stretched fs.n_log_wrote) fs = (.ok (outsideAfter stretched), closed) := by
  change closes stretched fs.n_log_wrote fs = _
  unfold closes
  rw [bind_ok (modify_apply _)]
  apply (bind_ok ends).trans
  rfl

theorem opens_returns {fs began : FS} (begins : FS.beginOp fs = (.ok (), began)) (part : FilePart) :
    next ip (.outside part) fs = (.ok (.opened part began.n_log_wrote), began) := by
  change opens part fs = _
  unfold opens
  rw [bind_ok begins, bind_ok get_apply]
  rfl

/-- From where the inode is to be locked a thread alone does the rest of its call. -/
theorem callFrom_runs {answer : FileAnswer} {last : FS} (fuel : Nat) :
    ∀ (state : WriteThreads Thread) (part : FilePart), state.phase thread = .opened part state.fs.n_log_wrote →
      FS.callFrom ip fuel part state.fs = (.ok answer, last) →
      Runs ip state { fs := last, phase := assign state.phase thread (.returned answer) } := by
  have ends : ∀ (state : WriteThreads Thread) (part : FilePart) (answer' : FileAnswer) (locked worked : FS),
      state.phase thread = .opened part state.fs.n_log_wrote → FS.ilock ip state.fs = (.ok (), locked) →
      FS.stretch ip part locked = (.ok (.done answer'), worked) → (do
        FS.iunlock ip
        FS.endOp
        pure answer' : M FileAnswer) worked = (.ok answer, last) →
      Runs ip state { fs := last, phase := assign state.phase thread (.returned answer) } := by
    intro state part answer' locked worked place locks stretches returned
    obtain ⟨_, unlocked, unlocks, returned⟩ := bind_returns returned
    obtain ⟨_, closed, ends, returned⟩ := bind_returns returned
    cases returned
    apply runs_first state place (works_returns locks stretches unlocks)
    exact runs_one (assign_self _ _ _) (closes_returns ends _)
  induction fuel with
  | zero =>
    intro state part place returned
    obtain ⟨_, locked, locks, returned⟩ := bind_returns returned
    obtain ⟨stretched, worked, stretches, returned⟩ := bind_returns returned
    cases stretched with
    | done answer' => exact ends state part answer' locked worked place locks stretches returned
    | again part' => cases returned
  | succ fuel ih =>
    intro state part place returned
    obtain ⟨_, locked, locks, returned⟩ := bind_returns returned
    obtain ⟨stretched, worked, stretches, returned⟩ := bind_returns returned
    cases stretched with
    | done answer' => exact ends state part answer' locked worked place locks stretches returned
    | again part' =>
      rw [FS.resume_again] at returned
      obtain ⟨_, unlocked, unlocks, returned⟩ := bind_returns returned
      obtain ⟨_, closed, ends, returned⟩ := bind_returns returned
      obtain ⟨_, began, begins, returned⟩ := bind_returns returned
      apply runs_first state place (works_returns locks stretches unlocks)
      refine runs_first _ (assign_self thread _ state.phase) (closes_returns ends (.again part')) ?_
      refine runs_first _ (assign_self thread _ _) (opens_returns begins part') ?_
      exact ih ⟨began, _⟩ part' (assign_self _ _ _) returned

/-- What a call does when no other thread is there is a run of its thread's steps. -/
theorem alone_runs {call : IoCall} {answer : FileAnswer} {last : FS} (place : state.phase thread = .outside call.part)
    (returned : FS.ioAlone ip call state.fs = (.ok answer, last)) :
    Runs ip state { fs := last, phase := assign state.phase thread (.returned answer) } := by
  obtain ⟨fuel, stretches⟩ := FS.ioAlone_stretches ip call
  rw [stretches] at returned
  obtain ⟨_, began, begins, returned⟩ := bind_returns returned
  apply runs_first state place (opens_returns begins _)
  exact callFrom_runs fuel ⟨began, _⟩ call.part (assign_self _ _ _) returned

/-- Calls one after the other, each to its end. -/
def inTurn (ip : Nat) (calls : Thread → IoCall) : List Thread → M (List (Thread × FileAnswer))
  | [] => pure []
  | thread :: others => do
    let answer ← FS.ioAlone ip (calls thread)
    let answers ← inTurn ip calls others
    pure ((thread, answer) :: answers)

/-- Calls one after the other are among the runs, with the same answers. -/
theorem inTurn_runs {calls : Thread → IoCall} {answers : List (Thread × FileAnswer)} {last : FS} {order : List Thread} :
    ∀ state : WriteThreads Thread, order.Nodup → (∀ thread ∈ order, state.phase thread = .outside (calls thread).part) →
      inTurn ip calls order state.fs = (.ok answers, last) →
      ∃ after : WriteThreads Thread, Runs ip state after ∧ after.fs = last ∧ answers.map Prod.fst = order ∧
        (∀ thread answer, (thread, answer) ∈ answers → after.phase thread = .returned answer) ∧
        ∀ thread, thread ∉ order → after.phase thread = state.phase thread := by
  induction order generalizing answers with
  | nil =>
    intro state _ _ returned
    cases returned
    exact ⟨state, .nil, rfl, rfl, fun _ _ none => absurd none List.not_mem_nil, fun _ _ => rfl⟩
  | cons thread others ih =>
    intro state distinct outside returned
    obtain ⟨fresh, distinct⟩ := List.nodup_cons.mp distinct
    obtain ⟨answer, served, alone, returned⟩ := bind_returns returned
    obtain ⟨answers, _, rest, returned⟩ := bind_returns returned
    cases returned
    have head := alone_runs (outside thread List.mem_cons_self) alone
    have apart : ∀ {other}, other ∈ others → other ≠ thread := fun member same => fresh (same ▸ member)
    obtain ⟨after, tail, reached, listed, answered, kept⟩ := ih ⟨served, assign state.phase thread (.returned answer)⟩ distinct
      (fun other member => (assign_of_ne (apart member) _ _).trans (outside other (List.mem_cons_of_mem _ member))) rest
    refine ⟨after, head.trans tail, reached, by rw [List.map_cons, listed], fun other answer' member => ?_, fun other untouched => ?_⟩
    · cases List.mem_cons.mp member with
      | inl here =>
        cases here
        rw [kept thread fresh]
        exact assign_self _ _ _
      | inr later => exact answered other answer' later
    · rw [kept other fun member => untouched (List.mem_cons_of_mem _ member)]
      apply assign_of_ne
      intro same
      exact untouched (List.mem_cons.mpr (.inl same))

/-- Two writers of a new file. -/
def twoWriters : Bool → IoCall
  | true => .write [7] 1
  | false => .write [8, 9] 5

/-- A byte is written and then two. -/
theorem inTurn_runs_two : ∃ answers last, inTurn 0 twoWriters [true, false] FS.freshFile = (.ok answers, last) ∧
    ∃ after : WriteThreads Bool, Runs 0 (begun FS.freshFile twoWriters) after ∧ after.fs = last ∧ answers.map Prod.fst = [true, false] ∧
      ∀ thread answer, (thread, answer) ∈ answers → after.phase thread = .returned answer := by
  have computed : (valueOf (inTurn 0 twoWriters [true, false]) FS.freshFile).isSome = true := by decide +kernel
  obtain ⟨answers, value⟩ := Option.isSome_iff_exists.mp computed
  have returned := returns_of_valueOf value
  obtain ⟨after, runs, reached, listed, answered, -⟩ := inTurn_runs (begun FS.freshFile twoWriters) (by decide) (fun _ _ => rfl) returned
  exact ⟨answers, _, returned, after, runs, reached, listed, answered⟩

end WriteThreads
end Myfuse
