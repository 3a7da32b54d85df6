import Myfuse.Proofs.FileTree

/-! Calls on paths answer from the tree: each one begins an operation, walks, changes at most one name
and one inode, and ends with the tree it answered. -/

namespace Myfuse
open Library Library.Exec

namespace FS
variable {α : Type} {origin : Origin} {base floor refs : Nat → Int} {gone : Nat → Prop} {fs middle after : FS} {ip dp inum dir : Nat} {slots : Dirents}
  {tree : FileTree} {nodes : Set Nat} {names : NameTree Nat DirName}

/-! Entries in use. -/

namespace Occupied

theorem less (occupied : Occupied (plus refs ip) fs) : Occupied refs fs := fun other held => occupied other (Int.lt_of_lt_of_le held (le_plus refs ip other))

theorem more (occupied : Occupied refs fs) (used : (fs.current (fs.inode ip).inum).type ≠ T_UNUSE_INODE_MYFUSE) : Occupied (plus refs ip) fs := by
  intro other held
  by_cases here : other = ip
  · rw [here]
    exact used
  · rw [plus_of_ne here] at held
    exact occupied other held

/-- Steps keep the types of what is held. -/
theorem goes {refs' refs'' : Nat → Int} (occupied : Occupied refs fs) (tended : Tended origin base refs'' fs) (low : ∀ ip, refs ip ≤ refs'' ip)
    (goes : Goes origin floor refs refs' gone fs after)
    (kept : ∀ ip, 0 < refs ip → gone (fs.inode ip).inum → (after.current (fs.inode ip).inum).type ≠ T_UNUSE_INODE_MYFUSE) : Occupied refs after := by
  intro ip held
  rw [goes.stays.inum ip held]
  by_cases changed : gone (fs.inode ip).inum
  · exact kept ip held changed
  · rw [(goes.files.attrs _ (tended.table.inside ip (tended.live_iff.mpr (Int.lt_of_lt_of_le held (low ip)))) changed).type]
    exact occupied ip held

end Occupied

/-! Steps that leave the tree. -/

/-- A call begins. -/
theorem Bears.begins (bears : fs.Bears tree) :
    Ensures beginOp fs (fun _ after => Working (fs.here False False False) fs.refsOf tree after) fun _ _ => True := by
  have between := bears.between
  apply (between.ready.begins.and (beginOp_leaves between.mounted.books)).mono
  · intro _ after both
    obtain ⟨⟨usable, same, -, outstanding⟩, books⟩ := both
    have once : after.log.outstanding = 1 := by
      rw [outstanding, between.idle]
      decide
    refine ⟨⟨usable, Int.le_of_eq once.symm, ⟨_, books, rfl⟩, fun _ => Int.le_refl 0, between.counts, fun ip loaded => .inr ?_⟩, once, ?_, fun ip held => ?_,
      bears.carries.unchanged same.unchanged⟩
    · have before : fs.Loaded ip := by
        rw [Loaded, Live, same.inode, same.ninode] at loaded
        exact loaded
      exact (bears.saved ip before).same same.sb same.store (by rw [same.inode]) (by rw [same.inode])
    · rw [same.sb]
      exact bears.small
    · rw [same.inode, same.current]
      exact bears.occupied ip held
  · exact fun _ _ _ => trivial

namespace Working
variable (working : Working origin refs tree fs)
include working

/-- A call ends. -/
theorem ends : Ensures endOp fs (fun _ after => after.Bears tree) fun _ _ => True := by
  have tended := working.tended
  obtain ⟨account, books, known⟩ := tended.books
  apply (tended.usable.ends.and (endOp_leaves books)).mono
  · intro _ after both
    obtain ⟨⟨usable, same, -, outstanding⟩, books'⟩ := both
    have idle : after.log.outstanding = 0 := by
      rw [outstanding, working.alone]
      decide
    have counts : ∀ ip, (after.inode ip).ref = refs ip := by
      intro ip
      rw [same.inode, books.ref, known]
    refine ⟨⟨usable.ready, books'.1.mounted, idle, fun ip => ?_⟩, ?_, fun ip loaded => ?_, fun ip held => ?_, working.carries.unchanged same.unchanged⟩
    · rw [counts]
      exact tended.more ip
    · rw [same.sb]
      exact working.small
    · have before : fs.Loaded ip := by
        rw [Loaded, Live, same.inode, same.ninode] at loaded
        exact loaded
      exact (tended.isSaved before).same same.sb same.store (by rw [same.inode]) (by rw [same.inode])
    · rw [same.inode, same.current]
      rw [refsOf, counts] at held
      exact working.occupied ip held
  · exact fun _ _ _ => trivial

/-- Steps that change nothing of the files. -/
theorem same {refs' : Nat → Int} (goes : Goes origin allSaved floor refs' (fun _ => False) fs after) (occupied : Occupied refs' after) :
    Working origin refs' tree after := by
  refine ⟨goes.tended, goes.files.outstanding.trans working.alone, ?_, occupied, working.carries.spared goes.files fun _ _ => id⟩
  rw [goes.files.sb]
  exact working.small

/-- They keep the references. -/
theorem stays (goes : Goes origin allSaved refs refs (fun _ => False) fs after) : Working origin refs tree after :=
  working.same goes (working.occupied.goes working.tended (fun _ => Int.le_refl _) goes fun _ _ => False.elim)

/-- Steps that change what is not reached. -/
theorem spared {refs' : Nat → Int} (goes : Goes origin allSaved floor refs' gone fs after) (apart : ∀ inum, tree.Reached inum → ¬ gone inum)
    (occupied : Occupied refs' after) : Working origin refs' tree after := by
  refine ⟨goes.tended, goes.files.outstanding.trans working.alone, ?_, occupied, working.carries.spared goes.files apart⟩
  rw [goes.files.sb]
  exact working.small

theorem used (reached : tree.Reached inum) : (fs.current inum).type ≠ T_UNUSE_INODE_MYFUSE := working.carries.covers.used reached

/-- A reference more, to an inode of the tree. -/
theorem takes (goes : Goes origin allSaved refs (plus refs ip) (fun _ => False) fs after) (reached : tree.Reached (after.inode ip).inum) :
    Working origin (plus refs ip) tree after := by
  have carries := working.carries.spared goes.files fun _ _ => id
  have occupied := working.occupied.goes working.tended (fun _ => Int.le_refl _) goes fun _ _ => False.elim
  exact working.same goes (occupied.more (carries.covers.used reached))

/-- A path is walked to its inode. -/
theorem walks (plain : origin.Plain) (path : List Byte) :
    Ensures (path2inode path) fs
      (fun found after => (found = none ∧ tree.resolve path = none ∧ Working origin refs tree after) ∨
        ∃ ip, found = some ip ∧ tree.resolve path = some (after.inode ip).inum ∧ tree.Reached (after.inode ip).inum ∧
          Working origin (plus refs ip) tree after ∧ Stays refs fs after)
      fun _ _ => True := by
  apply (path2inode_goes plain working.tended working.carries.covers Relation.ReflTransGen.refl path).weaken
  intro found after walked
  obtain ⟨goes, reached⟩ := walked
  cases found with
  | none => exact .inl ⟨rfl, reached.symm, working.stays goes⟩
  | some ip =>
    have resolved : tree.resolve path = some (after.inode ip).inum := reached.symm
    have there : tree.Reached (after.inode ip).inum := NameTree.reached_of_walk resolved
    exact .inr ⟨ip, rfl, resolved, there, working.takes goes there, goes.stays⟩

/-- A path is walked to its parent directory. -/
theorem walksParent (plain : origin.Plain) (path : List Byte) :
    Ensures (path2parentinode path) fs
      (fun found after => (found = none ∧ tree.resolveParent path = none ∧ Working origin refs tree after) ∨
        ∃ dp name, found = some (dp, name) ∧ tree.resolveParent path = some ((after.inode dp).inum, DirName.of name) ∧
          tree.Reached (after.inode dp).inum ∧ Working origin (plus refs dp) tree after ∧ Stays refs fs after)
      fun _ _ => True := by
  apply (path2parentinode_goes plain working.tended working.carries.covers Relation.ReflTransGen.refl path).weaken
  intro found after walked
  obtain ⟨goes, reached⟩ := walked
  cases found with
  | none => exact .inl ⟨rfl, reached.symm, working.stays goes⟩
  | some place =>
    obtain ⟨dp, name⟩ := place
    have resolved : tree.resolveParent path = some ((after.inode dp).inum, DirName.of name) := reached.symm
    obtain ⟨init, -, walked⟩ := NameTree.parent_eq_some resolved
    have there : tree.Reached (after.inode dp).inum := NameTree.reached_of_walk walked
    exact .inr ⟨dp, name, rfl, resolved, there, working.takes goes there, goes.stays⟩

/-- A held inode is locked. -/
theorem locks (held : 0 < refs ip) :
    Ensures (ilock ip) fs (fun _ after => Working origin refs tree after ∧ after.Loaded ip ∧ Goes origin allSaved refs refs (fun _ => False) fs after)
      fun _ _ => True := by
  apply (ilock_goes working.tended held).weaken
  intro _ after locked
  exact ⟨working.stays locked.1, locked.2, locked.1⟩

end Working

/-- An inode of the tree is unlocked and given back. -/
theorem Working.puts (working : Working origin (plus refs ip) tree fs) (more : ∀ ip, 0 ≤ refs ip) (reached : tree.Reached (fs.inode ip).inum) :
    Ensures (iunlockput ip) fs (fun _ after => Working origin refs tree after ∧ Goes origin allSaved refs refs (fun _ => False) fs after)
      fun _ _ => True := by
  apply (iunlockput_goes working.tended more working.carries.covers reached).weaken
  intro _ after goes
  exact ⟨working.same goes (working.occupied.less.goes working.tended (le_plus refs ip) goes fun _ _ => False.elim), goes⟩

theorem plus_pos (refs : Nat → Int) (more : ∀ ip, 0 ≤ refs ip) (ip : Nat) : 0 < plus refs ip ip := by
  have := more ip
  rw [plus_self]
  omega

/-! Handles. -/

/-- Only the table of open files changed. -/
structure OnlyFiles (fs after : FS) : Prop extends Unmoved fs after where
  log : after.log = fs.log
  history : after.history = fs.history

theorem OnlyFiles.refl (fs : FS) : OnlyFiles fs fs := ⟨⟨rfl, rfl, rfl, rfl, rfl⟩, rfl, rfl⟩

theorem OnlyFiles.trans (first : OnlyFiles fs middle) (second : OnlyFiles middle after) : OnlyFiles fs after :=
  ⟨⟨second.sb.trans first.sb, second.store.trans first.store, second.inode.trans first.inode, second.ninode.trans first.ninode,
    second.bmap.trans first.bmap⟩, second.log.trans first.log, second.history.trans first.history⟩

theorem modifyFile_only (f : Nat) (change : File → File) {exit : Exit → FS → Prop} : Ensures (modifyFile f change) fs (fun _ after => OnlyFiles fs after) exit :=
  (ensures_modify _).mpr ⟨⟨rfl, rfl, rfl, rfl, rfl⟩, rfl, rfl⟩

theorem filealloc_only (fs : FS) : Ensures filealloc fs (fun _ after => OnlyFiles fs after) fun _ _ => False := by
  unfold filealloc
  rw [ensures_bind, ensures_get]
  split
  next f _ =>
    apply Ensures.bind (modifyFile_only f _)
    exact fun _ _ only => (ensures_pure _).mpr only
  next =>
    have grown : Ensures ftableGrow fs (fun _ after => OnlyFiles fs after) fun _ _ => False :=
      (ensures_modify _).mpr ⟨⟨rfl, rfl, rfl, rfl, rfl⟩, rfl, rfl⟩
    apply Ensures.bind grown
    intro _ _ first
    apply Ensures.bind (modifyFile_only fs.nfile _)
    exact fun _ _ second => (ensures_pure _).mpr (first.trans second)

theorem setAccess_only (file flags : Nat) (fs : FS) : Ensures (setAccess file flags) fs (fun _ after => OnlyFiles fs after) fun _ _ => False := by
  unfold setAccess
  split
  next => exact modifyFile_only file _
  next =>
    split
    next => exact modifyFile_only file _
    next =>
      split
      next => exact modifyFile_only file _
      next => exact modifyFile_only file _

/-- The tree does not depend on the handles. -/
theorem Working.refiled (working : Working origin refs tree fs) (only : OnlyFiles fs after) (books : ∃ account, Books account after ∧ account.refs = refs) :
    Working origin refs tree after := by
  have tended := working.tended
  have quiet : Quiet fs after := ⟨[], only.history, by simp⟩
  refine ⟨⟨⟨only.volume tended.usable.volume quiet, ?_, ?_⟩, ?_, books, tended.unsigned, tended.more, fun ip loaded => .inr ?_⟩, ?_, ?_, fun ip held => ?_,
    working.carries.unchanged only.unchanged⟩
  · rw [only.log]
    exact tended.usable.committing
  · rw [only.log]
    exact tended.usable.size
  · rw [only.log]
    exact tended.inOp
  · exact (tended.isSaved ((only.loaded ip).mp loaded)).same only.sb only.store (by rw [only.inode]) (by rw [only.inode])
  · rw [only.log]
    exact working.alone
  · rw [only.sb]
    exact working.small
  · rw [only.inode, only.current]
    exact working.occupied ip held

namespace Working
variable (working : Working origin refs tree fs)
include working

/-- A handle is made for an inode. -/
theorem points (inside : ip < fs.ninode) : Ensures filealloc fs
    (fun file middle => Ensures (modifyFile file fun f => { f with isInode := true, ip := some ip }) middle
      (fun _ after => Working origin refs tree after ∧ OnlyFiles fs after) fun _ _ => True) fun _ _ => True := by
  obtain ⟨account, books, rfl⟩ := working.tended.books
  apply ((filealloc_only fs).and (filealloc_leaves (books.knows inside))).mono
  · intro file middle both
    obtain ⟨first, files, books⟩ := both
    apply ((modifyFile_only file _).and (point_leaves books (Set.mem_insert ip _) file)).mono
    · intro _ after both
      obtain ⟨second, files, -, books⟩ := both
      have only := first.trans second
      exact ⟨working.refiled only ⟨_, books, rfl⟩, only⟩
    · exact fun _ _ (_ : True ∧ True) => trivial
  · exact fun _ _ _ => trivial

/-- The end of a call that opens an inode. -/
theorem opens (inside : ip < fs.ninode) (flags : Nat) : Ensures (openHandle ip flags) fs (fun _ after => after.Bears tree) fun _ _ => True := by
  unfold openHandle
  apply Ensures.bind (working.points inside)
  intro file allocated points
  apply Ensures.bind points
  intro _ pointed both
  obtain ⟨working, -⟩ := both
  obtain ⟨account, books, rfl⟩ := working.tended.books
  apply Ensures.bind (((setAccess_only file flags pointed).and ((setAccess_neutral file flags).leaves books)).mono (fun _ _ both => both) fun _ _ _ => trivial)
  intro _ given both
  have working := working.refiled both.1 ⟨account, both.2, rfl⟩
  rw [ensures_bind, ensures_of_ok (iunlock_eq ip given)]
  apply Ensures.bind (working.stays (iunlock_goes working.tended)).ends
  exact fun _ _ ended => (ensures_pure _).mpr ended

end Working

/-! Calls that look. -/

/-- `stat` fails only for a device. -/
theorem statInode_known {inode : Inode} (known : inode.copy.type = T_DIR_INODE_MYFUSE ∨ inode.copy.type = T_FILE_INODE_MYFUSE) : (statInode inode).1 = 0 := by
  unfold statInode
  cases known with
  | inl isDir => rw [if_pos isDir]
  | inr file => rw [if_neg (by rw [file]; decide), if_pos file]

theorem Carries.known (carries : fs.Carries tree) (reached : tree.Reached inum) :
    (fs.current inum).type = T_DIR_INODE_MYFUSE ∨ (fs.current inum).type = T_FILE_INODE_MYFUSE := by
  cases listed : tree.names inum with
  | none => exact .inr (carries.files inum reached listed).1
  | some entries =>
    have presents := carries.covers.presents inum reached
    rw [listed] at presents
    exact .inl presents.1

theorem Bears.getattr (bears : fs.Bears tree) (path : List Byte) :
    Ensures (myfuseGetattr path) fs (fun value after => after.Bears tree ∧ tree.Answers (.getattr path) value.1 tree) fun _ _ => True := by
  have plain := fs.here_plain
  apply Ensures.bind bears.begins
  intro _ began working
  apply Ensures.bind (working.walks plain path)
  intro found walked either
  obtain ⟨rfl, missing, working⟩ | ⟨ip, rfl, resolved, reached, working, -⟩ := either
  · apply Ensures.bind working.ends
    exact fun _ _ ended => (ensures_pure _).mpr ⟨ended, .getattrMissing missing⟩
  · have held := plus_pos fs.refsOf bears.between.counts ip
    apply Ensures.bind (working.locks held)
    intro _ locked both
    obtain ⟨working, loaded, goes⟩ := both
    rw [← goes.stays.inum ip held] at reached
    have known := working.carries.known reached
    rw [current_loaded working.tended.table loaded] at known
    rw [ensures_bind, ensures_get]
    apply Ensures.bind (working.puts bears.between.counts reached)
    intro _ put both
    apply Ensures.bind both.1.ends
    intro _ _ ended
    refine (ensures_pure _).mpr ⟨ended, ?_⟩
    rw [statInode_known known]
    exact .getattr resolved

theorem Bears.opendir (bears : fs.Bears tree) (path : List Byte) (fi : FuseFileInfo) :
    Ensures (myfuseOpendir path fi) fs (fun value after => after.Bears tree ∧ tree.Answers (.opendir path fi) value.1 tree) fun _ _ => True := by
  have plain := fs.here_plain
  apply Ensures.bind bears.begins
  intro _ began working
  apply Ensures.bind (working.walks plain path)
  intro found walked either
  obtain ⟨rfl, missing, working⟩ | ⟨ip, rfl, resolved, reached, working, -⟩ := either
  · apply Ensures.bind working.ends
    exact fun _ _ ended => (ensures_pure _).mpr ⟨ended, .opendirMissing missing⟩
  · have held := plus_pos fs.refsOf bears.between.counts ip
    apply Ensures.bind (working.locks held)
    intro _ locked both
    obtain ⟨working, loaded, goes⟩ := both
    rw [← goes.stays.inum ip held] at reached resolved
    have kind := (working.carries.covers.presents _ reached).directory_iff
    rw [current_loaded working.tended.table loaded] at kind
    rw [ensures_bind, ensures_get]
    split
    next other =>
      apply Ensures.bind (working.puts bears.between.counts reached)
      intro _ put both
      apply Ensures.bind both.1.ends
      intro _ _ ended
      have leaf : tree.names (locked.inode ip).inum = none := Option.not_isSome_iff_eq_none.mp (mt kind.mpr other)
      exact (ensures_pure _).mpr ⟨ended, .opendirFile resolved leaf⟩
    next isDir =>
      have directory := kind.mp (not_not.mp isDir)
      apply Ensures.bind (working.points loaded.1.1)
      intro file allocated points
      apply Ensures.bind points
      intro _ pointed both
      obtain ⟨working, only⟩ := both
      rw [ensures_bind, ensures_of_ok (iunlock_eq ip pointed)]
      apply Ensures.bind (working.stays (iunlock_goes working.tended)).ends
      exact fun _ _ ended => (ensures_pure _).mpr ⟨ended, .opendir resolved directory⟩

/-- A reference to an inode of the tree is given back. -/
theorem Working.drops (working : Working origin (plus refs ip) tree fs) (more : ∀ ip, 0 ≤ refs ip) (reached : tree.Reached (fs.inode ip).inum) :
    Ensures (iput ip) fs (fun _ after => Working origin refs tree after) fun _ _ => False := by
  apply (iput_goes working.tended more (working.carries.covers.linked _ reached)).mono
  · intro _ after goes
    have goes : Goes origin allSaved refs refs (fun _ => False) fs after := goes
    exact working.same goes (working.occupied.less.goes working.tended (le_plus refs ip) goes fun _ _ => False.elim)
  · exact fun _ _ => False.elim

theorem Bears.access (bears : fs.Bears tree) (path : List Byte) :
    Ensures (myfuseAccess path) fs (fun result after => after.log.outstanding = 0 → after.Bears tree ∧ tree.Answers (.access path) result tree)
      fun _ _ => True := by
  have plain := fs.here_plain
  apply Ensures.bind bears.begins
  intro _ began working
  apply Ensures.bind (working.walks plain path)
  intro found walked either
  obtain ⟨rfl, -, working⟩ | ⟨ip, rfl, resolved, reached, working, -⟩ := either
  · exact (ensures_pure _).mpr fun closed => absurd (closed.symm.trans working.alone) (by decide)
  · apply Ensures.bind ((working.drops bears.between.counts reached).mono (fun _ _ dropped => dropped) fun _ _ => False.elim)
    intro _ _ working
    apply Ensures.bind working.ends
    exact fun _ _ ended => (ensures_pure _).mpr fun _ => ⟨ended, .access resolved⟩

theorem Bears.chmod (bears : fs.Bears tree) (path : List Byte) (mode : Nat) :
    Ensures (myfuseChmod path mode) fs (fun result after => after.log.outstanding = 0 → after.Bears tree ∧ tree.Answers (.chmod path mode) result tree)
      fun _ _ => True := by
  have plain := fs.here_plain
  apply Ensures.bind bears.begins
  intro _ began working
  apply Ensures.bind (working.walks plain path)
  intro found walked either
  obtain ⟨rfl, -, working⟩ | ⟨ip, rfl, resolved, reached, working, -⟩ := either
  · exact (ensures_pure _).mpr fun closed => absurd (closed.symm.trans working.alone) (by decide)
  · have held := plus_pos fs.refsOf bears.between.counts ip
    apply Ensures.bind (working.locks held)
    intro _ locked both
    obtain ⟨working, loaded, goes⟩ := both
    have tended := working.tended
    rw [← goes.stays.inum ip held] at reached
    have ours : 0 < butOne ip ip := by
      unfold butOne
      rw [plus_self]
      exact Int.one_pos
    have used := working.used reached
    rw [current_loaded tended.table loaded] at used
    apply Ensures.bind ((tended.loosen held).stamps plain ours loaded (fun copy => { copy with perm := mode &&& 0o777 }) (fun _ => ⟨rfl, rfl, rfl⟩) fun _ => rfl)
    intro _ edited both
    obtain ⟨first, loaded', copy⟩ := both
    have first : Goes (fs.here False False False) (butOne ip) (plus fs.refsOf ip) (plus fs.refsOf ip) (fun _ => False) locked edited := first
    apply Ensures.bind (first.tended.stores plain loaded' (by rw [copy]; exact used) (by rw [copy]; exact (tended.isSaved loaded).whole))
    intro _ stored second
    have second : Goes (fs.here False False False) allSaved (plus fs.refsOf ip) (plus fs.refsOf ip) (fun _ => False) edited stored := second
    have both := second.follow first
    rw [← both.stays.inum ip held] at reached
    apply Ensures.bind ((working.stays both).puts bears.between.counts reached)
    intro _ _ both
    apply Ensures.bind both.1.ends
    exact fun _ _ ended => (ensures_pure _).mpr fun _ => ⟨ended, .chmod resolved⟩

/-- Without `O_CREAT`. -/
theorem Bears.openFile (bears : fs.Bears tree) (path : List Byte) (fi : FuseFileInfo) (only : fi.flags &&& O_CREAT = 0) :
    Ensures (myfuseOpen path fi) fs (fun value after => after.log.outstanding = 0 → after.Bears tree ∧ tree.Answers (.openFile path fi) value.1 tree)
      fun _ _ => True := by
  have plain := fs.here_plain
  apply Ensures.bind bears.begins
  intro _ began working
  apply Ensures.bind (working.walks plain path)
  intro found walked either
  obtain ⟨rfl, -, working⟩ | ⟨ip, rfl, resolved, -, working, -⟩ := either
  · rw [if_pos only]
    exact (ensures_pure _).mpr fun closed => absurd (closed.symm.trans working.alone) (by decide)
  · apply Ensures.bind (working.locks (plus_pos fs.refsOf bears.between.counts ip))
    intro _ locked both
    apply Ensures.bind (both.1.opens both.2.1.1.1 fi.flags)
    exact fun _ _ ended => (ensures_pure _).mpr fun _ => ⟨ended, .openFile resolved⟩

/-! Calls that make an inode. -/

theorem Presents.empty (blank : fs.Blank inum T_DIR_INODE_MYFUSE nlink) : fs.Presents inum (some PartialMap.empty) :=
  ⟨blank.type, [], ⟨blank.size, rfl, by decide⟩, List.nodup_nil, rfl⟩

theorem bare_empty : NameTree.Bare (some (PartialMap.empty : PartialMap DirName Nat)) := by
  intro listed same name
  cases same
  rfl

/-- The tree with a new inode. -/
theorem attach_reached {name : DirName} {entries : PartialMap DirName Nat} {kind : Option (PartialMap DirName Nat)} (reached : tree.Reached dir)
    (directory : tree.names dir = some entries) (free : entries name = none) (fresh : ¬ tree.Reached inum) (bare : NameTree.Bare kind) (other : Nat) :
    (tree.attach dir name inum kind).Reached other ↔ tree.Reached other ∨ other = inum := by
  have isSome : (tree.names dir).isSome := by
    rw [directory]
    rfl
  exact NameTree.reached_attach reached isSome ((NameTree.child_some directory).trans free) bare fresh other

/-- A new inode that is held and read. -/
structure NewInHand (refs : Nat → Int) (fs : FS) (ip inum : Nat) (type nlink : BitVec 16) : Prop where
  held : 0 < refs ip
  loaded : fs.Loaded ip
  names : (fs.inode ip).inum = inum
  blank : fs.Blank inum type nlink

namespace NewInHand
variable {type nlink : BitVec 16} (hand : NewInHand refs fs ip inum type nlink)
include hand

/-- Steps that leave the inode keep it in hand. -/
theorem goes {refs' : Nat → Int} (table : fs.TableOk) (goes : Goes origin base floor refs' gone fs after) (held : 0 < floor ip) (low : floor ip ≤ refs' ip)
    (kept : ¬ gone inum) : NewInHand refs' after ip inum type nlink := by
  have inside := table.inside ip hand.loaded.1
  rw [hand.names] at inside
  exact ⟨Int.lt_of_lt_of_le held low, goes.loaded held low hand.loaded, (goes.stays.inum ip held).trans hand.names, hand.blank.kept goes.files inside kept⟩

theorem inside (table : fs.TableOk) : inum < fs.sb.ninodes := by
  rw [← hand.names]
  exact table.inside ip hand.loaded.1

theorem copy (table : fs.TableOk) : fs.current inum = (fs.inode ip).copy := by
  rw [← hand.names]
  exact current_loaded table hand.loaded

/-- The inode gets its first link. -/
theorem linkedOnce (tended : Tended origin allSaved refs fs) (plain : origin.Plain) (typed : type ≠ T_UNUSE_INODE_MYFUSE) (change : Dinode → Dinode)
    (sameType : ∀ copy, (change copy).type = copy.type) (sameAddrs : ∀ copy, (change copy).addrs = copy.addrs) (sameSize : ∀ copy, (change copy).size = copy.size)
    (one : (change (fs.inode ip).copy).nlink = 1) {next : M α} {post : α → FS → Prop}
    (rest : ∀ after, Goes origin allSaved refs refs (· = inum) fs after → NewInHand refs after ip inum type 1 → Ensures next after post fun _ _ => True) :
    Ensures (do
      modifyCopy ip change
      let now ← getCurrentTimespec
      modifyCopy ip fun copy => { copy with st_atimespec := now, st_mtimespec := now, st_ctimespec := now }
      iupdate ip
      next) fs post fun _ _ => True := by
  have copy := hand.copy tended.table
  have used : (fs.inode ip).copy.type ≠ T_UNUSE_INODE_MYFUSE := by
    rw [← copy, hand.blank.type]
    exact typed
  have small : (fs.inode ip).copy.size < 2 ^ 64 := by
    rw [← copy, hand.blank.size]
    decide
  apply tended.changes plain hand.loaded used small change sameType sameAddrs sameSize
  intro after goes attrs
  have blank := hand.blank
  rw [hand.names] at goes attrs
  refine rest after goes ⟨hand.held, goes.loaded hand.held (Int.le_refl _) hand.loaded, (goes.stays.inum ip hand.held).trans hand.names, ?_, attrs.nlink.trans one, ?_⟩
  · rw [attrs.type, sameType, ← copy, blank.type]
  · rw [attrs.size, sameSize, ← copy, blank.size]

end NewInHand

namespace Working
variable (working : Working origin refs tree fs)
include working

theorem allocs {type : BitVec 16} (used : type ≠ T_UNUSE_INODE_MYFUSE) :
    Ensures (ialloc type) fs
      (fun ip after => ∃ inum, Fresh origin refs refs type inum ip fs after ∧ ¬ tree.Reached inum ∧ Working origin (plus refs ip) tree after)
      fun _ _ => True := by
  apply (ialloc_goes type working.tended (fun _ => Int.le_refl _) working.occupied).weaken
  intro ip after made
  obtain ⟨inum, fresh⟩ := made
  have outside := working.carries.fresh fresh.unused
  have occupied : Occupied refs after := by
    apply working.occupied.goes working.tended (fun _ => Int.le_refl _) fresh.goes
    intro other held same
    exact absurd fresh.unused (same ▸ working.occupied other held)
  refine ⟨inum, fresh, outside, working.spared fresh.goes (fun other reached same => outside (same ▸ reached)) (occupied.more ?_)⟩
  rw [fresh.names, fresh.blank.type]
  exact used

/-- A name is linked to an inode, unless it is there. -/
theorem links {entries : PartialMap DirName Nat} (plain : origin.Plain) (held : 0 < refs dp) (loaded : fs.Loaded dp)
    (reached : tree.Reached (fs.inode dp).inum) (directory : tree.names (fs.inode dp).inum = some entries) (name : Name) (inum : Inum) :
    Ensures (dirlink dp name inum.1) fs
      (fun result after => (entries (.of name) ≠ none ∧ result = -1 ∧ Goes origin allSaved refs refs (fun _ => False) fs after) ∨
        (entries (.of name) = none ∧ result = 0 ∧
          ∀ other, Relisted origin allSaved refs refs (fs.inode dp).inum other (entries.insert (.of name) inum.1) fs after))
      fun _ _ => True := by
  have table := working.tended.table
  obtain ⟨slots, hand, distinct, rfl, named⟩ := working.carries.covers.hand table held loaded reached directory
  apply (hand.links plain working.tended named name inum).weaken
  intro result after linked
  obtain ⟨present, rfl, goes⟩ | ⟨absent, rfl, wrote⟩ := linked
  · exact .inl ⟨fun none => entriesOf_none.mp none present, rfl, goes⟩
  · refine .inr ⟨entriesOf_none.mpr absent, rfl, fun other => ?_⟩
    rw [← entriesOf_put absent]
    exact wrote.relisted table loaded (distinct.put absent) other

/-- A new inode has its name. -/
theorem attaches {refs' : Nat → Int} {name : DirName} {entries : PartialMap DirName Nat} {kind : Option (PartialMap DirName Nat)} {type : BitVec 16}
    (relisted : Relisted origin allSaved refs' refs' dir inum (entries.insert name inum) fs after) (low : ∀ ip, refs' ip ≤ refs ip)
    (reached : tree.Reached dir) (directory : tree.names dir = some entries) (free : entries name = none) (fresh : ¬ tree.Reached inum)
    (inside : inum < fs.sb.ninodes) (bare : NameTree.Bare kind) (presents : after.Presents inum kind) (blank : after.Blank inum type 1)
    (file : kind = none → type = T_FILE_INODE_MYFUSE) : Working origin refs' (tree.attach dir name inum kind) after := by
  have goes := relisted.goes
  refine ⟨goes.tended, goes.files.outstanding.trans working.alone, ?_, ?_,
    working.carries.attaches goes.files reached directory free fresh inside bare relisted.presents relisted.nlink presents blank file⟩
  · rw [goes.files.sb]
    exact working.small
  · have before : Occupied refs' fs := fun ip held => working.occupied ip (Int.lt_of_lt_of_le held (low ip))
    apply before.goes working.tended low goes
    intro ip _ either
    cases either with
    | inl here =>
      rw [here]
      exact relisted.presents.used
    | inr new =>
      rw [new]
      exact presents.used

end Working

/-- An inode without links that is not in the tree is unlocked and given back. -/
theorem Working.letsGo (working : Working origin (plus refs ip) tree fs) (more : ∀ ip, 0 ≤ refs ip) (plain : origin.Plain) (loaded : fs.Loaded ip)
    (unlinked : (fs.inode ip).copy.nlink = 0) (outside : ¬ tree.Reached (fs.inode ip).inum) :
    Ensures (iunlockput ip) fs (fun _ after => Working origin refs tree after ∧ Stays refs fs after) fun _ _ => True := by
  have tended := working.tended
  apply (tended.letsGo more plain loaded unlinked).weaken
  intro _ after both
  obtain ⟨goes, kept⟩ := both
  refine ⟨working.spared goes ?_ ?_, goes.stays⟩
  · exact fun other reached same => outside (same ▸ reached)
  · apply working.occupied.less.goes tended (le_plus refs ip) goes
    intro other held same
    have live := tended.live_iff.mpr (Int.lt_of_lt_of_le held (le_plus refs ip other))
    obtain rfl := tended.table.unique other ip live loaded.1 same
    rw [((kept held).attrs _ (tended.table.inside other live) id).type]
    exact working.occupied.less other held

theorem Bears.mkdir (bears : fs.Bears tree) (path : List Byte) (mode : Nat) :
    Ensures (myfuseMkdir path mode) fs (fun result after => ∃ tree', after.Bears tree' ∧ tree.Answers (.mkdir path mode) result tree') fun _ _ => True := by
  have plain := fs.here_plain
  have isDir : T_DIR_INODE_MYFUSE ≠ T_UNUSE_INODE_MYFUSE := by decide
  have counts : ∀ ip, 0 ≤ fs.refsOf ip := bears.between.counts
  have more : ∀ ip other, 0 ≤ plus fs.refsOf ip other := fun ip other => (counts other).trans (le_plus fs.refsOf ip other)
  apply Ensures.bind bears.begins
  intro _ began working
  apply Ensures.bind (working.walksParent plain path)
  intro found walked either
  obtain ⟨rfl, -, working⟩ | ⟨dp, name, rfl, parent, reached, working, -⟩ := either
  · apply Ensures.bind (working.allocs isDir)
    intro ip made _
    apply Ensures.bind ensures_true
    exact fun _ _ _ => (ensures_stop _).mpr trivial
  · apply Ensures.bind (working.allocs isDir)
    intro ip made both
    obtain ⟨inum, fresh, outside, working⟩ := both
    have held := plus_pos (plus fs.refsOf dp) (more dp) ip
    have held_dp : 0 < plus (plus fs.refsOf dp) ip dp := Int.lt_of_lt_of_le (plus_pos fs.refsOf counts dp) (le_plus _ ip dp)
    have place := fresh.goes.stays.inum dp (plus_pos fs.refsOf counts dp)
    apply Ensures.bind (working.locks held)
    intro _ locked both
    obtain ⟨working, loaded, goes⟩ := both
    have hand : NewInHand (plus (plus fs.refsOf dp) ip) locked ip inum T_DIR_INODE_MYFUSE 0 := by
      refine ⟨held, loaded, (goes.stays.inum ip held).trans fresh.names, fresh.blank.kept goes.files ?_ id⟩
      rw [fresh.goes.files.sb]
      exact fresh.inside
    have place := (goes.stays.inum dp held_dp).trans place
    apply Ensures.bind (working.locks held_dp)
    intro _ ready both
    have hand := hand.goes working.tended.table both.2.2 held (Int.le_refl _) id
    have place := (both.2.2.stays.inum dp held_dp).trans place
    obtain ⟨working, loaded_dp, -⟩ := both
    have inside := hand.inside working.tended.table
    have fits := Nat.lt_of_lt_of_le inside working.small
    rw [← place] at parent reached
    obtain ⟨entries, directory⟩ := Option.isSome_iff_exists.mp (NameTree.parent_directory parent)
    have child : tree.names.child (ready.inode dp).inum (.of name) = entries (.of name) := NameTree.child_some directory
    rw [ensures_bind, ensures_get, hand.names]
    apply Ensures.bind (working.links plain held_dp loaded_dp reached directory name ⟨inum, fresh.positive, fits⟩)
    intro result entered either
    obtain ⟨taken, rfl, goes⟩ | ⟨free, rfl, relisted⟩ := either
    · have hand := hand.goes working.tended.table goes held (Int.le_refl _) id
      have working := working.stays goes
      have unlinked := hand.blank.nlink
      rw [hand.copy working.tended.table] at unlinked
      rw [if_pos (by decide)]
      apply Ensures.bind (working.letsGo (more dp) plain hand.loaded unlinked (hand.names.symm ▸ outside))
      intro _ _ both
      apply Ensures.bind both.1.ends
      exact fun _ _ ended => (ensures_pure _).mpr ⟨tree, ended, .mkdirTaken parent (child ▸ taken)⟩
    · have apart : (ready.inode dp).inum ≠ inum := fun same => outside (same ▸ reached)
      have inside_dp := working.carries.covers.inside _ reached
      have first := (relisted (ready.inode dp).inum).goes
      have linked : (entered.current (entered.inode dp).inum).nlink ≠ 0 := by
        rw [first.stays.inum dp held_dp, (relisted inum).nlink, working.carries.once _ reached]
        decide
      have hand := hand.goes working.tended.table first held (Int.le_refl _) fun either => either.elim apart.symm apart.symm
      have relisted := relisted inum
      rw [plus_comm] at first relisted
      rw [if_neg (not_not.mpr rfl)]
      -- The parent is given back, and the new inode gets its link.
      apply Ensures.bind (first.tended.leaves (more ip) linked)
      intro _ left put
      have put : Goes _ allSaved (plus fs.refsOf ip) (plus fs.refsOf ip) (fun _ => False) entered left := put
      have hand := hand.goes first.tended.table put (plus_pos fs.refsOf counts ip) (Int.le_refl _) id
      apply hand.linkedOnce put.tended plain isDir (fun copy => { copy with nlink := 1, perm := mode }) (fun _ => rfl) (fun _ => rfl) (fun _ => rfl) rfl
      intro current changed hand
      have relisted := (relisted.mono (le_plus (plus fs.refsOf ip) dp)).follow (put.mono (fun _ => Int.le_refl _) fun _ => False.elim) inside_dp apart
      have relisted := relisted.follow changed inside_dp apart
      have low : ∀ other, plus fs.refsOf ip other ≤ plus (plus fs.refsOf dp) ip other := by
        rw [plus_comm]
        exact le_plus (plus fs.refsOf ip) dp
      have working := working.attaches relisted low reached directory free outside inside bare_empty (.empty hand.blank) hand.blank
        (by intro none; cases none)
      have there : (tree.attach (ready.inode dp).inum (.of name) inum (some PartialMap.empty)).Reached (current.inode ip).inum := by
        rw [hand.names]
        exact (attach_reached reached directory free outside bare_empty inum).mpr (.inr rfl)
      apply Ensures.bind (working.puts counts there)
      intro _ _ both
      apply Ensures.bind both.1.ends
      exact fun _ _ ended => (ensures_pure _).mpr ⟨_, ended, .mkdir parent (child.trans free) outside⟩

theorem bare_leaf : NameTree.Bare (none : Option (PartialMap DirName Nat)) := by
  intro listed same
  cases same

theorem Bears.create (bears : fs.Bears tree) (path : List Byte) (mode : Nat) (fi : FuseFileInfo) :
    Ensures (myfuseCreate path mode fi) fs (fun value after => ∃ tree', after.Bears tree' ∧ tree.Answers (.create path mode fi) value.1 tree')
      fun _ _ => True := by
  have plain := fs.here_plain
  have isFile : T_FILE_INODE_MYFUSE ≠ T_UNUSE_INODE_MYFUSE := by decide
  have counts : ∀ ip, 0 ≤ fs.refsOf ip := bears.between.counts
  have more : ∀ ip other, 0 ≤ plus fs.refsOf ip other := fun ip other => (counts other).trans (le_plus fs.refsOf ip other)
  unfold myfuseCreate
  rw [ensures_ite]
  refine ⟨fun _ => (ensures_stop _).mpr trivial, fun _ => ?_⟩
  apply Ensures.bind bears.begins
  intro _ began working
  apply Ensures.bind (working.walksParent plain path)
  intro found walked either
  obtain ⟨rfl, missing, working⟩ | ⟨dp, name, rfl, parent, reached, working, -⟩ := either
  · apply Ensures.bind working.ends
    exact fun _ _ ended => (ensures_pure _).mpr ⟨tree, ended, .createMissing missing⟩
  · apply Ensures.bind (working.allocs isFile)
    intro ip made both
    obtain ⟨inum, fresh, outside, working⟩ := both
    have held := plus_pos (plus fs.refsOf dp) (more dp) ip
    have held_dp : 0 < plus (plus fs.refsOf dp) ip dp := Int.lt_of_lt_of_le (plus_pos fs.refsOf counts dp) (le_plus _ ip dp)
    have place := fresh.goes.stays.inum dp (plus_pos fs.refsOf counts dp)
    apply Ensures.bind (working.locks held)
    intro _ locked both
    obtain ⟨working, loaded, goes⟩ := both
    have hand : NewInHand (plus (plus fs.refsOf dp) ip) locked ip inum T_FILE_INODE_MYFUSE 0 := by
      refine ⟨held, loaded, (goes.stays.inum ip held).trans fresh.names, fresh.blank.kept goes.files ?_ id⟩
      rw [fresh.goes.files.sb]
      exact fresh.inside
    have place := (goes.stays.inum dp held_dp).trans place
    have one : (locked.inode ip).copy.nlink + 1 = 1 := by
      rw [← hand.copy working.tended.table, hand.blank.nlink]
      rfl
    apply hand.linkedOnce working.tended plain isFile (fun copy => { copy with nlink := copy.nlink + 1, perm := mode &&& 0o777 }) (fun _ => rfl)
      (fun _ => rfl) (fun _ => rfl) one
    intro current changed hand
    have place := (changed.stays.inum dp held_dp).trans place
    have working : Working (fs.here False False False) (plus (plus fs.refsOf dp) ip) tree current := by
      apply working.spared changed fun other reached same => outside (same ▸ reached)
      apply working.occupied.goes working.tended (fun _ => Int.le_refl _) changed
      intro other _ same
      rw [same, hand.blank.type]
      exact isFile
    apply Ensures.bind (working.locks held_dp)
    intro _ ready both
    have hand := hand.goes working.tended.table both.2.2 held (Int.le_refl _) id
    have place := (both.2.2.stays.inum dp held_dp).trans place
    obtain ⟨working, loaded_dp, -⟩ := both
    have inside := hand.inside working.tended.table
    have fits := Nat.lt_of_lt_of_le inside working.small
    rw [← place] at parent reached
    obtain ⟨entries, directory⟩ := Option.isSome_iff_exists.mp (NameTree.parent_directory parent)
    have child : tree.names.child (ready.inode dp).inum (.of name) = entries (.of name) := NameTree.child_some directory
    rw [ensures_bind, ensures_get, hand.names]
    apply Ensures.bind (working.links plain held_dp loaded_dp reached directory name ⟨inum, fresh.positive, fits⟩)
    intro result entered either
    -- The parent is given back, and the new inode gets its handle.
    have finish : ∀ {tree' : FileTree}, Working (fs.here False False False) (plus (plus fs.refsOf dp) ip) tree' entered → tree'.Reached (entered.inode dp).inum →
        tree.Answers (.create path mode fi) 0 tree' → Ensures (do
          iunlockput dp
          let file ← openHandle ip mode
          pure (0, { fi with fh := some file })) entered
          (fun value after => ∃ tree', after.Bears tree' ∧ tree.Answers (.create path mode fi) value.1 tree') fun _ _ => True := by
      intro tree' working reached answers
      rw [plus_comm] at working
      apply Ensures.bind (working.puts (more ip) reached)
      intro _ _ both
      obtain ⟨working, -⟩ := both
      apply Ensures.bind (working.opens (working.tended.live_iff.mpr (plus_pos fs.refsOf counts ip)).1 mode)
      exact fun _ _ ended => (ensures_pure _).mpr ⟨tree', ended, answers⟩
    obtain ⟨taken, -, goes⟩ | ⟨free, -, relisted⟩ := either
    · apply finish (working.stays goes)
      · rw [goes.stays.inum dp held_dp]
        exact reached
      · exact .createTaken parent (child ▸ taken)
    · have apart : (ready.inode dp).inum ≠ inum := fun same => outside (same ▸ reached)
      have first := (relisted (ready.inode dp).inum).goes
      have hand := hand.goes working.tended.table first held (Int.le_refl _) fun either => either.elim apart.symm apart.symm
      have working := working.attaches (relisted inum) (fun _ => Int.le_refl _) reached directory free outside inside bare_leaf (.inl hand.blank.type)
        hand.blank fun _ => rfl
      apply finish working
      · rw [first.stays.inum dp held_dp]
        exact (attach_reached reached directory free outside bare_leaf _).mpr (.inl reached)
      · exact .create parent (child.trans free) outside

/-! Calls that take a name away. -/

/-- The name of a held inode is cleared, and its last link is gone; the entry is not saved yet. -/
structure Unnamed (origin : Origin) (refs refs' : Nat → Int) (dp ip : Nat) (entries : PartialMap DirName Nat) (fs after : FS) : Prop where
  relisted : Relisted origin (butOne ip) refs refs' (fs.inode dp).inum (fs.inode ip).inum entries fs after
  loaded : after.Loaded ip
  type : (after.inode ip).copy.type = (fs.inode ip).copy.type
  nlink : (after.inode ip).copy.nlink = 0
  size : (after.inode ip).copy.size = (fs.inode ip).copy.size

/-- An inode of the tree and its directory are held and read. -/
structure AtName (refs : Nat → Int) (tree : FileTree) (dp ip : Nat) (name : DirName) (entries : PartialMap DirName Nat) (fs : FS) : Prop where
  held : 0 < refs ip
  held_dp : 0 < refs dp
  loaded : fs.Loaded ip
  loaded_dp : fs.Loaded dp
  reached : tree.Reached (fs.inode dp).inum
  directory : tree.names (fs.inode dp).inum = some entries
  found : entries name = some (fs.inode ip).inum

namespace AtName
variable {name : Name} {entries : PartialMap DirName Nat} (named : AtName refs tree dp ip (.of name) entries fs)
include named

theorem child : tree.names.child (fs.inode dp).inum (.of name) = some (fs.inode ip).inum := (NameTree.child_some named.directory).trans named.found

theorem reachedOwn : tree.Reached (fs.inode ip).inum := Relation.ReflTransGen.tail named.reached ⟨.of name, named.child⟩

theorem apart (single : tree.names.Single ROOTINO) : (fs.inode dp).inum ≠ (fs.inode ip).inum := (single.child_ne named.reached named.child).symm

/-- The link and the name are taken away. -/
theorem unnames (working : Working origin refs tree fs) (plain : origin.Plain) {cont : Option Nat → M α} {rest : M α} {post : α → FS → Prop}
    (next : ∀ after, Unnamed origin refs (plus refs ip) dp ip (entries.erase (.of name)) fs after → Ensures (cont (some ip)) after post fun _ _ => True) :
    Ensures (do
      modifyCopy ip fun copy => { copy with nlink := copy.nlink - 1 }
      let fs ← get
      if (fs.inode ip).copy.nlink = 0 then do
        let found ← clearDirent dp name
        cont found
      else rest) fs post fun _ _ => True := by
  have tended := working.tended
  have table := tended.table
  have ours : 0 < butOne ip ip := by
    unfold butOne
    rw [plus_self]
    exact Int.one_pos
  have apart := named.apart working.carries.single
  have once := working.carries.once _ named.reachedOwn
  rw [current_loaded table named.loaded] at once
  apply Ensures.bind ((tended.loosen named.held).edits plain ours named.loaded (fun copy => { copy with nlink := copy.nlink - 1 }) (fun _ => rfl) fun _ => rfl)
  intro _ edited both
  obtain ⟨goes, loaded, copy⟩ := both
  have goes : Goes origin (butOne ip) refs refs (· = (fs.inode ip).inum) fs edited := goes
  have zero : (edited.inode ip).copy.nlink = 0 := by
    rw [copy]
    show (fs.inode ip).copy.nlink - 1 = 0
    rw [once]
    rfl
  rw [ensures_bind, ensures_get, if_pos zero]
  obtain ⟨slots, hand, distinct, rfl, members⟩ := working.carries.covers.hand table named.held_dp named.loaded_dp named.reached named.directory
  have hand := hand.goes table goes named.held_dp (Int.le_refl _) apart
  have present : DirName.of name ∈ slots.keys := by
    by_contra absent
    have none := named.found
    rw [entriesOf_none.mpr absent] at none
    cases none
  apply Ensures.bind (hand.clears plain goes.tended (goes.files.sb ▸ members.inside) present)
  intro answer after cleared
  obtain ⟨found, inum, rfl, map, names, wrote⟩ := cleared
  have table' := wrote.goes.tended.table
  have own : (after.inode ip).inum = (fs.inode ip).inum := (wrote.goes.stays.inum ip named.held).trans (goes.stays.inum ip named.held)
  have same : inum.1 = (fs.inode ip).inum := by
    have value := named.found
    rw [entriesOf, map] at value
    exact Option.some.inj value
  have live : ∀ {other}, 0 < plus refs found other → after.Live other := fun held => wrote.goes.tended.live_iff.mpr held
  have here : found = ip := by
    apply table'.unique found ip
    · apply live
      apply plus_pos
      exact tended.more
    · exact live (Int.lt_of_lt_of_le named.held (le_plus refs found ip))
    · rw [names, own, same]
  subst here
  apply next
  have relisted := wrote.relisted goes.tended.table hand.loaded (distinct.clear _) (fs.inode found).inum
  rw [goes.stays.inum dp named.held_dp, entriesOf_clear distinct] at relisted
  have kept : ¬ (edited.inode found).inum = (edited.inode dp).inum := by
    rw [goes.stays.inum found named.held, goes.stays.inum dp named.held_dp]
    exact apart.symm
  have attrs := wrote.goes.copy goes.tended.table named.held (le_plus refs found found) loaded kept
  rw [copy] at attrs
  refine ⟨relisted.precede goes (table.inside dp named.loaded_dp.1) apart, wrote.goes.loaded named.held (le_plus refs found found) loaded, attrs.type, ?_, attrs.size⟩
  rw [attrs.nlink, ← copy]
  exact zero

end AtName

/-- Steps that leave the files keep it so. -/
theorem Unnamed.goes {refs' refs'' : Nat → Int} {entries : PartialMap DirName Nat} (unnamed : Unnamed origin refs refs' dp ip entries fs middle)
    (goes : Goes origin (butOne ip) refs refs'' (fun _ => False) middle after) (held : 0 < refs ip) (low : refs ip ≤ refs'' ip)
    (inside : (fs.inode dp).inum < fs.sb.ninodes) (apart : (fs.inode dp).inum ≠ (fs.inode ip).inum) :
    Unnamed origin refs refs'' dp ip entries fs after := by
  have attrs := goes.copy unnamed.relisted.goes.tended.table held low unnamed.loaded id
  exact ⟨unnamed.relisted.follow (goes.mono (fun _ => Int.le_refl _) fun _ => False.elim) inside apart, goes.loaded held low unnamed.loaded,
    attrs.type.trans unnamed.type, attrs.nlink.trans unnamed.nlink, attrs.size.trans unnamed.size⟩

namespace AtName
variable {name : Name} {entries : PartialMap DirName Nat} (named : AtName refs tree dp ip (.of name) entries fs)
include named

/-- The entry is saved, and the name is not in the tree any more. -/
theorem saves {refs' : Nat → Int} (working : Working origin refs tree fs) (plain : origin.Plain)
    (unnamed : Unnamed origin refs refs' dp ip (entries.erase (.of name)) fs middle) (low : ∀ other, refs other ≤ refs' other)
    (only : ∀ other, 0 < refs' other → 0 < refs other) :
    Ensures (iupdate ip) middle (fun _ after => Working origin refs' (tree.unlink (fs.inode dp).inum (.of name)) after ∧ after.Loaded ip ∧
      (after.inode ip).copy.nlink = 0 ∧ (after.inode ip).inum = (fs.inode ip).inum ∧ (after.inode dp).inum = (fs.inode dp).inum) fun _ _ => True := by
  have tended := working.tended
  have table := tended.table
  have apart := named.apart working.carries.single
  have inside := table.inside dp named.loaded_dp.1
  have typed := working.used named.reachedOwn
  rw [current_loaded table named.loaded] at typed
  have used : (middle.inode ip).copy.type ≠ T_UNUSE_INODE_MYFUSE := by
    rw [unnamed.type]
    exact typed
  have small : (middle.inode ip).copy.size < 2 ^ 64 := by
    rw [unnamed.size]
    exact (tended.isSaved named.loaded).whole
  apply (unnamed.relisted.goes.tended.stores plain unnamed.loaded used small).weaken
  intro _ after stored
  have stored : Goes origin allSaved refs refs' (fun _ => False) middle after := stored
  have relisted := unnamed.relisted.follow (stored.mono (fun _ => Int.le_refl _) fun _ => False.elim) inside apart
  have goes := relisted.goes
  have attrs := stored.copy unnamed.relisted.goes.tended.table named.held (low ip) unnamed.loaded id
  have loaded := stored.loaded named.held (low ip) unnamed.loaded
  have own := goes.stays.inum ip named.held
  refine ⟨⟨goes.tended, goes.files.outstanding.trans working.alone, ?_, ?_,
    working.carries.unlinks goes.files named.reached named.directory named.found relisted.presents relisted.nlink⟩, loaded, attrs.nlink.trans unnamed.nlink, own,
    goes.stays.inum dp named.held_dp⟩
  · rw [goes.files.sb]
    exact working.small
  · have occupied : Occupied refs after := by
      apply working.occupied.goes tended (fun _ => Int.le_refl _) goes
      intro other _ either
      cases either with
      | inl here =>
        rw [here]
        exact relisted.presents.used
      | inr here =>
        rw [here, ← own, current_loaded goes.tended.table loaded, attrs.type]
        exact used
    exact fun other held => occupied other (only other held)

end AtName

/-- The last name of a path is an entry of its directory. -/
theorem child_of_resolve {path : List Byte} {name : DirName} (parent : tree.resolveParent path = some (dir, name)) (resolved : tree.resolve path = some inum) :
    tree.names.child dir name = some inum := by
  have keys : keysOf path ≠ [] := by
    intro none
    rw [FileTree.resolveParent, none] at parent
    cases parent
  have last : ((tree.names.parent ROOTINO (keysOf path)).bind fun found => tree.names.child found.1 found.2) = tree.names.walk ROOTINO (keysOf path) :=
    NameTree.child_parent keys
  rw [FileTree.resolveParent] at parent
  rw [FileTree.resolve] at resolved
  rw [parent, resolved] at last
  exact last

/-- The directory is still in the tree. -/
theorem unlink_reached {name : DirName} (single : tree.names.Single ROOTINO) (reached : tree.Reached dir) : (tree.unlink dir name).Reached dir := by
  obtain ⟨keys, walked⟩ := NameTree.walk_of_reached reached
  have front : (tree.names.unlink dir name).walk ROOTINO keys = tree.names.walk ROOTINO keys :=
    (single.edits_unlink walked).walk NameTree.not_concat_prefix NameTree.not_concat_prefix
  exact NameTree.reached_of_walk (front.trans walked)

theorem Bears.unlink (bears : fs.Bears tree) (path : List Byte) :
    Ensures (myfuseUnlink path) fs (fun result after => ∃ tree', after.Bears tree' ∧ tree.Answers (.unlink path) result tree') fun _ _ => True := by
  have plain := fs.here_plain
  have counts : ∀ ip, 0 ≤ fs.refsOf ip := bears.between.counts
  have more : ∀ ip other, 0 ≤ plus fs.refsOf ip other := fun ip other => (counts other).trans (le_plus fs.refsOf ip other)
  apply Ensures.bind bears.begins
  intro _ began working
  apply Ensures.bind (working.walks plain path)
  intro found walked either
  obtain ⟨rfl, missing, working⟩ | ⟨ip, rfl, resolved, -, working, -⟩ := either
  · apply Ensures.bind working.ends
    exact fun _ _ ended => (ensures_pure _).mpr ⟨tree, ended, .unlinkMissing missing⟩
  · apply Ensures.bind (working.walksParent plain path)
    intro found there either
    obtain ⟨rfl, -, -⟩ | ⟨dp, name, rfl, parent, reached, working, stays⟩ := either
    · exact (ensures_stop _).mpr trivial
    · have held : 0 < plus (plus fs.refsOf ip) dp ip := Int.lt_of_lt_of_le (plus_pos fs.refsOf counts ip) (le_plus _ dp ip)
      have held_dp := plus_pos (plus fs.refsOf ip) (more ip) dp
      rw [← stays.inum ip (plus_pos fs.refsOf counts ip)] at resolved
      apply Ensures.bind (working.locks held_dp)
      intro _ locked both
      obtain ⟨working, loaded_dp, goes⟩ := both
      apply Ensures.bind (working.locks held)
      intro _ ready both
      obtain ⟨working, loaded, goes'⟩ := both
      have loaded_dp := goes'.loaded held_dp (Int.le_refl _) loaded_dp
      rw [← goes.stays.inum dp held_dp, ← goes'.stays.inum dp held_dp] at parent reached
      rw [← goes.stays.inum ip held, ← goes'.stays.inum ip held] at resolved
      obtain ⟨entries, directory⟩ := Option.isSome_iff_exists.mp (NameTree.parent_directory parent)
      have child := child_of_resolve parent resolved
      have named : AtName (plus (plus fs.refsOf ip) dp) tree dp ip (.of name) entries ready :=
        ⟨held, held_dp, loaded, loaded_dp, reached, directory, (NameTree.child_some directory).symm.trans child⟩
      have once := working.carries.once _ named.reachedOwn
      rw [current_loaded working.tended.table loaded] at once
      rw [ensures_bind, ensures_get, if_neg (by rw [once]; decide)]
      have apart := named.apart working.carries.single
      have inside := working.tended.table.inside dp loaded_dp.1
      have outside : ¬ (tree.unlink (ready.inode dp).inum (.of name)).Reached (ready.inode ip).inum := working.carries.single.unlinked reached child
      have still : (tree.unlink (ready.inode dp).inum (.of name)).Reached (ready.inode dp).inum := unlink_reached working.carries.single reached
      apply named.unnames working plain
      intro cleared unnamed
      have least := (working.tended.loosen held).more
      have tended := unnamed.relisted.goes.tended
      have shared : ¬ ((cleared.inode ip).ref = 1 ∧ (cleared.inode ip).valid = true ∧ (cleared.inode ip).copy.nlink = 0) := by
        intro all
        obtain ⟨account, books, known⟩ := tended.books
        have ref := books.ref ip
        rw [all.1, known, plus_self] at ref
        omega
      apply Ensures.bind ((iput_only tended least shared).mono (fun _ _ put => put) fun _ _ => False.elim)
      intro _ given put
      have unnamed := unnamed.goes put held (Int.le_refl _) inside apart
      apply Ensures.bind (named.saves working plain unnamed (fun _ => Int.le_refl _) fun _ => id)
      intro _ saved all
      obtain ⟨working, loaded, zero, own, place⟩ := all
      rw [plus_comm] at working
      apply Ensures.bind (working.letsGo (more dp) plain loaded zero (own.symm ▸ outside))
      intro _ left both
      obtain ⟨working, stays⟩ := both
      have place := (stays.inum dp (plus_pos fs.refsOf counts dp)).trans place
      apply Ensures.bind (working.puts counts (place.symm ▸ still))
      intro _ _ both
      apply Ensures.bind both.1.ends
      exact fun _ _ ended => (ensures_pure _).mpr ⟨_, ended, .unlink parent child⟩

/-- Whether a directory has an entry; for a file the bytes decide. -/
theorem Working.searches (working : Working origin refs tree fs) (plain : origin.Plain) (held : 0 < refs ip) (loaded : fs.Loaded ip)
    (reached : tree.Reached (fs.inode ip).inum) :
    Ensures (FS.hasDirent ip) fs
      (fun answer after => Goes origin allSaved refs refs (fun _ => False) fs after ∧
        if answer then ∀ entries, tree.names (fs.inode ip).inum = some entries → ∃ name, entries name ≠ none
        else NameTree.Bare (tree.names (fs.inode ip).inum))
      fun _ _ => True := by
  have table := working.tended.table
  cases listed : tree.names (fs.inode ip).inum with
  | none =>
    have used := working.used reached
    rw [current_loaded table loaded] at used
    have grips : Grips refs fs ip := ⟨held, loaded, used⟩
    apply (grips.hasDirent plain working.tended).weaken
    intro answer after goes
    refine ⟨goes, ?_⟩
    cases answer with
    | false => exact bare_leaf
    | true =>
      intro entries same
      cases same
  | some entries =>
    obtain ⟨slots, hand, -, rfl, -⟩ := working.carries.covers.hand table held loaded reached listed
    apply (hand.hasDirent plain working.tended).weaken
    intro answer after both
    obtain ⟨goes, rfl⟩ := both
    refine ⟨goes, ?_⟩
    by_cases empty : slots.keys = []
    · rw [if_neg (by simp [empty])]
      intro entries same name
      cases same
      apply entriesOf_none.mpr
      rw [empty]
      exact List.not_mem_nil
    · rw [if_pos (by simp [empty])]
      intro entries same
      cases same
      obtain ⟨name, inside⟩ := List.exists_mem_of_ne_nil _ empty
      exact ⟨name, fun none => entriesOf_none.mp none inside⟩

theorem Bears.rmdir (bears : fs.Bears tree) (path : List Byte) :
    Ensures (myfuseRmdir path) fs (fun result after => ∃ tree', after.Bears tree' ∧ tree.Answers (.rmdir path) result tree') fun _ _ => True := by
  have plain := fs.here_plain
  have counts : ∀ ip, 0 ≤ fs.refsOf ip := bears.between.counts
  have more : ∀ ip other, 0 ≤ plus fs.refsOf ip other := fun ip other => (counts other).trans (le_plus fs.refsOf ip other)
  apply Ensures.bind bears.begins
  intro _ began working
  apply Ensures.bind (working.walks plain path)
  intro found walked either
  obtain ⟨rfl, missing, working⟩ | ⟨ip, rfl, resolved, reached_ip, working, -⟩ := either
  · apply Ensures.bind working.ends
    exact fun _ _ ended => (ensures_pure _).mpr ⟨tree, ended, .rmdirMissing missing⟩
  · have held := plus_pos fs.refsOf counts ip
    apply Ensures.bind (working.locks held)
    intro _ locked both
    obtain ⟨working, loaded, goes⟩ := both
    rw [← goes.stays.inum ip held] at resolved reached_ip
    apply Ensures.bind (working.searches plain held loaded reached_ip)
    intro answer searched both
    obtain ⟨goes, answers⟩ := both
    have working := working.stays goes
    have loaded := goes.loaded held (Int.le_refl _) loaded
    rw [← goes.stays.inum ip held] at resolved reached_ip answers
    cases answer with
    | true =>
      apply Ensures.bind (working.puts counts reached_ip)
      intro _ _ both
      apply Ensures.bind both.1.ends
      exact fun _ _ ended => (ensures_pure _).mpr ⟨tree, ended, .rmdirKept resolved answers⟩
    | false =>
      apply Ensures.bind (working.walksParent plain path)
      intro found there either
      obtain ⟨rfl, -, -⟩ | ⟨dp, name, rfl, parent, reached, working, stays⟩ := either
      · exact (ensures_stop _).mpr trivial
      · have held_both : 0 < plus (plus fs.refsOf ip) dp ip := Int.lt_of_lt_of_le held (le_plus _ dp ip)
        have held_dp := plus_pos (plus fs.refsOf ip) (more ip) dp
        have loaded : there.Loaded ip := ⟨working.tended.live_iff.mpr held_both, stays.valid ip held loaded.2⟩
        rw [← stays.inum ip held] at resolved answers
        apply Ensures.bind (working.locks held_dp)
        intro _ ready both
        obtain ⟨working, loaded_dp, goes⟩ := both
        have loaded := goes.loaded held_both (Int.le_refl _) loaded
        rw [← goes.stays.inum dp held_dp] at parent reached
        rw [← goes.stays.inum ip held_both] at resolved answers
        obtain ⟨entries, directory⟩ := Option.isSome_iff_exists.mp (NameTree.parent_directory parent)
        have child := child_of_resolve parent resolved
        have named : AtName (plus (plus fs.refsOf ip) dp) tree dp ip (.of name) entries ready :=
          ⟨held_both, held_dp, loaded, loaded_dp, reached, directory, (NameTree.child_some directory).symm.trans child⟩
        have outside : ¬ (tree.unlink (ready.inode dp).inum (.of name)).Reached (ready.inode ip).inum := working.carries.single.unlinked reached child
        have still : (tree.unlink (ready.inode dp).inum (.of name)).Reached (ready.inode dp).inum := unlink_reached working.carries.single reached
        have only : ∀ other, 0 < plus (plus (plus fs.refsOf ip) dp) ip other → 0 < plus (plus fs.refsOf ip) dp other := by
          intro other more
          by_cases here : other = ip
          · rw [here]
            exact held_both
          · rw [plus_of_ne here] at more
            exact more
        apply named.unnames working plain
        intro cleared unnamed
        apply Ensures.bind (named.saves working plain unnamed (le_plus _ ip) only)
        intro _ saved all
        obtain ⟨working, loaded, zero, own, place⟩ := all
        -- The reference from the search is kept.
        rw [plus_comm (plus fs.refsOf ip) dp ip] at working
        have twice := plus_pos (plus fs.refsOf ip) (more ip) ip
        have counts' : ∀ other, 0 ≤ plus (plus fs.refsOf ip) ip other := fun other => (more ip other).trans (le_plus _ ip other)
        apply Ensures.bind (working.puts counts' (place.symm ▸ still))
        intro _ left both
        obtain ⟨next, goes⟩ := both
        have zero := (goes.copy working.tended.table twice (Int.le_refl _) loaded id).nlink.trans zero
        have loaded := goes.loaded twice (Int.le_refl _) loaded
        have own := (goes.stays.inum ip twice).trans own
        apply Ensures.bind (next.letsGo (more ip) plain loaded zero (own.symm ▸ outside))
        intro _ _ both
        apply Ensures.bind both.1.ends
        exact fun _ _ ended => (ensures_pure _).mpr ⟨_, ended, .rmdir parent child answers⟩

end FS
end Myfuse
