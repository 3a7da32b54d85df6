import Mathlib.Data.List.Perm.Basic
import Myfuse.FtableThreads
import Myfuse.Proofs.FileTable
import Myfuse.Proofs.WellFormed

/-! The table of open files under any order of the sections: an entry is given to one open
at a time, it is in use as long as there is a pointer to it, and the inode of each open is
put once, when its last pointer goes. -/

namespace Myfuse
open Library Library.Exec

namespace FS
variable {fs after : FS} {f : Nat}

/-- What `filealloc` gives: an entry without a reference, or the first of the new half. -/
structure Allotted (fs after : FS) (f : Nat) : Prop where
  inside : f < after.nfile
  grows : fs.nfile ≤ after.nfile
  own : (after.files f).ref = 1
  free : f < fs.nfile → (fs.files f).ref = 0
  others : ∀ other < fs.nfile, other ≠ f → after.files other = fs.files other
  fresh : ∀ other < after.nfile, fs.nfile ≤ other → other ≠ f → (after.files other).ref = 0

theorem filealloc_takes (size : 0 < fs.nfile) : Ensures filealloc fs (fun f after => Allotted fs after f) fun _ _ => False := by
  unfold filealloc modifyFile
  rw [ensures_bind, ensures_get]
  split
  next f found =>
    rw [ensures_bind, ensures_modify, ensures_pure]
    have inside := List.mem_range.mp (List.mem_of_find?_eq_some found)
    have unused := List.find?_some found
    simp only [decide_eq_true_eq] at unused
    refine ⟨inside, Nat.le_refl _, ?_, fun _ => unused, fun other _ apart => ?_, fun other low high _ => absurd low (Nat.not_lt.mpr high)⟩
    · dsimp only
      rw [assign_self]
    · dsimp only
      rw [assign_of_ne apart]
  next full =>
    unfold ftableGrow
    rw [ensures_bind, ensures_modify, ensures_bind, ensures_modify, ensures_pure]
    refine ⟨?_, ?_, ?_, fun low => absurd low (Nat.lt_irrefl _), fun other low apart => ?_, fun other low high apart => ?_⟩
    · dsimp only
      omega
    · dsimp only
      omega
    · dsimp only
      rw [assign_self]
    · dsimp only
      rw [assign_of_ne apart, if_neg (by omega)]
    · dsimp only at low ⊢
      rw [assign_of_ne apart, if_pos ⟨high, low⟩]
      rfl

/-- One entry changes. -/
structure FileSet (fs after : FS) (f : Nat) (file : File) : Prop where
  nfile : after.nfile = fs.nfile
  files : after.files = assign fs.files f file

theorem modifyFile_sets (change : File → File) : Ensures (modifyFile f change) fs (fun _ after => FileSet fs after f (change (fs.files f)))
    fun _ _ => False := by
  unfold modifyFile
  rw [ensures_modify]
  exact ⟨rfl, rfl⟩

theorem setAccess_sets (flags : Nat) : Ensures (setAccess f flags) fs
    (fun _ after => ∃ file, FileSet fs after f file ∧ file.ref = (fs.files f).ref ∧ file.ip = (fs.files f).ip) fun _ _ => False := by
  have enters (change : File → File) (same : ∀ file, (change file).ref = file.ref ∧ (change file).ip = file.ip) :
      Ensures (modifyFile f change) fs
        (fun _ after => ∃ file, FileSet fs after f file ∧ file.ref = (fs.files f).ref ∧ file.ip = (fs.files f).ip) fun _ _ => False :=
    (modifyFile_sets change).weaken fun _ _ entered => ⟨_, entered, same _⟩
  unfold setAccess
  split
  · exact enters _ fun _ => ⟨rfl, rfl⟩
  split
  · exact enters _ fun _ => ⟨rfl, rfl⟩
  split
  · exact enters _ fun _ => ⟨rfl, rfl⟩
  · exact enters _ fun _ => ⟨rfl, rfl⟩

/-- `fileclose` is its two sections. -/
theorem fileclose_sections (f : Nat) : fileclose f = (closeSection f >>= putSection) := by
  funext fs
  unfold fileclose closeSection
  rw [Exec.bind_assoc, bind_ok get_apply, bind_ok get_apply]
  split
  · rfl
  · rw [Exec.bind_assoc]
    by_cases more : (fs.files f).ref - 1 > 0
    · simp only [if_pos more]
      rfl
    · simp only [if_neg more]
      rfl

theorem closeSection_closes (used : 1 ≤ (fs.files f).ref) : Ensures (closeSection f) fs
    (fun last after => FileSet fs after f { fs.files f with ref := (fs.files f).ref - 1 } ∧
      last = if (fs.files f).ref - 1 > 0 then none else some (fs.files f).ip) fun _ _ => False := by
  unfold closeSection
  rw [ensures_bind, ensures_get, if_neg (Int.not_lt.mpr used)]
  apply Ensures.bind (modifyFile_sets _)
  intro _ after entered
  split
  · exact (ensures_pure _).mpr ⟨entered, rfl⟩
  · exact (ensures_pure _).mpr ⟨entered, rfl⟩

theorem putSection_files (last : Option (Option Nat)) : TableKept (putSection last) := by
  cases last with
  | none => exact .pure ()
  | some ip =>
    refine .bind beginOp_files fun _ => .bind ?_ fun _ => endOp_files
    cases ip with
    | none => exact .stop _
    | some ip => exact iput_files

end FS

namespace FtablePhase

/-- An entry whose `ip` is not set yet. -/
def fresh : FtablePhase → Option (Nat × Nat)
  | .allocated f serial _ _ => some (f, serial)
  | .idle | .allocating _ _ | .pointed _ _ _ _ | .closing _ _ | .putting _ => none

/-- An entry that no handle shows yet. -/
def fills : FtablePhase → Option (Nat × Nat × Nat)
  | .allocated f serial ip _ | .pointed f serial ip _ => some (f, serial, ip)
  | .idle | .allocating _ _ | .closing _ _ | .putting _ => none

def closes : FtablePhase → Option (Nat × Nat)
  | .closing f serial => some (f, serial)
  | .idle | .allocating _ _ | .allocated _ _ _ _ | .pointed _ _ _ _ | .putting _ => none

theorem fresh_fills {phase : FtablePhase} {f serial : Nat} (fresh : phase.fresh = some (f, serial)) : ∃ ip, phase.fills = some (f, serial, ip) := by
  cases phase with
  | allocated f' serial' ip flags =>
    cases fresh
    exact ⟨ip, rfl⟩
  | idle => cases fresh
  | allocating ip flags => cases fresh
  | pointed f' serial' ip flags => cases fresh
  | closing f' serial' => cases fresh
  | putting ip => cases fresh

end FtablePhase

namespace FtableThreads
variable {Thread : Type} [DecidableEq Thread] {state after : FtableThreads Thread} {thread : Thread} {fs fs' : FS}
  {refs refs' : List (FileRef Thread)} {opens : List Nat} {puts : List (Nat × Option Nat)} {f serial ip : Nat}

/-- The pointers to an entry. -/
def users (refs : List (FileRef Thread)) (f : Nat) : Nat := refs.countP fun ref => ref.f = f

omit [DecidableEq Thread] in
theorem users_cons (ref : FileRef Thread) (refs : List (FileRef Thread)) (f : Nat) :
    users (ref :: refs) f = users refs f + if ref.f = f then 1 else 0 := by
  unfold users
  rw [List.countP_cons]
  simp only [decide_eq_true_eq]

theorem users_erase {ref : FileRef Thread} (own : ref ∈ refs) (f : Nat) : users refs f = users (refs.erase ref) f + if ref.f = f then 1 else 0 := by
  have split := (List.perm_cons_erase own).countP_eq fun ref => decide (ref.f = f)
  unfold users
  rw [split, List.countP_cons]
  simp only [decide_eq_true_eq]

omit [DecidableEq Thread] in
theorem users_pos {ref : FileRef Thread} (own : ref ∈ refs) : 0 < users refs ref.f :=
  List.countP_pos_iff.mpr ⟨ref, own, decide_eq_true rfl⟩

omit [DecidableEq Thread] in
theorem users_zero (none : users refs f = 0) {ref : FileRef Thread} (own : ref ∈ refs) : ref.f ≠ f := by
  rintro rfl
  have some := users_pos own
  omega

/-! The counts. -/

/-- Every entry counts the pointers to it. -/
structure Table (fs : FS) (refs : List (FileRef Thread)) : Prop where
  started : 0 < fs.nfile
  inside : ∀ ref ∈ refs, ref.f < fs.nfile
  counts : ∀ f < fs.nfile, (fs.files f).ref = users refs f

namespace Table
variable (table : Table fs refs)
include table

omit [DecidableEq Thread] in
theorem used {ref : FileRef Thread} (own : ref ∈ refs) : 1 ≤ (fs.files ref.f).ref := by
  have some := users_pos own
  rw [table.counts _ (table.inside ref own)]
  omega

omit [DecidableEq Thread] in
/-- `filealloc` takes an entry that nothing points to. -/
theorem unused (taken : FS.Allotted fs fs' f) {ref : FileRef Thread} (own : ref ∈ refs) : ref.f ≠ f := by
  rintro rfl
  have used := table.used own
  rw [taken.free (table.inside ref own)] at used
  omega

omit [DecidableEq Thread] in
theorem takes (taken : FS.Allotted fs fs' f) (ref : FileRef Thread) (place : ref.f = f) : Table fs' (ref :: refs) where
  started := Nat.lt_of_lt_of_le table.started taken.grows
  inside ref' own := by
    cases List.mem_cons.mp own with
    | inl new =>
      rw [new, place]
      exact taken.inside
    | inr old => exact Nat.lt_of_lt_of_le (table.inside ref' old) taken.grows
  counts other low := by
    have none : users refs f = 0 := List.countP_eq_zero.mpr fun ref own => by
      rw [decide_eq_true_eq]
      exact table.unused taken own
    rw [users_cons, place]
    by_cases same : other = f
    · rw [same, taken.own, none, if_pos rfl]
      rfl
    · rw [if_neg (Ne.symm same), Nat.add_zero]
      by_cases old : other < fs.nfile
      · rw [taken.others other old same]
        exact table.counts other old
      · have outside : users refs other = 0 := List.countP_eq_zero.mpr fun ref own => by
          have inside := table.inside ref own
          rw [decide_eq_true_eq]
          omega
        rw [taken.fresh other low (Nat.not_lt.mp old) same, outside]
        rfl

omit [DecidableEq Thread] in
/-- An entry and the pointers to it change. -/
theorem enters {file : File} (entered : FS.FileSet fs fs' f file) (inside : ∀ ref ∈ refs', ref.f < fs.nfile) (own : file.ref = users refs' f)
    (others : ∀ other, other ≠ f → users refs' other = users refs other) : Table fs' refs' where
  started := by rw [entered.nfile]; exact table.started
  inside := by rw [entered.nfile]; exact inside
  counts other low := by
    rw [entered.nfile] at low
    rw [entered.files]
    by_cases same : other = f
    · rw [same, assign_self, own]
    · rw [assign_of_ne same, others other same]
      exact table.counts other low

omit [DecidableEq Thread] in
/-- Only who has the pointers changes. -/
theorem passes (same : fs'.files = fs.files ∧ fs'.nfile = fs.nfile) (inside : ∀ ref ∈ refs', ref.f < fs.nfile)
    (others : ∀ other, users refs' other = users refs other) : Table fs' refs' where
  started := by rw [same.2]; exact table.started
  inside := by rw [same.2]; exact inside
  counts other low := by
    rw [same.2] at low
    rw [same.1, others]
    exact table.counts other low

end Table

/-! The opens. -/

/-- Each open has pointers or is over, and its inode is put when it is. -/
structure Opens (refs : List (FileRef Thread)) (opens : List Nat) (puts : List (Nat × Option Nat)) : Prop where
  opened : ∀ ref ∈ refs, ref.serial < opens.length
  entry : ∀ ref ∈ refs, ∀ ref' ∈ refs, ref.f = ref'.f ↔ ref.serial = ref'.serial
  once : (puts.map Prod.fst).Nodup
  ended : ∀ serial ip, (serial, ip) ∈ puts → serial < opens.length ∧ ip = opens[serial]? ∧ ∀ ref ∈ refs, ref.serial ≠ serial
  accounted : ∀ serial < opens.length, (∃ ref ∈ refs, ref.serial = serial) ∨ ∃ ip, (serial, ip) ∈ puts

namespace Opens
variable (opened : Opens refs opens puts)
include opened

omit [DecidableEq Thread] in
/-- One more open. -/
theorem takes (free : ∀ ref ∈ refs, ref.f ≠ f) (holder : Option Thread) (ip : Nat) :
    Opens (⟨holder, f, opens.length⟩ :: refs) (opens ++ [ip]) puts where
  opened ref own := by
    rw [List.length_append]
    cases List.mem_cons.mp own with
    | inl new =>
      rw [new]
      exact Nat.lt_succ_self _
    | inr old => exact Nat.lt_succ_of_lt (opened.opened ref old)
  entry ref own ref' own' := by
    cases List.mem_cons.mp own with
    | inl new =>
      cases List.mem_cons.mp own' with
      | inl new' =>
        rw [new, new']
        exact ⟨fun _ => rfl, fun _ => rfl⟩
      | inr old' =>
        have apart := free ref' old'
        have before := opened.opened ref' old'
        rw [new]
        exact ⟨fun same => absurd same.symm apart, fun same => by dsimp only at same; omega⟩
    | inr old =>
      cases List.mem_cons.mp own' with
      | inl new' =>
        have apart := free ref old
        have before := opened.opened ref old
        rw [new']
        exact ⟨fun same => absurd same apart, fun same => by dsimp only at same; omega⟩
      | inr old' => exact opened.entry ref old ref' old'
  once := opened.once
  ended serial ip' past := by
    obtain ⟨before, put, none⟩ := opened.ended serial ip' past
    refine ⟨by rw [List.length_append]; exact Nat.lt_succ_of_lt before, by rw [List.getElem?_append_left before]; exact put, fun ref own => ?_⟩
    cases List.mem_cons.mp own with
    | inl new =>
      rw [new]
      exact Nat.ne_of_gt before
    | inr old => exact none ref old
  accounted serial low := by
    rw [List.length_append, List.length_singleton] at low
    by_cases new : serial = opens.length
    · exact .inl ⟨_, List.mem_cons_self, new.symm⟩
    · cases opened.accounted serial (by omega) with
      | inl pointed =>
        obtain ⟨ref, own, same⟩ := pointed
        exact .inl ⟨ref, List.mem_cons_of_mem _ own, same⟩
      | inr past => exact .inr past

omit [DecidableEq Thread] in
/-- Pointers change hands, and some may go as long as one stays. -/
theorem passes (old : ∀ ref ∈ refs', ∃ before ∈ refs, before.f = ref.f ∧ before.serial = ref.serial)
    (stays : ∀ ref ∈ refs, ∃ later ∈ refs', later.serial = ref.serial) : Opens refs' opens puts where
  opened ref own := by
    obtain ⟨before, own, -, serial⟩ := old ref own
    rw [← serial]
    exact opened.opened before own
  entry ref own ref' own' := by
    obtain ⟨before, own, f, serial⟩ := old ref own
    obtain ⟨before', own', f', serial'⟩ := old ref' own'
    rw [← f, ← f', ← serial, ← serial']
    exact opened.entry before own before' own'
  once := opened.once
  ended serial ip past := by
    obtain ⟨before, put, none⟩ := opened.ended serial ip past
    refine ⟨before, put, fun ref own => ?_⟩
    obtain ⟨before, own, -, same⟩ := old ref own
    rw [← same]
    exact none before own
  accounted serial low := by
    apply (opened.accounted serial low).imp_left
    intro pointed
    obtain ⟨ref, own, same⟩ := pointed
    obtain ⟨later, own, same'⟩ := stays ref own
    exact ⟨later, own, same'.trans same⟩

omit [DecidableEq Thread] in
/-- The last pointer of an open goes. -/
theorem ends {ref : FileRef Thread} (own : ref ∈ refs) (old : ∀ ref' ∈ refs', ref' ∈ refs) (none : ∀ ref' ∈ refs', ref'.f ≠ ref.f)
    (stays : ∀ ref' ∈ refs, ref'.f ≠ ref.f → ref' ∈ refs') (put : Option Nat) (right : put = opens[ref.serial]?) :
    Opens refs' opens ((ref.serial, put) :: puts) where
  opened ref' own' := opened.opened ref' (old ref' own')
  entry ref' own' ref'' own'' := opened.entry ref' (old ref' own') ref'' (old ref'' own'')
  once := by
    rw [List.map_cons]
    apply List.nodup_cons.mpr ⟨_, opened.once⟩
    intro before
    obtain ⟨⟨serial, ip⟩, past, same⟩ := List.mem_map.mp before
    exact (opened.ended serial ip past).2.2 ref own same.symm
  ended serial ip past := by
    cases List.mem_cons.mp past with
    | inl here =>
      cases here
      refine ⟨opened.opened ref own, right, fun ref' own' same => ?_⟩
      exact none ref' own' ((opened.entry ref' (old ref' own') ref own).mpr same)
    | inr before =>
      obtain ⟨low, put, none⟩ := opened.ended serial ip before
      exact ⟨low, put, fun ref' own' => none ref' (old ref' own')⟩
  accounted serial low := by
    cases opened.accounted serial low with
    | inl pointed =>
      obtain ⟨ref', own', same⟩ := pointed
      by_cases here : ref'.f = ref.f
      · rw [← same, (opened.entry ref' own' ref own).mp here]
        exact .inr ⟨put, List.mem_cons_self⟩
      · exact .inl ⟨ref', stays ref' own' here, same⟩
    | inr past =>
      obtain ⟨ip, past⟩ := past
      exact .inr ⟨ip, List.mem_cons_of_mem _ past⟩

end Opens

/-! The threads. -/

/-- What a thread has of the entry it works on, and what the others have not. -/
structure Places (fs : FS) (phase : Thread → FtablePhase) (refs : List (FileRef Thread)) (opens : List Nat) : Prop where
  pointer : ∀ ref ∈ refs, (fs.files ref.f).ip = opens[ref.serial]? ∨ ∃ thread, (phase thread).fresh = some (ref.f, ref.serial)
  filling : ∀ thread f serial ip, (phase thread).fills = some (f, serial, ip) →
    ⟨some thread, f, serial⟩ ∈ refs ∧ opens[serial]? = some ip ∧ ∀ ref ∈ refs, ref.f = f → ref.holder = some thread
  closing : ∀ thread f serial, (phase thread).closes = some (f, serial) → ⟨some thread, f, serial⟩ ∈ refs

/-- Pointers that a thread may pass on or use. -/
def Own (thread : Thread) (ref : FileRef Thread) : Prop := ref.holder = none ∨ ref.holder = some thread

namespace Places
variable {phase : Thread → FtablePhase} (places : Places fs phase refs opens)
include places

/-- A thread that fills no entry goes on with pointers of its own. -/
theorem moves {here : FtablePhase} (from' : (phase thread).fresh = none) (fills : here.fills = none)
    (ips : ∀ ref ∈ refs', (fs'.files ref.f).ip = (fs.files ref.f).ip)
    (old : ∀ ref ∈ refs', ref ∈ refs ∨ ∃ before ∈ refs, before.f = ref.f ∧ before.serial = ref.serial ∧ Own thread before)
    (stays : ∀ ref ∈ refs, ¬ Own thread ref → ref ∈ refs')
    (closes : ∀ f serial, here.closes = some (f, serial) → ⟨some thread, f, serial⟩ ∈ refs') :
    Places fs' (assign phase thread here) refs' opens where
  pointer ref own := by
    have before : ∃ before ∈ refs, before.f = ref.f ∧ before.serial = ref.serial := by
      cases old ref own with
      | inl same => exact ⟨ref, same, rfl, rfl⟩
      | inr passed =>
        obtain ⟨before, own, f, serial, -⟩ := passed
        exact ⟨before, own, f, serial⟩
    obtain ⟨before, own', f, serial⟩ := before
    rw [ips ref own, ← f, ← serial]
    apply (places.pointer before own').imp_right
    intro fresh
    obtain ⟨other, fresh⟩ := fresh
    refine ⟨other, ?_⟩
    rw [assign_of_ne]
    · exact fresh
    · rintro rfl
      rw [from'] at fresh
      cases fresh
  filling other f serial ip filled := by
    by_cases self : other = thread
    · rw [self, assign_self, fills] at filled
      cases filled
    · rw [assign_of_ne self] at filled
      obtain ⟨own, opened, alone⟩ := places.filling other f serial ip filled
      have foreign : ∀ {holder : Option Thread}, holder = some other → ¬ (holder = none ∨ holder = some thread) := by
        rintro holder rfl either
        cases either with
        | inl none => cases none
        | inr same => exact self (Option.some.inj same)
      refine ⟨stays _ own (foreign rfl), opened, fun ref own' same => ?_⟩
      cases old ref own' with
      | inl own' => exact alone ref own' same
      | inr passed =>
        obtain ⟨before, own', f', -, mine⟩ := passed
        exact absurd mine (foreign (alone before own' (f'.trans same)))
  closing other f serial closing := by
    by_cases self : other = thread
    · rw [self, assign_self] at closing
      rw [self]
      exact closes f serial closing
    · rw [assign_of_ne self] at closing
      apply stays _ (places.closing other f serial closing)
      intro mine
      cases mine with
      | inl none => cases none
      | inr same => exact self (Option.some.inj same)

/-- `filealloc` has given an entry to a thread. -/
theorem takes {flags : Option Nat} (taken : FS.Allotted fs fs' f) (inside : ∀ ref ∈ refs, ref.f < fs.nfile) (free : ∀ ref ∈ refs, ref.f ≠ f)
    (begun : ∀ ref ∈ refs, ref.serial < opens.length) (from' : (phase thread).fresh = none) :
    Places fs' (assign phase thread (.allocated f opens.length ip flags)) (⟨some thread, f, opens.length⟩ :: refs) (opens ++ [ip]) where
  pointer ref own := by
    cases List.mem_cons.mp own with
    | inl new =>
      rw [new]
      exact .inr ⟨thread, by rw [assign_self]; rfl⟩
    | inr old =>
      rw [taken.others ref.f (inside ref old) (free ref old), List.getElem?_append_left (begun ref old)]
      apply (places.pointer ref old).imp_right
      intro fresh
      obtain ⟨other, fresh⟩ := fresh
      refine ⟨other, ?_⟩
      rw [assign_of_ne]
      · exact fresh
      · rintro rfl
        rw [from'] at fresh
        cases fresh
  filling other f' serial ip' filled := by
    by_cases self : other = thread
    · rw [self, assign_self] at filled
      cases filled
      refine ⟨by rw [self]; exact List.mem_cons_self, by rw [List.getElem?_concat_length], fun ref own same => ?_⟩
      cases List.mem_cons.mp own with
      | inl new => rw [new, self]
      | inr old => exact absurd same (free ref old)
    · rw [assign_of_ne self] at filled
      obtain ⟨own, opened, alone⟩ := places.filling other f' serial ip' filled
      refine ⟨List.mem_cons_of_mem _ own, by rw [List.getElem?_append_left (begun _ own)]; exact opened, fun ref own' same => ?_⟩
      cases List.mem_cons.mp own' with
      | inl new =>
        rw [new] at same
        exact absurd same.symm (free _ own)
      | inr old => exact alone ref old same
  closing other f' serial closing := by
    by_cases self : other = thread
    · rw [self, assign_self] at closing
      cases closing
    · rw [assign_of_ne self] at closing
      exact List.mem_cons_of_mem _ (places.closing other f' serial closing)

/-- `file->ip` is set. -/
theorem points {flags : Option Nat} {file : File} (place : phase thread = .allocated f serial ip flags) (entered : FS.FileSet fs fs' f file)
    (set : file.ip = some ip) (entry : ∀ ref ∈ refs, ∀ ref' ∈ refs, ref.f = ref'.f ↔ ref.serial = ref'.serial) :
    Places fs' (assign phase thread (.pointed f serial ip flags)) refs opens := by
  have fills : (phase thread).fills = some (f, serial, ip) := by
    rw [place]
    rfl
  obtain ⟨own, opened, alone⟩ := places.filling thread f serial ip fills
  constructor
  · intro ref own'
    rw [entered.files]
    by_cases same : ref.f = f
    · have serials := (entry ref own' _ own).mp same
      rw [same, assign_self, set, serials]
      exact .inl opened.symm
    · rw [assign_of_ne same]
      apply (places.pointer ref own').imp_right
      intro fresh
      obtain ⟨other, fresh⟩ := fresh
      refine ⟨other, ?_⟩
      rw [assign_of_ne]
      · exact fresh
      · rintro rfl
        rw [place] at fresh
        cases fresh
        exact same rfl
  · intro other f' serial' ip' filled
    by_cases self : other = thread
    · rw [self, assign_self] at filled
      cases filled
      rw [self]
      exact ⟨own, opened, alone⟩
    · rw [assign_of_ne self] at filled
      exact places.filling other f' serial' ip' filled
  · intro other f' serial' closing
    by_cases self : other = thread
    · rw [self, assign_self] at closing
      cases closing
    · rw [assign_of_ne self] at closing
      exact places.closing other f' serial' closing

end Places

/-- What every section keeps. -/
structure Counted (state : FtableThreads Thread) : Prop where
  table : Table state.fs state.refs
  opened : Opens state.refs state.opens state.puts
  places : Places state.fs state.phase state.refs state.opens

omit [DecidableEq Thread] in
theorem run_cases {α : Type} {program : M α} {value : α} (ran : state.run program = some (value, after)) :
    ∃ fs, program state.fs = (.ok value, fs) ∧ after = { state with fs } := by
  unfold run at ran
  split at ran
  next value' fs returned =>
    cases ran
    exact ⟨fs, returned, rfl⟩
  next => cases ran

namespace Counted
variable (counted : state.Counted)
include counted

/-- The table and the pointers stay. -/
theorem stays {here : FtablePhase} (from' : (state.phase thread).fresh = none) (fills : here.fills = none) (closes : here.closes = none)
    (same : fs.files = state.fs.files ∧ fs.nfile = state.fs.nfile) : Counted ({ state with fs }.enter thread here) where
  table := counted.table.passes same counted.table.inside fun _ => rfl
  opened := counted.opened
  places := by
    apply counted.places.moves from' fills
    · exact fun ref _ => congrArg (fun files => (files ref.f).ip) same.1
    · exact fun ref own => .inl own
    · exact fun ref own _ => own
    · intro f serial closing
      rw [closes] at closing
      cases closing

theorem allocates {flags : Option Nat} (place : state.phase thread = .allocating ip flags) (taken : FS.Allotted state.fs fs f) :
    Counted ({ state with fs, refs := ⟨some thread, f, state.opens.length⟩ :: state.refs, opens := state.opens ++ [ip] }.enter thread
      (.allocated f state.opens.length ip flags)) := by
  have free : ∀ ref ∈ state.refs, ref.f ≠ f := fun ref own => counted.table.unused taken own
  refine ⟨counted.table.takes taken _ rfl, counted.opened.takes free _ ip, ?_⟩
  apply counted.places.takes taken counted.table.inside free counted.opened.opened
  rw [place]
  rfl

theorem points {flags : Option Nat} {file : File} (place : state.phase thread = .allocated f serial ip flags) (entered : FS.FileSet state.fs fs f file)
    (set : file.ip = some ip) (ref : file.ref = (state.fs.files f).ref) : Counted ({ state with fs }.enter thread (.pointed f serial ip flags)) := by
  have fills : (state.phase thread).fills = some (f, serial, ip) := by
    rw [place]
    rfl
  obtain ⟨own, -, -⟩ := counted.places.filling thread f serial ip fills
  refine ⟨?_, counted.opened, counted.places.points place entered set counted.opened.entry⟩
  apply counted.table.enters entered counted.table.inside _ fun _ _ => rfl
  rw [ref]
  exact counted.table.counts f (counted.table.inside _ own)

/-- A pointer of the thread, or an open handle, changes hands. -/
theorem hands {here : FtablePhase} {holder holder' : Option Thread} (from' : (state.phase thread).fresh = none) (fills : here.fills = none)
    (own : ⟨holder, f, serial⟩ ∈ state.refs) (mine : Own thread ⟨holder, f, serial⟩)
    (same : fs.nfile = state.fs.nfile ∧ ∀ other, (fs.files other).ref = (state.fs.files other).ref ∧ (fs.files other).ip = (state.fs.files other).ip)
    (closes : ∀ f' serial', here.closes = some (f', serial') → (⟨some thread, f', serial'⟩ : FileRef Thread) = ⟨holder', f, serial⟩) :
    Counted ({ state with fs, refs := ⟨holder', f, serial⟩ :: state.refs.erase ⟨holder, f, serial⟩ }.enter thread here) := by
  have members : ∀ ref ∈ (⟨holder', f, serial⟩ : FileRef Thread) :: state.refs.erase ⟨holder, f, serial⟩,
      ref ∈ state.refs ∨ ref = ⟨holder', f, serial⟩ := by
    intro ref inside
    cases List.mem_cons.mp inside with
    | inl new => exact .inr new
    | inr old => exact .inl (List.mem_of_mem_erase old)
  have before : ∀ ref ∈ (⟨holder', f, serial⟩ : FileRef Thread) :: state.refs.erase ⟨holder, f, serial⟩,
      ∃ before ∈ state.refs, before.f = ref.f ∧ before.serial = ref.serial := by
    intro ref inside
    cases members ref inside with
    | inl old => exact ⟨ref, old, rfl, rfl⟩
    | inr new =>
      rw [new]
      exact ⟨_, own, rfl, rfl⟩
  refine ⟨⟨?_, ?_, ?_⟩, ?_, ?_⟩
  · change 0 < fs.nfile
    rw [same.1]
    exact counted.table.started
  · intro ref inside
    obtain ⟨before, own, place, -⟩ := before ref inside
    rw [← place]
    change before.f < fs.nfile
    rw [same.1]
    exact counted.table.inside before own
  · intro other low
    change other < fs.nfile at low
    rw [same.1] at low
    change (fs.files other).ref = users (_ :: _) other
    rw [(same.2 other).1, counted.table.counts other low, users_cons, ← users_erase own]
  · apply counted.opened.passes before
    intro ref inside
    by_cases moved : ref = ⟨holder, f, serial⟩
    · exact ⟨_, List.mem_cons_self, by rw [moved]⟩
    · exact ⟨ref, List.mem_cons_of_mem _ ((List.mem_erase_of_ne moved).mpr inside), rfl⟩
  · apply counted.places.moves from' fills
    · exact fun ref _ => (same.2 ref.f).2
    · intro ref inside
      apply (members ref inside).imp_right
      rintro rfl
      exact ⟨_, own, rfl, rfl, mine⟩
    · intro ref inside foreign
      apply List.mem_cons_of_mem
      apply (List.mem_erase_of_ne _).mpr inside
      rintro rfl
      exact foreign mine
    · intro f' serial' closing
      rw [closes f' serial' closing]
      exact List.mem_cons_self

/-- One more pointer to an open handle. -/
theorem dups {ref : FileRef Thread} (own : ref ∈ state.refs) (open' : ref.holder = none) (place : state.phase thread = .idle)
    (entered : FS.FileSet state.fs fs ref.f { state.fs.files ref.f with ref := (state.fs.files ref.f).ref + 1 }) :
    Counted { state with fs, refs := ref :: state.refs } where
  table := by
    apply counted.table.enters entered
    · intro ref' own'
      cases List.mem_cons.mp own' with
      | inl new =>
        rw [new]
        exact counted.table.inside ref own
      | inr old => exact counted.table.inside ref' old
    · change (state.fs.files ref.f).ref + 1 = (users (ref :: state.refs) ref.f : Nat)
      rw [users_cons, if_pos rfl, counted.table.counts _ (counted.table.inside ref own)]
      rfl
    · intro other apart
      change users (ref :: state.refs) other = _
      rw [users_cons, if_neg (Ne.symm apart), Nat.add_zero]
  opened := by
    apply counted.opened.passes
    · intro ref' own'
      cases List.mem_cons.mp own' with
      | inl new => exact ⟨ref, own, by rw [new], by rw [new]⟩
      | inr old => exact ⟨ref', old, rfl, rfl⟩
    · exact fun ref' own' => ⟨ref', List.mem_cons_of_mem _ own', rfl⟩
  places := by
    have same : state.phase = assign state.phase thread .idle := by
      rw [← place, assign_eq_self]
    dsimp only
    rw [same]
    apply counted.places.moves (by rw [place]; rfl) rfl
    · intro ref' _
      rw [entered.files]
      by_cases here : ref'.f = ref.f
      · rw [here, assign_self]
      · rw [assign_of_ne here]
    · intro ref' own'
      cases List.mem_cons.mp own' with
      | inl new => exact .inr ⟨ref, own, by rw [new], by rw [new], .inl open'⟩
      | inr old => exact .inl old
    · exact fun ref' own' _ => List.mem_cons_of_mem _ own'
    · intro f serial closing
      cases closing

/-- A pointer of the thread goes. -/
theorem drops {here : FtablePhase} {puts : List (Nat × Option Nat)} (place : state.phase thread = .closing f serial)
    (entered : FS.FileSet state.fs fs f { state.fs.files f with ref := (state.fs.files f).ref - 1 }) (fills : here.fills = none)
    (closes : here.closes = none) (opened : Opens (state.refs.erase ⟨some thread, f, serial⟩) state.opens puts) :
    Counted ({ state with fs, refs := state.refs.erase ⟨some thread, f, serial⟩, puts }.enter thread here) where
  table := by
    have own := counted.places.closing thread f serial (by rw [place]; rfl)
    apply counted.table.enters entered
    · exact fun ref left => counted.table.inside ref (List.mem_of_mem_erase left)
    · have before := users_erase own f
      rw [if_pos rfl] at before
      change (state.fs.files f).ref - 1 = (users (state.refs.erase ⟨some thread, f, serial⟩) f : Nat)
      rw [counted.table.counts _ (counted.table.inside _ own), before]
      omega
    · intro other apart
      have before := users_erase own other
      rw [if_neg (Ne.symm apart)] at before
      exact before.symm
  opened := opened
  places := by
    apply counted.places.moves (by rw [place]; rfl) fills
    · intro ref _
      change (fs.files ref.f).ip = _
      rw [entered.files]
      by_cases here : ref.f = f
      · rw [here, assign_self]
      · rw [assign_of_ne here]
    · exact fun ref left => .inl (List.mem_of_mem_erase left)
    · intro ref own foreign
      apply (List.mem_erase_of_ne _).mpr own
      rintro rfl
      exact foreign (.inr rfl)
    · intro f' serial' closing
      rw [closes] at closing
      cases closing

/-- Another pointer to the entry stays. -/
theorem more (place : state.phase thread = .closing f serial) (many : (state.fs.files f).ref - 1 > 0) :
    Opens (state.refs.erase ⟨some thread, f, serial⟩) state.opens state.puts := by
  have own := counted.places.closing thread f serial (by rw [place]; rfl)
  apply counted.opened.passes
  · exact fun ref left => ⟨ref, List.mem_of_mem_erase left, rfl, rfl⟩
  · intro ref own'
    by_cases here : ref = ⟨some thread, f, serial⟩
    · have before := users_erase own f
      rw [if_pos rfl] at before
      have count := counted.table.counts _ (counted.table.inside _ own)
      have left : 0 < users (state.refs.erase ⟨some thread, f, serial⟩) f := by
        dsimp only at count
        omega
      obtain ⟨later, left, place⟩ := List.countP_pos_iff.mp left
      refine ⟨later, left, ?_⟩
      rw [here]
      exact (counted.opened.entry later (List.mem_of_mem_erase left) _ own).mp (of_decide_eq_true place)
    · exact ⟨ref, (List.mem_erase_of_ne here).mpr own', rfl⟩

/-- The last pointer goes, and the entry has the inode of its open. -/
theorem last (place : state.phase thread = .closing f serial) (few : ¬ (state.fs.files f).ref - 1 > 0) :
    Opens (state.refs.erase ⟨some thread, f, serial⟩) state.opens ((serial, (state.fs.files f).ip) :: state.puts) := by
  have own := counted.places.closing thread f serial (by rw [place]; rfl)
  have none : users (state.refs.erase ⟨some thread, f, serial⟩) f = 0 := by
    have before := users_erase own f
    rw [if_pos rfl] at before
    have count := counted.table.counts _ (counted.table.inside _ own)
    dsimp only at count
    omega
  apply counted.opened.ends own
  · exact fun ref left => List.mem_of_mem_erase left
  · exact fun ref left => users_zero none left
  · intro ref own' apart
    apply (List.mem_erase_of_ne _).mpr own'
    rintro rfl
    exact apart rfl
  · cases counted.places.pointer _ own with
    | inl set => exact set
    | inr fresh =>
      -- The thread that fills the entry would be this one.
      obtain ⟨other, fresh⟩ := fresh
      obtain ⟨ip, filled⟩ := FtablePhase.fresh_fills fresh
      have alone := (counted.places.filling other _ _ ip filled).2.2 _ own rfl
      cases alone
      rw [place] at filled
      cases filled

/-- The next section of a thread in a function. -/
theorem advances {phase : FtablePhase} (place : state.phase thread = phase) (stepped : state.advance thread phase = some after) : after.Counted := by
  cases phase with
  | idle => cases stepped
  | allocating ip flags =>
    dsimp only [advance] at stepped
    obtain ⟨⟨f, allocated⟩, ran, result⟩ := Option.map_eq_some_iff.mp stepped
    obtain ⟨fs, returned, rfl⟩ := run_cases ran
    cases result
    exact counted.allocates place ((FS.filealloc_takes counted.table.started).returned returned)
  | allocated f serial ip flags =>
    dsimp only [advance] at stepped
    obtain ⟨⟨_, pointed⟩, ran, result⟩ := Option.map_eq_some_iff.mp stepped
    obtain ⟨fs, returned, rfl⟩ := run_cases ran
    cases result
    exact counted.points place ((FS.modifyFile_sets _).returned returned) rfl rfl
  | pointed f serial ip flags =>
    have fills : (state.phase thread).fills = some (f, serial, ip) := by
      rw [place]
      rfl
    obtain ⟨own, -, -⟩ := counted.places.filling thread f serial ip fills
    cases flags with
    | none =>
      cases stepped
      apply counted.hands (by rw [place]; rfl) rfl own (.inr rfl) ⟨rfl, fun _ => ⟨rfl, rfl⟩⟩
      intro f' serial' closing
      cases closing
    | some flags =>
      obtain ⟨⟨_, accessed⟩, ran, result⟩ := Option.map_eq_some_iff.mp stepped
      obtain ⟨fs, returned, rfl⟩ := run_cases ran
      cases result
      obtain ⟨file, entered, ref, ip⟩ := (FS.setAccess_sets flags).returned returned
      apply counted.hands (by rw [place]; rfl) rfl own (.inr rfl)
      · refine ⟨entered.nfile, fun other => ?_⟩
        rw [entered.files]
        by_cases here : other = f
        · rw [here, assign_self]
          exact ⟨ref, ip⟩
        · rw [assign_of_ne here]
          exact ⟨rfl, rfl⟩
      · intro f' serial' closing
        cases closing
  | closing f serial =>
    dsimp only [advance] at stepped
    obtain ⟨⟨last, closed⟩, ran, result⟩ := Option.map_eq_some_iff.mp stepped
    obtain ⟨fs, returned, rfl⟩ := run_cases ran
    have own := counted.places.closing thread f serial (by rw [place]; rfl)
    obtain ⟨entered, lastIs⟩ := (FS.closeSection_closes (counted.table.used own)).returned returned
    by_cases many : (state.fs.files f).ref - 1 > 0
    · rw [if_pos many] at lastIs
      subst lastIs
      cases result
      exact counted.drops place entered rfl rfl (counted.more place many)
    · rw [if_neg many] at lastIs
      subst lastIs
      cases result
      exact counted.drops place entered rfl rfl (counted.last place many)
  | putting ip =>
    dsimp only [advance] at stepped
    obtain ⟨⟨_, put⟩, ran, result⟩ := Option.map_eq_some_iff.mp stepped
    obtain ⟨fs, returned, rfl⟩ := run_cases ran
    cases result
    exact counted.stays (by rw [place]; rfl) rfl rfl ((FS.putSection_files _ state.fs).returned returned)

theorem step {event : FtableEvent Thread} (holds : state.Holds event) (stepped : state.step event = some after) : after.Counted := by
  cases event with
  | «open» thread ip flags =>
    dsimp only [FtableThreads.step] at stepped
    split at stepped
    next place =>
      cases stepped
      exact counted.stays (by rw [place]; rfl) rfl rfl ⟨rfl, rfl⟩
    next => cases stepped
  | filedup thread ref =>
    dsimp only [FtableThreads.step] at stepped
    split at stepped
    next fs place dup =>
      cases stepped
      unfold FS.filedup at dup
      split at dup
      next => cases dup
      next =>
        cases dup
        exact counted.dups holds.1 holds.2 place ⟨rfl, rfl⟩
    next => cases stepped
  | release thread ref =>
    dsimp only [FtableThreads.step] at stepped
    split at stepped
    next place =>
      cases stepped
      apply counted.hands (by rw [place]; rfl) rfl holds.1 (.inl holds.2) ⟨rfl, fun _ => ⟨rfl, rfl⟩⟩
      intro f serial closing
      cases closing
      rfl
    next => cases stepped
  | next thread => exact counted.advances rfl stepped
  | other fs =>
    cases stepped
    refine ⟨counted.table.passes ⟨rfl, rfl⟩ counted.table.inside fun _ => rfl, counted.opened, ?_⟩
    exact ⟨counted.places.pointer, counted.places.filling, counted.places.closing⟩

end Counted

omit [DecidableEq Thread] in
theorem begun_counted (fs : FS) : (begun fs : FtableThreads Thread).Counted where
  table := ⟨(by decide : 0 < NFILE_INIT), fun _ none => absurd none List.not_mem_nil, fun _ _ => rfl⟩
  opened := by
    refine ⟨fun _ none => absurd none List.not_mem_nil, fun _ none => absurd none List.not_mem_nil, List.nodup_nil,
      fun _ _ none => absurd none List.not_mem_nil, fun serial low => ?_⟩
    exact absurd low (Nat.not_lt_zero serial)
  places := by
    refine ⟨fun _ none => absurd none List.not_mem_nil, fun thread f serial ip filled => ?_, fun thread f serial closing => ?_⟩
    · cases filled
    · cases closing

theorem Runs.counted {fs : FS} (runs : Runs (begun fs) state) : state.Counted := by
  induction runs with
  | nil => exact begun_counted fs
  | step _ holds stepped ih => exact ih.step holds stepped

omit [DecidableEq Thread] in
/-- An open handle shows the inode of its open. -/
theorem Counted.shows (counted : state.Counted) {ref : FileRef Thread} (own : ref ∈ state.refs) (open' : ref.holder = none) :
    (state.fs.files ref.f).ip = state.opens[ref.serial]? := by
  cases counted.places.pointer ref own with
  | inl set => exact set
  | inr fresh =>
    obtain ⟨other, fresh⟩ := fresh
    obtain ⟨ip, filled⟩ := FtablePhase.fresh_fills fresh
    have alone := (counted.places.filling other _ _ ip filled).2.2 ref own rfl
    rw [open'] at alone
    cases alone

/-- Whatever the order of the sections, an entry serves one open at a time, with its inode; the inode is put once, after
the last pointer is closed, and no open is forgotten. -/
theorem handles_put_once (runs : Runs (begun fs) state) :
    (∀ f < state.fs.nfile, (state.fs.files f).ref = users state.refs f) ∧
    (∀ ref ∈ state.refs, ∀ ref' ∈ state.refs, ref.f = ref'.f ↔ ref.serial = ref'.serial) ∧
    (∀ ref ∈ state.refs, ref.holder = none → (state.fs.files ref.f).ip = state.opens[ref.serial]?) ∧
    (state.puts.map Prod.fst).Nodup ∧
    (∀ serial ip, (serial, ip) ∈ state.puts → ip = state.opens[serial]? ∧ ∀ ref ∈ state.refs, ref.serial ≠ serial) ∧
    ∀ serial < state.opens.length, (∃ ref ∈ state.refs, ref.serial = serial) ∨ (serial, state.opens[serial]?) ∈ state.puts := by
  have counted := runs.counted
  refine ⟨counted.table.counts, counted.opened.entry, fun ref own open' => counted.shows own open', counted.opened.once,
    fun serial ip past => (counted.opened.ended serial ip past).2, fun serial low => ?_⟩
  apply (counted.opened.accounted serial low).imp_right
  intro past
  obtain ⟨ip, past⟩ := past
  rw [← (counted.opened.ended serial ip past).2.1]
  exact past

theorem Runs.goes {start : FtableThreads Thread} (before : Runs start state) (event : FtableEvent Thread) (holds : state.Holds event)
    (stepped : state.step event = some after) : Runs start after :=
  .step before holds stepped

/-- Two threads open two files, and one handle is duplicated and closed twice. -/
theorem handles_put_once_two : ∃ state : FtableThreads Bool, Runs (begun FS.freshFile) state ∧ state.opens = [3, 4] ∧ state.puts = [(0, some 3)] ∧
    (state.puts.map Prod.fst).Nodup := by
  have begins : Runs (begun FS.freshFile : FtableThreads Bool) _ := .nil
  have asked := (begins.goes (.open true 3 none) trivial rfl).goes (.open false 4 (some 2)) trivial rfl
  have allocated := (asked.goes (.next true) trivial rfl).goes (.next false) trivial rfl
  have pointed := (allocated.goes (.next false) trivial rfl).goes (.next true) trivial rfl
  have shown := (pointed.goes (.next true) trivial rfl).goes (.next false) trivial rfl
  have doubled := shown.goes (.filedup true ⟨none, 0, 0⟩) ⟨by decide, rfl⟩ rfl
  have closed := (doubled.goes (.release true ⟨none, 0, 0⟩) ⟨by decide, rfl⟩ rfl).goes (.next true) trivial rfl
  have last := (closed.goes (.release false ⟨none, 0, 0⟩) ⟨by decide, rfl⟩ rfl).goes (.next false) trivial rfl
  exact ⟨_, last, rfl, rfl, (handles_put_once last).2.2.2.1⟩

end FtableThreads
end Myfuse
