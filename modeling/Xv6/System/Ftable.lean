import Xv6.Lib.Pointing
import Xv6.Sched.Table

/-! The open-file table of file.c with the ends of pipes, and the descriptors that point into it. -/

namespace Xv6.System.Ftable
open Lib.Pointing Lib.Bytes Function
open Sched.Table (Slot Chan)

abbrev FileId := Fin NFILE
abbrev Fd := Fin NOFILE

inductive Kind where
  | none
  | pipe (page : Nat)
  | inode
  | device
  deriving DecidableEq

structure File where
  type : Kind
  ref : Nat
  readable : Bool
  writable : Bool
  deriving DecidableEq

def PIPESIZE : Nat := 512

structure Pipe where
  data : Buffer PIPESIZE
  nread : Nat
  nwrite : Nat
  readopen : Bool
  writeopen : Bool

def Pipe.isOpen (p : Pipe) (writable : Bool) : Bool := if writable then p.writeopen else p.readopen

def Pipe.shut (p : Pipe) (writable : Bool) : Pipe :=
  if writable then { p with writeopen := false } else { p with readopen := false }

theorem isOpen_shut_same (p : Pipe) (side : Bool) : (p.shut side).isOpen side = false := by
  cases side <;> rfl

theorem isOpen_shut_other (p : Pipe) (side other : Bool) (different : other ≠ side) :
    (p.shut side).isOpen other = p.isOpen other := by
  cases side <;> cases other <;> first | rfl | exact absurd rfl different

/-- The channels &pi->nread and &pi->nwrite of the pipe in a page. -/
def nreadChan (page : Nat) : Chan := .other (page * PGSIZE + 536)
def nwriteChan (page : Nat) : Chan := .other (page * PGSIZE + 540)

/-- The file table, the pipes by the pages they are in, and the descriptors of every process. -/
structure Files where
  ftable : FileId → File
  pipe : Nat → Pipe
  ofile : Slot × Fd → Option FileId

def Files.empty : Files where
  ftable _ := ⟨.none, 0, false, false⟩
  pipe _ := ⟨fun _ => 0, 0, 0, false, false⟩
  ofile _ := .none

namespace Files

def setFile (t : Files) (f : FileId) (file : File) : Files := { t with ftable := update t.ftable f file }

def setPipe (t : Files) (page : Nat) (p : Pipe) : Files := { t with pipe := update t.pipe page p }

def setFd (t : Files) (i : Slot) (fd : Fd) (f : Option FileId) : Files :=
  { t with ofile := update t.ofile (i, fd) f }

def filealloc (t : Files) : Option FileId × Files :=
  match (List.finRange NFILE).find? fun f => decide ((t.ftable f).ref = 0) with
  | none => (none, t)
  | some f => (some f, t.setFile f { t.ftable f with ref := 1 })

def filedup (t : Files) (f : FileId) : Except String Files :=
  if (t.ftable f).ref < 1 then .error "filedup"
  else .ok (t.setFile f { t.ftable f with ref := (t.ftable f).ref + 1 })

/-- What closing a file leaves to do: the channel to wake and the page to free. -/
structure Closing where
  wake : Option Chan
  free : Option Nat
  deriving DecidableEq

def pipeclose (t : Files) (page : Nat) (writable : Bool) : Closing × Files :=
  let p := (t.pipe page).shut writable
  let wake := if writable then nreadChan page else nwriteChan page
  (⟨wake, if p.readopen = false ∧ p.writeopen = false then some page else none⟩, t.setPipe page p)

/-- fileclose; the iput of an inode is not part of this table. -/
def fileclose (t : Files) (f : FileId) : Except String (Closing × Files) :=
  let ff := t.ftable f
  if ff.ref < 1 then .error "fileclose"
  else if 0 < ff.ref - 1 then .ok (⟨none, none⟩, t.setFile f { ff with ref := ff.ref - 1 })
  else
    let t := t.setFile f { ff with ref := 0, type := .none }
    match ff.type with
    | .pipe page => .ok (t.pipeclose page ff.writable)
    | _ => .ok (⟨none, none⟩, t)

def fdalloc (t : Files) (i : Slot) (f : FileId) : Option Fd × Files :=
  match (List.finRange NOFILE).find? fun fd => decide (t.ofile (i, fd) = none) with
  | none => (none, t)
  | some fd => (some fd, t.setFd i fd (some f))

/-- The two ends that pipealloc sets up once it has everything; junk is what the page held. -/
def openPipe (t : Files) (rf wf : FileId) (page : Nat) (junk : Buffer PIPESIZE) : Files :=
  ((t.setPipe page ⟨junk, 0, 0, true, true⟩).setFile rf ⟨.pipe page, (t.ftable rf).ref, true, false⟩).setFile wf
    ⟨.pipe page, (t.ftable wf).ref, false, true⟩

/-- Some open file is an end of the pipe in the page. -/
def Piped (t : Files) (page : Nat) : Prop := ∃ f, (t.ftable f).type = .pipe page

/-- The counts are exact, with extra references in local variables, and every pipe is known by its ends. -/
structure Ok (t : Files) (extra : FileId → Nat) : Prop where
  counts : ∀ f, (t.ftable f).ref = pointing t.ofile f + extra f
  idle : ∀ f, (t.ftable f).ref = 0 → (t.ftable f).type = .none
  ends : ∀ f page, (t.ftable f).type = .pipe page → (t.pipe page).isOpen (t.ftable f).writable = true
  unique : ∀ f f' page, (t.ftable f).type = .pipe page → (t.ftable f').type = .pipe page →
    (t.ftable f).writable = (t.ftable f').writable → f = f'
  backed : ∀ page writable, t.Piped page → (t.pipe page).isOpen writable = true →
    ∃ f, (t.ftable f).type = .pipe page ∧ (t.ftable f).writable = writable

theorem ok_empty : Ok empty 0 where
  counts f := by
    rw [(pointing_zero empty.ofile f).mpr nofun]
    rfl
  idle _ _ := rfl
  ends _ _ same := nomatch same
  unique _ _ _ same := nomatch same
  backed _ _ := by
    rintro ⟨_, same⟩
    nomatch same

@[simp] theorem ftable_setFile_same (t : Files) (f : FileId) (file : File) : (t.setFile f file).ftable f = file :=
  update_self _ _ _

theorem ftable_setFile_other {t : Files} {f g : FileId} {file : File} (different : g ≠ f) :
    (t.setFile f file).ftable g = t.ftable g :=
  update_of_ne different _ _

@[simp] theorem pipe_setPipe_same (t : Files) (page : Nat) (p : Pipe) : (t.setPipe page p).pipe page = p :=
  update_self _ _ _

theorem pipe_setPipe_other (t : Files) (page other : Nat) (p : Pipe) (different : other ≠ page) :
    (t.setPipe page p).pipe other = t.pipe other :=
  update_of_ne different _ _

variable {t : Files} {extra : FileId → Nat}

theorem Ok.setPlain (ok : Ok t extra) (f : FileId) (file : File) (extra' : FileId → Nat)
    (same : ∀ page, file.type = .pipe page ↔ (t.ftable f).type = .pipe page)
    (side : ∀ page, file.type = .pipe page → file.writable = (t.ftable f).writable)
    (here : file.ref = pointing t.ofile f + extra' f) (others : ∀ g, g ≠ f → extra' g = extra g)
    (idle : file.ref = 0 → file.type = .none) :
    Ok (t.setFile f file) extra' ∧ ∀ page, (t.setFile f file).Piped page ↔ t.Piped page := by
  have type : ∀ g page, ((t.setFile f file).ftable g).type = .pipe page ↔ (t.ftable g).type = .pipe page := by
    intro g page
    by_cases this : g = f
    · rw [this, ftable_setFile_same]
      exact same page
    · rw [ftable_setFile_other this]
  have writable : ∀ g page, (t.ftable g).type = .pipe page →
      ((t.setFile f file).ftable g).writable = (t.ftable g).writable := by
    intro g page kind
    by_cases this : g = f
    · rw [this] at kind ⊢
      rw [ftable_setFile_same]
      exact side page ((same page).mpr kind)
    · rw [ftable_setFile_other this]
  refine ⟨⟨fun g => ?_, fun g => ?_, fun g page kind => ?_, fun g g' page kind kind' sides => ?_, fun page side => ?_⟩,
    fun page => exists_congr fun g => type g page⟩
  · by_cases this : g = f
    · rw [this, ftable_setFile_same]
      exact here
    · rw [ftable_setFile_other this, others g this]
      exact ok.counts g
  · by_cases this : g = f
    · rw [this, ftable_setFile_same]
      exact idle
    · rw [ftable_setFile_other this]
      exact ok.idle g
  · rw [type] at kind
    rw [writable g page kind]
    exact ok.ends g page kind
  · rw [type] at kind kind'
    rw [writable g page kind, writable g' page kind'] at sides
    exact ok.unique g g' page kind kind' sides
  · rintro ⟨g, kind⟩ raised
    obtain ⟨g', kind', side'⟩ := ok.backed page side ⟨g, (type g page).mp kind⟩ raised
    exact ⟨g', (type g' page).mpr kind', (writable g' page kind').trans side'⟩

theorem Ok.setRef (ok : Ok t extra) (f : FileId) (ref : Nat) (extra' : FileId → Nat)
    (some : 0 < ref) (here : ref = pointing t.ofile f + extra' f) (others : ∀ g, g ≠ f → extra' g = extra g) :
    Ok (t.setFile f { t.ftable f with ref := ref }) extra' ∧
      ∀ page, (t.setFile f { t.ftable f with ref := ref }).Piped page ↔ t.Piped page :=
  ok.setPlain f _ extra' (fun _ => Iff.rfl) (fun _ _ => rfl) here others fun zero => absurd zero some.ne'

theorem filealloc_some (f : FileId) (t' : Files) (found : t.filealloc = (some f, t')) :
    (t.ftable f).ref = 0 ∧ t' = t.setFile f { t.ftable f with ref := 1 } := by
  unfold filealloc at found
  split at found
  · cases found
  · rename_i g search
    obtain ⟨same, rfl⟩ := Prod.mk.inj found
    obtain rfl := Option.some.inj same
    exact ⟨by simpa using List.find?_some search, rfl⟩

/-- One more or one fewer reference in a local variable. -/
def holding (extra : FileId → Nat) (f : FileId) : FileId → Nat := update extra f (extra f + 1)

theorem holding_comm (extra : FileId → Nat) (f g : FileId) (different : f ≠ g) :
    holding (holding extra f) g = holding (holding extra g) f := by
  unfold holding
  rw [update_of_ne different.symm, update_of_ne different, update_comm different.symm]

theorem Ok.filealloc (ok : Ok t extra) (f : FileId) (t' : Files) (found : t.filealloc = (some f, t')) :
    Ok t' (holding extra f) ∧ t'.ofile = t.ofile ∧ (∀ page, t'.Piped page ↔ t.Piped page) ∧
      (t.ftable f).type = .none ∧ (t'.ftable f).type = .none := by
  obtain ⟨zero, rfl⟩ := filealloc_some f t' found
  have count := ok.counts f
  obtain ⟨ok', piped⟩ := ok.setRef f 1 (holding extra f) (by decide) (by simp [holding]; omega)
    fun g other => update_of_ne other _ _
  refine ⟨ok', rfl, piped, ok.idle f zero, ?_⟩
  rw [ftable_setFile_same]
  exact ok.idle f zero

theorem Ok.setFd (ok : Ok t (holding extra f)) (i : Slot) (fd : Fd) (free : t.ofile (i, fd) = none) :
    Ok (t.setFd i fd (some f)) extra where
  counts g := by
    have count := ok.counts g
    have set := pointing_set t.ofile (i, fd) f g free
    change (t.ftable g).ref = pointing (update t.ofile (i, fd) (some f)) g + extra g
    unfold holding at count
    by_cases same : g = f
    · subst same
      rw [update_self] at count
      simp only [if_pos] at set
      omega
    · rw [update_of_ne same] at count
      rw [if_neg same] at set
      omega
  idle := ok.idle
  ends := ok.ends
  unique := ok.unique
  backed := ok.backed

theorem Ok.clearFd (ok : Ok t extra) (i : Slot) (fd : Fd) (f : FileId) (here : t.ofile (i, fd) = some f) :
    Ok (t.setFd i fd none) (holding extra f) where
  counts g := by
    have count := ok.counts g
    have clear := pointing_clear t.ofile (i, fd) f g here
    change (t.ftable g).ref = pointing (update t.ofile (i, fd) none) g + holding extra f g
    unfold holding
    by_cases same : g = f
    · subst same
      rw [update_self]
      simp only [if_pos] at clear
      omega
    · rw [update_of_ne same]
      rw [if_neg same] at clear
      omega
  idle := ok.idle
  ends := ok.ends
  unique := ok.unique
  backed := ok.backed

theorem Ok.filedup (ok : Ok t extra) (i : Slot) (fd : Fd) (f : FileId) (here : t.ofile (i, fd) = some f) :
    ∃ t', t.filedup f = .ok t' ∧ Ok t' (holding extra f) ∧ t'.ofile = t.ofile ∧ ∀ page, t'.Piped page ↔ t.Piped page := by
  have some := pointing_pos t.ofile (i, fd) f here
  have count := ok.counts f
  obtain ⟨ok', piped⟩ := ok.setRef f ((t.ftable f).ref + 1) (holding extra f) (by omega) (by simp [holding]; omega)
    fun g other => update_of_ne other _ _
  exact ⟨_, if_neg (by omega), ok', rfl, piped⟩

theorem filedup_setFd (t : Files) (f : FileId) (i : Slot) (fd : Fd) (value : Option FileId) :
    (t.setFd i fd value).filedup f = (t.filedup f).map (·.setFd i fd value) := by
  unfold Files.filedup
  change (if (t.ftable f).ref < 1 then _ else _) = _
  split_ifs <;> rfl

theorem fdalloc_some (i : Slot) (f : FileId) (fd : Fd) (t' : Files) (found : t.fdalloc i f = (some fd, t')) :
    t.ofile (i, fd) = none ∧ t' = t.setFd i fd (some f) := by
  unfold fdalloc at found
  split at found
  · cases found
  · rename_i fd' search
    obtain ⟨same, rfl⟩ := Prod.mk.inj found
    obtain rfl := Option.some.inj same
    exact ⟨by simpa using List.find?_some search, rfl⟩

theorem fileclose_setFd (t : Files) (f : FileId) (i : Slot) (fd : Fd) (value : Option FileId) :
    (t.setFd i fd value).fileclose f = (t.fileclose f).map fun r => (r.1, r.2.setFd i fd value) := by
  have file : (t.setFd i fd value).ftable f = t.ftable f := rfl
  unfold Files.fileclose
  simp only [file]
  by_cases unused : (t.ftable f).ref < 1
  · rw [if_pos unused, if_pos unused]
    rfl
  · rw [if_neg unused, if_neg unused]
    by_cases more : 0 < (t.ftable f).ref - 1
    · rw [if_pos more, if_pos more]
      rfl
    · rw [if_neg more, if_neg more]
      cases (t.ftable f).type <;> rfl

/-- What fileclose leaves behind: a pipe loses its page with its last end. -/
structure Dropped (t : Files) (extra : FileId → Nat) (closing : Closing) (t' : Files) : Prop where
  ok : Ok t' extra
  ofile : t'.ofile = t.ofile
  piped : ∀ page, t'.Piped page ↔ t.Piped page ∧ closing.free ≠ some page
  freed : ∀ page, closing.free = some page → t.Piped page

section Drop
variable {f : FileId}

section
variable (ok : Ok t (holding extra f))
include ok

theorem Ok.drop_counts (last : (t.ftable f).ref = 1) (file : File) (zero : file.ref = 0)
    (g : FileId) : ((t.setFile f file).ftable g).ref = pointing t.ofile g + extra g := by
  have count := ok.counts g
  unfold holding at count
  by_cases same : g = f
  · subst same
    rw [update_self] at count
    rw [ftable_setFile_same, zero]
    omega
  · rw [update_of_ne same] at count
    rw [ftable_setFile_other same, count]

theorem Ok.drop_plain (last : (t.ftable f).ref = 1) (plain : ∀ page, (t.ftable f).type ≠ .pipe page) :
    Dropped t extra ⟨none, none⟩ (t.setFile f { t.ftable f with ref := 0, type := .none }) := by
  have count := ok.counts f
  simp only [holding, update_self] at count
  obtain ⟨ok', piped⟩ := ok.setPlain f { t.ftable f with ref := 0, type := .none } extra
    (fun page => iff_of_false nofun (plain page)) nofun (by dsimp only; omega)
    (fun g other => (update_of_ne other _ _).symm) fun _ => rfl
  exact ⟨ok', rfl, fun page => by simp [piped], nofun⟩

theorem Ok.drop_pipe {w : Bool} {t' : Files} (last : (t.ftable f).ref = 1) (page : Nat) (kind : (t.ftable f).type = .pipe page)
    (side : (t.ftable f).writable = w) (cleared : t' = t.setFile f { t.ftable f with ref := 0, type := .none }) :
    Dropped t extra (t'.pipeclose page w).1 (t'.pipeclose page w).2 := by
  have self : t'.ftable f = { t.ftable f with ref := 0, type := .none } := by rw [cleared, ftable_setFile_same]
  have rest : ∀ g, g ≠ f → t'.ftable g = t.ftable g := fun g other => by rw [cleared, ftable_setFile_other other]
  have pipes : t'.pipe = t.pipe := by rw [cleared]; rfl
  have type : ∀ g other, ((t'.pipeclose page w).2.ftable g).type = .pipe other ↔
      g ≠ f ∧ (t.ftable g).type = .pipe other := by
    intro g other
    change (t'.ftable g).type = _ ↔ _
    by_cases same : g = f
    · rw [same, self]
      simp
    · rw [rest g same]
      simp [same]
  have writable : ∀ g, ((t'.pipeclose page w).2.ftable g).writable = (t.ftable g).writable := by
    intro g
    change (t'.ftable g).writable = _
    by_cases same : g = f
    · rw [same, self]
    · rw [rest g same]
  have here : (t'.pipeclose page w).2.pipe page = (t.pipe page).shut w := by
    rw [← pipes]
    exact pipe_setPipe_same _ _ _
  have elsewhere : ∀ other, other ≠ page → (t'.pipeclose page w).2.pipe other = t.pipe other := by
    intro other different
    rw [← pipes]
    exact pipe_setPipe_other _ _ _ _ different
  -- The other end, if some file has it, has the other flag.
  have opposite : ∀ g, g ≠ f → (t.ftable g).type = .pipe page → (t.ftable g).writable ≠ w := by
    intro g different kind' same
    exact different (ok.unique g f page kind' kind (same.trans side.symm))
  have counts : ∀ g, (t'.ftable g).ref = pointing t'.ofile g + extra g := by
    rw [cleared]
    exact ok.drop_counts last _ rfl
  have idle : ∀ g, (t'.ftable g).ref = 0 → (t'.ftable g).type = .none := by
    intro g
    by_cases same : g = f
    · rw [same, self]
      exact fun _ => rfl
    · rw [rest g same]
      exact ok.idle g
  have free : (t'.pipeclose page w).1.free = if (t.pipe page).isOpen (!w) then none else some page := by
    rw [← pipes]
    change (if ((t'.pipe page).shut w).readopen = false ∧ ((t'.pipe page).shut w).writeopen = false then some page
      else none) = _
    cases w <;> simp [Pipe.shut, Pipe.isOpen] <;> split <;> simp_all
  -- While the other flag is up there is another end.
  have remains : (t.pipe page).isOpen (!w) = true ↔ ∃ g, g ≠ f ∧ (t.ftable g).type = .pipe page := by
    constructor
    · intro raised
      obtain ⟨g, kind', other⟩ := ok.backed page (!w) ⟨f, kind⟩ raised
      refine ⟨g, ?_, kind'⟩
      rintro rfl
      rw [side] at other
      cases w <;> cases other
    · rintro ⟨g, different, kind'⟩
      have raised := ok.ends g page kind'
      have other := opposite g different kind'
      rwa [show (t.ftable g).writable = !w by cases w <;> simp_all] at raised
  refine ⟨⟨counts, idle, fun g other => ?_, fun g g' other => ?_, fun other side' => ?_⟩,
    by rw [cleared]; rfl, fun other => ?_, fun other gone => ?_⟩
  · rw [type, writable]
    rintro ⟨different, kind'⟩
    by_cases same : other = page
    · subst same
      rw [here, isOpen_shut_other _ _ _ (opposite g different kind')]
      exact ok.ends g other kind'
    · rw [elsewhere other same]
      exact ok.ends g other kind'
  · rw [type, type, writable, writable]
    rintro ⟨_, kind₁⟩ ⟨_, kind₂⟩
    exact ok.unique g g' other kind₁ kind₂
  · simp only [Piped, type, writable]
    rintro ⟨g, different, kind'⟩ raised
    by_cases same : other = page
    · subst same
      rw [here] at raised
      have sides : side' ≠ w := by
        rintro rfl
        rw [isOpen_shut_same] at raised
        cases raised
      rw [isOpen_shut_other _ _ _ sides] at raised
      obtain ⟨g', kind'', end'⟩ := ok.backed other side' ⟨g, kind'⟩ raised
      refine ⟨g', ⟨?_, kind''⟩, end'⟩
      rintro rfl
      exact sides (end'.symm.trans side)
    · rw [elsewhere other same] at raised
      obtain ⟨g', kind'', end'⟩ := ok.backed other side' ⟨g, kind'⟩ raised
      refine ⟨g', ⟨?_, kind''⟩, end'⟩
      rintro rfl
      rw [kind] at kind''
      exact same (Kind.pipe.inj kind'').symm
  · simp only [Piped, type]
    rw [free]
    by_cases same : other = page
    · subst same
      rw [← remains]
      by_cases raised : (t.pipe other).isOpen (!w) = true
      · simp only [raised, if_true, ne_eq, reduceCtorEq, not_false_eq_true, and_true, true_iff]
        exact ⟨f, kind⟩
      · simp [raised]
    · have kept : (if (t.pipe page).isOpen (!w) = true then none else some page) ≠ some other := by
        split <;> simp [Ne.symm same]
      simp only [kept, ne_eq, not_false_eq_true, and_true]
      constructor
      · rintro ⟨g, _, kind'⟩
        exact ⟨g, kind'⟩
      · rintro ⟨g, kind'⟩
        refine ⟨g, ?_, kind'⟩
        rintro rfl
        rw [kind] at kind'
        exact same (Kind.pipe.inj kind').symm
  · rw [free] at gone
    split at gone
    · cases gone
    · rw [← Option.some.inj gone]
      exact ⟨f, kind⟩

theorem Ok.fileclose : ∃ closing t', t.fileclose f = .ok (closing, t') ∧ Dropped t extra closing t' := by
  have count := ok.counts f
  simp only [holding, update_self] at count
  unfold Files.fileclose
  simp only
  rw [if_neg (by omega)]
  by_cases more : 0 < (t.ftable f).ref - 1
  · rw [if_pos more]
    obtain ⟨ok', piped⟩ := ok.setRef f ((t.ftable f).ref - 1) extra more (by omega)
      fun g other => (update_of_ne other _ _).symm
    exact ⟨_, _, rfl, ok', rfl, fun page => by simp [piped], nofun⟩
  · have last : (t.ftable f).ref = 1 := by omega
    rw [if_neg more]
    cases kind : (t.ftable f).type with
    | pipe page => exact ⟨_, _, rfl, ok.drop_pipe last page kind rfl rfl⟩
    | none | inode | device => exact ⟨_, _, rfl, ok.drop_plain last (fun page same => by rw [kind] at same; cases same)⟩

end

end Drop

theorem Ok.openPipe (ok : Ok t extra) (rf wf : FileId) (page : Nat) (junk : Buffer PIPESIZE) (different : rf ≠ wf)
    (bareR : (t.ftable rf).type = .none) (bareW : (t.ftable wf).type = .none) (usedR : 0 < (t.ftable rf).ref)
    (usedW : 0 < (t.ftable wf).ref) (fresh : ¬t.Piped page) :
    Ok (t.openPipe rf wf page junk) extra ∧ ∀ other, (t.openPipe rf wf page junk).Piped other ↔ t.Piped other ∨ other = page := by
  have atR : (t.openPipe rf wf page junk).ftable rf = ⟨.pipe page, (t.ftable rf).ref, true, false⟩ := by
    unfold Files.openPipe
    rw [ftable_setFile_other different, ftable_setFile_same]
  have atW : (t.openPipe rf wf page junk).ftable wf = ⟨.pipe page, (t.ftable wf).ref, false, true⟩ :=
    ftable_setFile_same _ _ _
  have others : ∀ g, g ≠ rf → g ≠ wf → (t.openPipe rf wf page junk).ftable g = t.ftable g := by
    intro g notR notW
    unfold Files.openPipe
    rw [ftable_setFile_other notW, ftable_setFile_other notR]
    rfl
  have here : (t.openPipe rf wf page junk).pipe page = ⟨junk, 0, 0, true, true⟩ := pipe_setPipe_same _ _ _
  have elsewhere : ∀ other, other ≠ page → (t.openPipe rf wf page junk).pipe other = t.pipe other :=
    fun other apart => pipe_setPipe_other _ _ _ _ apart
  -- A file is one of the two new ends, or an end of another pipe as before.
  have type : ∀ g other, ((t.openPipe rf wf page junk).ftable g).type = .pipe other ↔
      ((g = rf ∨ g = wf) ∧ other = page) ∨
        (g ≠ rf ∧ g ≠ wf ∧ other ≠ page ∧ (t.ftable g).type = .pipe other) := by
    intro g other
    by_cases isR : g = rf
    · subst isR
      rw [atR]
      simp [eq_comm]
    · by_cases isW : g = wf
      · subst isW
        rw [atW]
        simp [isR, eq_comm]
      · rw [others g isR isW]
        simp only [isR, isW, false_or, false_and, ne_eq, not_false_eq_true, true_and]
        refine ⟨fun kind => ⟨?_, kind⟩, fun both => both.2⟩
        rintro rfl
        exact fresh ⟨g, kind⟩
  have old : ∀ g other, (t.ftable g).type = .pipe other → g ≠ rf ∧ g ≠ wf ∧ other ≠ page := by
    intro g other kind
    refine ⟨?_, ?_, ?_⟩
    · rintro rfl
      rw [bareR] at kind
      cases kind
    · rintro rfl
      rw [bareW] at kind
      cases kind
    · rintro rfl
      exact fresh ⟨g, kind⟩
  refine ⟨⟨fun g => ?_, fun g zero => ?_, fun g other kind => ?_, fun g g' other kind kind' sides => ?_,
    fun other side => ?_⟩, fun other => ?_⟩
  · change _ = pointing t.ofile g + extra g
    rw [← ok.counts g]
    by_cases isR : g = rf
    · rw [isR, atR]
    · by_cases isW : g = wf
      · rw [isW, atW]
      · rw [others g isR isW]
  · by_cases isR : g = rf
    · rw [isR, atR] at zero
      simp only at zero
      omega
    · by_cases isW : g = wf
      · rw [isW, atW] at zero
        simp only at zero
        omega
      · rw [others g isR isW] at zero ⊢
        exact ok.idle g zero
  · rcases (type g other).mp kind with ⟨rfl | rfl, rfl⟩ | ⟨notR, notW, apart, before⟩
    · rw [atR, here]
      rfl
    · rw [atW, here]
      rfl
    · rw [others g notR notW, elsewhere other apart]
      exact ok.ends g other before
  · rcases (type g other).mp kind with ⟨first, rfl⟩ | ⟨notR, notW, apart, before⟩
    · rcases (type g' other).mp kind' with ⟨second, _⟩ | ⟨_, _, apart, _⟩
      · rcases first with rfl | rfl <;> rcases second with rfl | rfl <;> first | rfl | simp [atR, atW] at sides
      · exact absurd rfl apart
    · rcases (type g' other).mp kind' with ⟨_, same⟩ | ⟨notR', notW', _, before'⟩
      · exact absurd same apart
      · rw [others g notR notW, others g' notR' notW'] at sides
        exact ok.unique g g' other before before' sides
  · rintro ⟨g, kind⟩ raised
    by_cases same : other = page
    · subst same
      cases side with
      | false => exact ⟨rf, (type rf other).mpr (Or.inl ⟨Or.inl rfl, rfl⟩), by rw [atR]⟩
      | true => exact ⟨wf, (type wf other).mpr (Or.inl ⟨Or.inr rfl, rfl⟩), by rw [atW]⟩
    · rw [elsewhere other same] at raised
      rcases (type g other).mp kind with ⟨_, impossible⟩ | ⟨_, _, _, before⟩
      · exact absurd impossible same
      · obtain ⟨g', kind', side'⟩ := ok.backed other side ⟨g, before⟩ raised
        obtain ⟨notR, notW, apart⟩ := old g' other kind'
        exact ⟨g', by rw [others g' notR notW]; exact kind', by rw [others g' notR notW]; exact side'⟩
  · constructor
    · rintro ⟨g, kind⟩
      rcases (type g other).mp kind with ⟨_, same⟩ | ⟨_, _, _, before⟩
      · exact Or.inr same
      · exact Or.inl ⟨g, before⟩
    · rintro (⟨g, kind⟩ | rfl)
      · obtain ⟨notR, notW, apart⟩ := old g other kind
        exact ⟨g, (type g other).mpr (Or.inr ⟨notR, notW, apart, kind⟩)⟩
      · exact ⟨rf, (type rf other).mpr (Or.inl ⟨Or.inl rfl, rfl⟩)⟩

theorem Ok.setKind (ok : Ok t extra) (f : FileId) (kind : Kind) (readable writable : Bool)
    (bare : (t.ftable f).type = .none) (used : 0 < (t.ftable f).ref) (plain : ∀ page, kind ≠ .pipe page) :
    Ok (t.setFile f ⟨kind, (t.ftable f).ref, readable, writable⟩) extra ∧
      ∀ page, (t.setFile f ⟨kind, (t.ftable f).ref, readable, writable⟩).Piped page ↔ t.Piped page := by
  refine ok.setPlain f _ extra (fun page => ?_) (fun page same => absurd same (plain page)) (ok.counts f) (fun _ _ => rfl)
    fun zero => absurd zero used.ne'
  rw [bare]
  exact iff_of_false (plain page) nofun

end Files

end Xv6.System.Ftable
