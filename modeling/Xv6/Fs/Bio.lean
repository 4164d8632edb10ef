import Xv6.Disklog.Commit
import Xv6.Lib.Linked
import Xv6.Lib.Transition

/-! The buffer cache of bio.c: the buffers, their list in order of use, and the sections that bread and brelse
are made of. Blocks are those of one device. -/

namespace Xv6.Fs.Bio
open Lib.Linked Lib.Transition Function
open Disklog.Commit (Blockno Block Disk)

abbrev Slot := Fin NBUF

structure Buf where
  valid : Bool
  dev : BitVec 32
  blockno : Blockno
  locked : Bool
  refcnt : Nat
  data : Block

structure Bcache where
  buf : Slot → Buf
  links : Links Slot

def ROOTDEV : BitVec 32 := 1

def Bcache.set (c : Bcache) (i : Slot) (b : Buf) : Bcache := { c with buf := update c.buf i b }

def binit : Links Slot := (List.finRange NBUF).foldl insertHead empty

/-- The section of bget under bcache.lock: the buffer, with one more reference. -/
def bget (c : Bcache) (dev : BitVec 32) (b : Blockno) : Except String (Bcache × Slot) :=
  match walk c.links.next (fun i => (c.buf i).dev = dev ∧ (c.buf i).blockno = b) (NBUF + 1) (c.links.next none) with
  | some (some i) => .ok (c.set i { c.buf i with refcnt := (c.buf i).refcnt + 1 }, i)
  | some none =>
      -- not cached: recycle the least recently used buffer
      match walk c.links.prev (fun i => (c.buf i).refcnt = 0) (NBUF + 1) (c.links.prev none) with
      | some (some i) => .ok (c.set i { c.buf i with dev := dev, blockno := b, valid := false, refcnt := 1 }, i)
      | some none => .error "bget: no buffers"
      | none => .error "endless list"
  | none => .error "endless list"

def bread (c : Bcache) (disk : Disk) (i : Slot) : Bcache :=
  let c := c.set i { c.buf i with locked := true }
  if (c.buf i).valid then c else c.set i { c.buf i with data := disk (c.buf i).blockno, valid := true }

def bwrite (c : Bcache) (disk : Disk) (i : Slot) : Disk := update disk (c.buf i).blockno (c.buf i).data

def brelse (c : Bcache) (i : Slot) : Bcache :=
  let c := c.set i { c.buf i with refcnt := (c.buf i).refcnt - 1 }
  if (c.buf i).refcnt = 0 then { c with links := insertHead (unlink c.links i) i } else c

def bpin (c : Bcache) (i : Slot) : Bcache := c.set i { c.buf i with refcnt := (c.buf i).refcnt + 1 }

def bunpin (c : Bcache) (i : Slot) : Bcache := c.set i { c.buf i with refcnt := (c.buf i).refcnt - 1 }

/-- The cache and the disk, with what only watches: for every buffer the blocks that callers of bread wait for, the
callers between the two halves of brelse, whether the log lists it, whether it was changed since it was last
written or logged, and whether since it was last written; and the blocks as they would be without a cache. -/
structure State where
  c : Bcache
  disk : Disk
  waiting : Slot → List Blockno
  leaving : Slot → Nat
  pinned : Slot → Bool
  unsaved : Slot → Bool
  dirty : Slot → Bool
  mem : Disk

/-- get and enter are the halves of bread, leave and drop those of brelse. -/
inductive Event where
  | get (b : Blockno)
  | enter (i : Slot) (b : Blockno)
  | modify (i : Slot) (contents : Block)
  | bwrite (i : Slot)
  | logWrite (i : Slot)
  | bunpin (i : Slot)
  | leave (i : Slot)
  | drop (i : Slot)

def State.put (s : State) (i : Slot) (b : Buf) : State := { s with c := s.c.set i b }

def step (s : State) : Event → Option (Except String State)
  | .get b => some do
      let (c, i) ← bget s.c ROOTDEV b
      pure { s with c := c, waiting := update s.waiting i (b :: s.waiting i) }
  | .enter i b =>
      if b ∈ s.waiting i ∧ (s.c.buf i).locked = false then
        some (.ok { s with c := bread s.c s.disk i, waiting := update s.waiting i ((s.waiting i).erase b) })
      else none
  | .modify i contents =>
      if (s.c.buf i).locked then
        some (.ok { s.put i { s.c.buf i with data := contents } with
          unsaved := update s.unsaved i true, dirty := update s.dirty i true,
          mem := update s.mem (s.c.buf i).blockno contents })
      else none
  | .bwrite i =>
      if (s.c.buf i).locked then
        some (.ok { s with
          disk := bwrite s.c s.disk i, unsaved := update s.unsaved i false,
          dirty := update s.dirty i false })
      else none
  | .logWrite i =>
      if (s.c.buf i).locked then
        some (.ok { s with
          c := if s.pinned i then s.c else bpin s.c i, pinned := update s.pinned i true,
          unsaved := update s.unsaved i false })
      else none
  | .bunpin i =>
      if (s.c.buf i).locked ∧ s.pinned i then
        some (.ok { s with c := bunpin s.c i, pinned := update s.pinned i false })
      else none
  | .leave i =>
      if (s.c.buf i).locked then
        some (.ok { s.put i { s.c.buf i with locked := false } with leaving := update s.leaving i (s.leaving i + 1) })
      else none
  | .drop i =>
      if 0 < s.leaving i then
        some (.ok { s with c := brelse s.c i, leaving := update s.leaving i (s.leaving i - 1) })
      else none

/-- A changed buffer is written or logged before it is released. -/
def Saved (s : State) : Event → Prop
  | .leave i => s.unsaved i = false
  | _ => True

/-- And it is unpinned only after it is written. -/
def Written (s : State) : Event → Prop
  | .leave i => s.unsaved i = false
  | .bunpin i => s.dirty i = false
  | _ => True

def Steps (fits : State → Event → Prop) (s s' : State) : Prop := ∃ e, fits s e ∧ step s e = some (.ok s')

structure Init (s : State) : Prop where
  links : s.c.links = binit
  blank : ∀ i, (s.c.buf i).dev = 0 ∧ (s.c.buf i).locked = false ∧ (s.c.buf i).refcnt = 0
  nobody : ∀ i, s.waiting i = [] ∧ s.leaving i = 0 ∧ s.pinned i = false ∧ s.dirty i = false
  same : s.mem = s.disk

section Buffers
variable (c : Bcache) (i j : Slot) (b : Buf)

@[simp] theorem buf_set_self : (c.set i b).buf i = b := update_self _ _ _

variable {i j} in
theorem buf_set_other (other : j ≠ i) : (c.set i b).buf j = c.buf j := update_of_ne other _ _

def Holds (c : Bcache) (i : Slot) (b : Blockno) : Prop := (c.buf i).dev = ROOTDEV ∧ (c.buf i).blockno = b

variable {b} in
theorem holds_set (dev : b.dev = (c.buf i).dev) (blockno : b.blockno = (c.buf i).blockno) (x : Blockno) :
    Holds (c.set i b) j x ↔ Holds c j x := by
  unfold Holds
  by_cases same : j = i
  · subst same
    rw [buf_set_self, dev, blockno]
  · rw [buf_set_other c b same]

/-- A change that leaves every buffer its block. -/
structure Keeps (c c' : Bcache) : Prop where
  dev : ∀ i, (c'.buf i).dev = (c.buf i).dev
  blockno : ∀ i, (c'.buf i).blockno = (c.buf i).blockno
  valid : ∀ i, (c'.buf i).valid = (c.buf i).valid
  data : ∀ i, (c'.buf i).data = (c.buf i).data

variable {b} in
theorem keeps_set (dev : b.dev = (c.buf i).dev) (blockno : b.blockno = (c.buf i).blockno)
    (valid : b.valid = (c.buf i).valid) (data : b.data = (c.buf i).data) : Keeps c (c.set i b) := by
  constructor <;> intro j <;> by_cases same : j = i
  all_goals first
    | subst same; rw [buf_set_self]; assumption
    | rw [buf_set_other c b same]

theorem Keeps.holds {c c' : Bcache} (keeps : Keeps c c') (i : Slot) (b : Blockno) : Holds c' i b ↔ Holds c i b := by
  unfold Holds
  rw [keeps.dev, keeps.blockno]

end Buffers

section Get
variable {c : Bcache} {order : List Slot}

theorem bget_cases (loop : Loop c.links order) (all : ∀ i, i ∈ order) (b : Blockno) :
    (∃ i, Holds c i b ∧
      bget c ROOTDEV b = .ok (c.set i { c.buf i with refcnt := (c.buf i).refcnt + 1 }, i)) ∨
    ((∀ i, ¬Holds c i b) ∧ ∃ i, (c.buf i).refcnt = 0 ∧
      bget c ROOTDEV b = .ok (c.set i { c.buf i with dev := ROOTDEV, blockno := b, valid := false, refcnt := 1 }, i)) ∨
    ((∀ i, ¬Holds c i b) ∧ (∀ i, 0 < (c.buf i).refcnt) ∧ bget c ROOTDEV b = .error "bget: no buffers") := by
  have short : order.length < NBUF + 1 := by
    have bound := loop.nodup.length_le_card
    rw [Fintype.card_fin] at bound
    omega
  unfold bget
  rw [walk_next loop _ _ short, walk_prev loop _ _ short]
  cases found : order.find? (fun i => decide ((c.buf i).dev = ROOTDEV ∧ (c.buf i).blockno = b)) with
  | some i =>
    have holds := List.find?_some found
    simp only [decide_eq_true_eq] at holds
    exact .inl ⟨i, holds, rfl⟩
  | none =>
    have missing : ∀ i, ¬Holds c i b := by
      intro i holds
      have tested := List.find?_eq_none.mp found i (all i)
      exact tested (decide_eq_true (show (c.buf i).dev = ROOTDEV ∧ (c.buf i).blockno = b from holds))
    right
    cases free : order.reverse.find? (fun i => decide ((c.buf i).refcnt = 0)) with
    | some i =>
      have unused := List.find?_some free
      exact .inl ⟨missing, i, of_decide_eq_true unused, rfl⟩
    | none =>
      refine .inr ⟨missing, fun i => ?_, rfl⟩
      have tested := List.find?_eq_none.mp free i (List.mem_reverse.mpr (all i))
      simpa [Nat.pos_iff_ne_zero] using tested

end Get

end Xv6.Fs.Bio
