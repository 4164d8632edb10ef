import Xv6.Driver.Console
import Xv6.Fs.Logged
import Xv6.Sync.Pipes
import Xv6.Vm.Transfers

/-! fileread into the memory of a process, for all types of files: how much is stored there, and what is returned. -/

namespace Xv6.System.Fileread

open List hiding cons
open Lib.Exec Lib.Bytes Fs.Format Fs.Inode Fs.Blocks Vm.Memory Vm.Pagetable Vm.Space Vm.UserMem
open Vm.Transfers (reach reach_iff Moved moved_of_wrote length_readUpto)
open Sync.Pipes (Pipe PIPESIZE)
open Driver.Console (Cons C INPUT_BUF_SIZE newline)

section Model

/-- copyout with the bytes that it stores before it meets a page that it cannot reach. -/
def copyoutStoring (pagetable dstva : Nat) (src : List Byte) : VM (Bool × List Byte) := do
  let s ← get
  let ok ← copyout pagetable dstva src
  pure (ok, src.take (reach s pagetable dstva src.length))

def CONSOLE : Int := 1

inductive Wait where
  | asleep
  | killed
  | ready

/-- The first loop of piperead. For each time that it finds the pipe empty the list has what killed returns, and the pipe as it
is when the process has the lock again. -/
def pipewait : List (Bool × Pipe) → Pipe → Pipe × Wait
  | [], pi => if pi.nread = pi.nwrite ∧ pi.writeopen = true then (pi, .asleep) else (pi, .ready)
  | (killed, next) :: wakes, pi =>
    if pi.nread = pi.nwrite ∧ pi.writeopen = true then
      if killed then (pi, .killed) else pipewait wakes next
    else (pi, .ready)

def pipereadLoop (pagetable addr : Nat) (n : Int) : Nat → Pipe → Nat → List Byte → VM (Pipe × Int × List Byte)
  | 0, pi, i, stored => pure (pi, i, stored)
  | fuel + 1, pi, i, stored =>
    if (i : Int) < n then
      if pi.nread = pi.nwrite then pure (pi, i, stored)
      else do
        let ch := pi.data (pi.nread.toNat % PIPESIZE)
        let pi := { pi with nread := pi.nread + 1 }
        let (ok, new) ← copyoutStoring pagetable ((addr + i) % 2 ^ 64) [ch]
        if ok then pipereadLoop pagetable addr n fuel pi (i + 1) (stored ++ new) else pure (pi, i, stored ++ new)
    else pure (pi, i, stored)

/-- What piperead returns, none while it sleeps, and what it has stored. -/
def piperead (pagetable addr : Nat) (n : Int) (wakes : List (Bool × Pipe)) (pi : Pipe) :
    VM (Pipe × Option Int × List Byte) :=
  match pipewait wakes pi with
  | (pi, .asleep) => pure (pi, none, [])
  | (pi, .killed) => pure (pi, some (-1), [])
  | (pi, .ready) => do
      let (pi, i, stored) ← pipereadLoop pagetable addr n n.toNat pi 0 []
      pure (pi, some i, stored)

/-- The inner loop of consoleread; as in pipewait the list has what happens while it sleeps. -/
def conswait : List (Bool × Cons) → Cons → Cons × Wait × List (Bool × Cons)
  | [], cons => if cons.r = cons.w then (cons, .asleep, []) else (cons, .ready, [])
  | (killed, next) :: wakes, cons =>
    if cons.r = cons.w then
      if killed then (cons, .killed, wakes) else conswait wakes next
    else (cons, .ready, (killed, next) :: wakes)

/-- The loop of consoleread. What it returns is the difference of two unsigned numbers. -/
def consolereadLoop (pagetable : Nat) (target : BitVec 32) : Nat → Int → Nat → Cons → List (Bool × Cons) →
    List Byte → VM (Cons × Option Int × List Byte)
  | 0, n, _, cons, _, stored => pure (cons, some (target - BitVec.ofInt 32 n).toInt, stored)
  | fuel + 1, n, dst, cons, wakes, stored =>
    if 0 < n then
      match conswait wakes cons with
      | (cons, .asleep, _) => pure (cons, none, stored)
      | (cons, .killed, _) => pure (cons, some (-1), stored)
      | (cons, .ready, wakes) =>
        let c := cons.buf (cons.r.toNat % INPUT_BUF_SIZE)
        let next := { cons with r := cons.r + 1 }
        -- an end of file that comes after other input stays for the next call
        if c = C 'D' then
          pure (if n < target.toNat then cons else next, some (target - BitVec.ofInt 32 n).toInt, stored)
        else do
          let (ok, new) ← copyoutStoring pagetable dst [c]
          if ok = false then pure (next, some (target - BitVec.ofInt 32 n).toInt, stored ++ new)
          else if c = newline then pure (next, some (target - BitVec.ofInt 32 (n - 1)).toInt, stored ++ new)
          else consolereadLoop pagetable target fuel (n - 1) ((dst + 1) % 2 ^ 64) next wakes (stored ++ new)
    else pure (cons, some (target - BitVec.ofInt 32 n).toInt, stored)

def consoleread (pagetable dst : Nat) (n : BitVec 32) (wakes : List (Bool × Cons)) (cons : Cons) :
    VM (Cons × Option Int × List Byte) := consolereadLoop pagetable n n.toInt.toNat n.toInt dst cons wakes []

def readLoopUser (sb : Fs.Format.Layout) (pagetable n : Nat) :
    Nat → File → Nat → Nat → Nat → List Byte → VM (File × Int × List Byte)
  | 0, s, _, _, tot, stored => pure (s, tot, stored)
  | fuel + 1, s, off, dst, tot, stored =>
    if tot < n then
      match bmap sb s (off / BSIZE) with
      | .error e => throw e
      | .ok (s, addr) =>
        if addr = 0 then pure (s, tot, stored)
        else do
          let m := min (n - tot) (BSIZE - off % BSIZE)
          let (ok, new) ← copyoutStoring pagetable dst (bytesOf (s.disk addr) (off % BSIZE) m)
          if ok then readLoopUser sb pagetable n fuel s (off + m) ((dst + m) % 2 ^ 64) (tot + m) (stored ++ new)
          else pure (s, -1, stored ++ new)
    else pure (s, tot, stored)

def readiUser (sb : Fs.Format.Layout) (pagetable : Nat) (s : File) (dst : Nat) (off n : BitVec 32) :
    VM (File × Int × List Byte) :=
  if off > s.ip.size ∨ off + n < off then pure (s, 0, [])
  else
    let n := if off + n > s.ip.size then s.ip.size - off else n
    readLoopUser sb pagetable n.toNat n.toNat s off.toNat dst 0 []

inductive FileType where
  | none
  | pipe
  | inode
  | device
deriving DecidableEq

structure OpenFile where
  type : FileType
  readable : Bool
  off : BitVec 32
  major : BitVec 16

structure Target where
  ip : File
  pi : Pipe
  cons : Cons

/-- The drivers with a read function: consoleinit installs the only one. -/
def devswRead (major : Int) : Bool := major = CONSOLE

/-- The result, none while the call sleeps, and the bytes that it has stored. -/
def fileread (sb : Fs.Format.Layout) (pagetable : Nat) (f : OpenFile) (addr : BitVec 64) (n : BitVec 32)
    (pipes : List (Bool × Pipe)) (inputs : List (Bool × Cons)) (x : Target) :
    VM (Target × OpenFile × Option Int × List Byte) :=
  if f.readable = false then pure (x, f, some (-1), [])
  else match f.type with
    | .pipe => do
        let (pi, r, stored) ← piperead pagetable addr.toNat n.toInt pipes x.pi
        pure ({ x with pi }, f, r, stored)
    | .device =>
        if f.major.toInt < 0 ∨ f.major.toInt ≥ NDEV ∨ devswRead f.major.toInt = false then pure (x, f, some (-1), [])
        else do
          let (cons, r, stored) ← consoleread pagetable addr.toNat n inputs x.cons
          pure ({ x with cons }, f, r, stored)
    | .inode => do
        let (ip, r, stored) ← readiUser sb pagetable x.ip addr.toNat f.off n
        let f := if r > 0 then { f with off := f.off + BitVec.ofInt 32 r } else f
        pure ({ x with ip }, f, some r, stored)
    | .none => throw "fileread"

end Model

section Storing
variable {m m₁ : Mem} {r addr : Nat} {stored : List Byte}

theorem reach_congr (tables : SameTables m m₁ r) (va len : Nat) : reach m₁ r va len = reach m r va len := by
  have bound : reach m r va len ≤ len := length_readUpto _ _ _
  have bound' : reach m₁ r va len ≤ len := length_readUpto _ _ _
  have same : ∀ k < len, (k < reach m₁ r va len ↔ k < reach m r va len) := by
    intro k inside
    rw [reach_iff inside, reach_iff inside]
    exact forall₃_congr fun a _ _ => by rw [translate_congr tables]
  rcases Nat.lt_trichotomy (reach m₁ r va len) (reach m r va len) with less | equal | more
  · exact absurd ((same _ (by omega)).mpr less) (Nat.lt_irrefl _)
  · exact equal
  · exact absurd ((same _ (by omega)).mp more) (Nat.lt_irrefl _)

theorem reach_pos {va len : Nat} (some : 0 < len) : 0 < reach m r va len ↔ translate m r va ≠ none := by
  rw [reach_iff some]
  constructor
  · exact fun reached => reached va le_rfl le_rfl
  · intro here a low high
    obtain rfl : a = va := by omega
    exact here

/-- So far the bytes have gone to the addresses from addr on, and no table of the process has changed. -/
structure Progress (m : Mem) (r addr : Nat) (stored : List Byte) (m' : Mem) : Prop where
  moved : Moved m r addr stored stored.length m'
  tables : SameTables m m' r
  low : addr + stored.length < 2 ^ 64

theorem Progress.start (low : addr < 2 ^ 64) : Progress m r addr [] m :=
  ⟨⟨fun k inside => absurd inside (Nat.not_lt_zero k), fun _ _ => rfl, fun _ _ => rfl, rfl⟩, fun _ _ _ => rfl, low⟩

variable {new : List Byte}

theorem Moved.append {m₂ : Mem} (first : Moved m r addr stored stored.length m₁)
    (tables : SameTables m m₁ r) (rest : Moved m₁ r (addr + stored.length) new new.length m₂) :
    Moved m r addr (stored ++ new) (stored ++ new).length m₂ where
  bytes k inside := by
    rw [length_append] at inside
    by_cases early : k < stored.length
    · rw [rest.elsewhere _ (by omega), first.bytes k early, List.getElem?_append_left early]
    · have byte := rest.bytes (k - stored.length) (by omega)
      rw [show addr + stored.length + (k - stored.length) = addr + k by omega] at byte
      rw [byte, List.getElem?_append_right (by omega)]
  elsewhere a outside := by
    rw [length_append] at outside
    rw [rest.elsewhere a (by omega), first.elsewhere a (by omega)]
  others x other := by
    rw [rest.others x fun a => by rw [translate_congr tables]; exact other a, first.others x other]
  free := rest.free.trans first.free

structure Stores (m : Mem) (r dst : Nat) (src : List Byte) (ok : Bool) (new : List Byte) : Prop where
  length : new.length = reach m r dst src.length
  part : new <+: src
  whole : ok = true ↔ new.length = src.length

theorem Stores.one {dst : Nat} {c : Byte} (stores : Stores m r dst [c] true new) : new = [c] :=
  stores.part.eq_of_length (stores.whole.mp rfl)

theorem Stores.none {dst : Nat} {c : Byte} (stores : Stores m r dst [c] false new) : new = [] := by
  refine length_eq_zero_iff.mp (Nat.lt_one_iff.mp (Nat.lt_of_le_of_ne stores.part.length_le fun all => ?_))
  exact absurd (stores.whole.mpr all) Bool.false_ne_true

theorem Progress.store (progress : Progress m r addr stored m₁) (user : UserPages m r) (src : List Byte) :
    Ends (copyoutStoring r (addr + stored.length) src) m₁ fun out m₂ =>
      Progress m r addr (stored ++ out.2) m₂ ∧ Stores m r (addr + stored.length) src out.1 out.2 := by
  obtain ⟨ok, m₂, ran, wrote⟩ := copyout_wrote (user.congr progress.tables) (addr + stored.length) src
  obtain ⟨count, here⟩ : ∃ count, count = reach m₁ r (addr + stored.length) src.length := ⟨_, rfl⟩
  have bound : reach m₁ r (addr + stored.length) src.length ≤ src.length := length_readUpto _ _ _
  rw [← here] at bound
  have length : (src.take count).length = count := length_take_of_le bound
  have moved := moved_of_wrote wrote
  rw [← here] at moved
  have part : Moved m₁ r (addr + stored.length) (src.take count) (src.take count).length m₂ := by
    rw [length]
    refine ⟨fun k inside => ?_, moved.elsewhere, moved.others, moved.free⟩
    rw [moved.bytes k inside, List.getElem?_take, if_pos inside]
  refine ⟨(ok, src.take count), m₂, ?_, ⟨Moved.append progress.moved progress.tables part, ?_, ?_⟩, ?_, ?_, ?_⟩
  · rw [copyoutStoring, bind_ok (get_ok m₁), bind_ok ran, ← here]
    rfl
  · intro p t found
    rw [wrote.tables p t (by rw [tableAt_congr progress.tables]; exact found), progress.tables p t found]
  · -- the last byte that was stored is below MAXVA
    have low := progress.low
    simp only [length_append, length]
    by_cases nothing : count = 0
    · omega
    · have reached := (@reach_iff m₁ r (addr + stored.length) src.length (count - 1) (by omega)).mp (by omega) _ (Nat.le_add_right _ _) le_rfl
      obtain ⟨x, found⟩ := Option.ne_none_iff_exists'.mp reached
      have below := translate_low found
      unfold MAXVA at below
      omega
  · rw [← reach_congr progress.tables, ← here]
    exact length
  · exact take_prefix _ _
  · show ok = true ↔ (src.take count).length = src.length
    rw [wrote.complete, length, here]
    constructor
    · intro all
      by_contra short
      refine Nat.lt_irrefl _ ((@reach_iff m₁ r (addr + stored.length) src.length
        (reach m₁ r (addr + stored.length) src.length) (by omega)).mpr fun a low high => ?_)
      exact all a low (by omega)
    · intro all a low high
      exact (@reach_iff m₁ r (addr + stored.length) src.length (a - (addr + stored.length)) (by omega)).mp (by omega) a low (by omega)

end Storing

section Loops
variable {m m₁ : Mem} {r addr : Nat} {stored : List Byte}

/-- A call has stored at most so many bytes, and if it has returned it returned their number or -1. -/
structure Done (m : Mem) (r addr limit : Nat) (result : Option Int) (stored : List Byte) (m' : Mem) : Prop where
  progress : Progress m r addr stored m'
  few : stored.length ≤ limit
  result : ∀ x, result = some x → x = -1 ∨ x = stored.length

theorem Done.nothing (low : addr < 2 ^ 64) {limit : Nat} {result : Option Int} (none : ∀ x, result = some x → x = -1 ∨ x = 0) :
    Done m r addr limit result [] m := ⟨.start low, Nat.zero_le _, none⟩

theorem pipereadLoop_ends (user : UserPages m r) {n : Int} (fuel : Nat) (pi : Pipe) (progress : Progress m r addr stored m₁)
    (few : stored.length ≤ n.toNat) :
    Ends (pipereadLoop r addr n fuel pi stored.length stored) m₁ fun out m₂ =>
      Done m r addr n.toNat (some out.2.1) out.2.2 m₂ := by
  have stop : ∀ {stored m₂}, Progress m r addr stored m₂ → stored.length ≤ n.toNat →
      Done m r addr n.toNat (some (stored.length : Int)) stored m₂ :=
    fun progress few => ⟨progress, few, fun x same => .inr (Option.some.inj same).symm⟩
  induction fuel generalizing pi stored m₁ with
  | zero => exact Ends.pure (stop progress few)
  | succ fuel ih =>
    unfold pipereadLoop
    by_cases more : (stored.length : Int) < n
    · rw [if_pos more]
      by_cases empty : pi.nread = pi.nwrite
      · rw [if_pos empty]
        exact Ends.pure (stop progress few)
      · rw [if_neg empty, Nat.mod_eq_of_lt progress.low]
        apply Ends.bind (progress.store user [pi.data (pi.nread.toNat % PIPESIZE)])
        rintro ⟨ok, new⟩ m₂ ⟨progress', stores⟩
        dsimp only at progress' stores ⊢
        cases ok with
        | true =>
          obtain rfl := stores.one
          have next := ih { pi with nread := pi.nread + 1 } progress' (by rw [length_append, length_singleton]; omega)
          rwa [length_append] at next
        | false =>
          obtain rfl := stores.none
          rw [append_nil] at progress' ⊢
          exact Ends.pure (stop progress' few)
    · rw [if_neg more]
      exact Ends.pure (stop progress few)

theorem piperead_ends (user : UserPages m r) (low : addr < 2 ^ 64) (n : Int) (wakes : List (Bool × Pipe)) (pi : Pipe) :
    Ends (piperead r addr n wakes pi) m fun out m' => Done m r addr n.toNat out.2.1 out.2.2 m' := by
  unfold piperead
  cases pipewait wakes pi with
  | mk pi wait =>
    cases wait with
    | asleep => exact Ends.pure (.nothing low nofun)
    | killed => exact Ends.pure (.nothing low fun x same => .inl (Option.some.inj same).symm)
    | ready =>
      apply Ends.bind (pipereadLoop_ends user n.toNat pi (.start low) (Nat.zero_le _))
      exact fun out m' done => Ends.pure done

theorem counted {target : BitVec 32} {count : Nat} (few : count ≤ target.toInt.toNat) :
    (target - BitVec.ofInt 32 (target.toInt - count)).toInt = count := by
  have upper := BitVec.toInt_lt (x := target)
  have lower := BitVec.le_toInt (x := target)
  rw [BitVec.toInt_sub, BitVec.toInt_ofInt]
  have left : (target.toInt - (count : Int)).bmod (2 ^ 32) = target.toInt - count := Int.bmod_eq_of_le (by omega) (by omega)
  rw [left, sub_sub_cancel, Int.bmod_eq_of_le (by omega) (by omega)]

theorem Progress.advance {c : Byte} (progress : Progress m r addr (stored ++ [c]) m₁) (target : BitVec 32) :
    (stored ++ [c]).length = stored.length + 1 ∧
      target.toInt - (stored.length : Int) - 1 = target.toInt - ((stored ++ [c]).length : Int) ∧
      (addr + stored.length + 1) % 2 ^ 64 = addr + (stored ++ [c]).length := by
  have length : (stored ++ [c]).length = stored.length + 1 := length_append
  have low := progress.low
  omega

theorem consolereadLoop_ends (user : UserPages m r) {target : BitVec 32} (fuel : Nat) (cons : Cons)
    (wakes : List (Bool × Cons)) (progress : Progress m r addr stored m₁) (few : stored.length ≤ target.toInt.toNat) :
    Ends (consolereadLoop r target fuel (target.toInt - stored.length) (addr + stored.length) cons wakes stored) m₁
      fun out m₂ => Done m r addr target.toInt.toNat out.2.1 out.2.2 m₂ := by
  have stop : ∀ {stored m₂}, Progress m r addr stored m₂ → stored.length ≤ target.toInt.toNat →
      Done m r addr target.toInt.toNat (some (target - BitVec.ofInt 32 (target.toInt - stored.length)).toInt) stored m₂ := by
    refine fun progress few => ⟨progress, few, fun x same => .inr ?_⟩
    rw [← Option.some.inj same]
    exact counted few
  induction fuel generalizing cons wakes stored m₁ with
  | zero => exact Ends.pure (stop progress few)
  | succ fuel ih =>
    unfold consolereadLoop
    by_cases more : 0 < target.toInt - (stored.length : Int)
    · rw [if_pos more]
      obtain ⟨cons, wait, wakes⟩ := conswait wakes cons
      cases wait with
      | asleep => exact Ends.pure ⟨progress, few, nofun⟩
      | killed => exact Ends.pure ⟨progress, few, fun x same => .inl (Option.some.inj same).symm⟩
      | ready =>
        obtain ⟨c, here⟩ : ∃ c, c = cons.buf (cons.r.toNat % INPUT_BUF_SIZE) := ⟨_, rfl⟩
        dsimp only
        rw [← here]
        by_cases eof : c = C 'D'
        · rw [if_pos eof]
          exact Ends.pure (stop progress few)
        · rw [if_neg eof]
          apply Ends.bind (progress.store user [c])
          rintro ⟨ok, new⟩ m₂ ⟨progress', stores⟩
          dsimp only at progress' stores ⊢
          cases ok with
          | true =>
            obtain rfl := stores.one
            obtain ⟨length, left, place⟩ := progress'.advance target
            rw [if_neg (by decide), left, place]
            by_cases line : c = newline
            · rw [if_pos line]
              exact Ends.pure (stop progress' (by omega))
            · rw [if_neg line]
              exact ih _ _ progress' (by omega)
          | false =>
            obtain rfl := stores.none
            rw [append_nil] at progress' ⊢
            rw [if_pos rfl]
            exact Ends.pure (stop progress' few)
    · rw [if_neg more]
      exact Ends.pure (stop progress few)

theorem consoleread_ends (user : UserPages m r) (low : addr < 2 ^ 64) (n : BitVec 32) (wakes : List (Bool × Cons))
    (cons : Cons) :
    Ends (consoleread r addr n wakes cons) m fun out m' => Done m r addr n.toInt.toNat out.2.1 out.2.2 m' := by
  have ends := consolereadLoop_ends user n.toInt.toNat cons wakes (.start low) (Nat.zero_le n.toInt.toNat)
  rwa [length_nil, Nat.cast_zero, sub_zero, Nat.add_zero] at ends

end Loops

section Losses
variable {m m₁ : Mem} {r addr : Nat} {stored : List Byte}

def Blocked (m : Mem) (r addr count : Nat) : Prop := ∃ k < count, translate m r (addr + k) = none

theorem not_blocked_zero : ¬Blocked m r addr 0 := fun ⟨k, inside, _⟩ => Nat.not_lt_zero k inside

theorem blocked_succ {count : Nat} : Blocked m r addr (count + 1) ↔ translate m r addr = none ∨ Blocked m r (addr + 1) count := by
  constructor
  · rintro ⟨_ | k, inside, none⟩
    · exact .inl none
    · exact .inr ⟨k, Nat.lt_of_succ_lt_succ inside, by rwa [Nat.add_assoc, Nat.add_comm 1 k]⟩
  · rintro (none | ⟨k, inside, none⟩)
    · exact ⟨0, Nat.succ_pos _, none⟩
    · exact ⟨k + 1, Nat.succ_lt_succ inside, by rwa [Nat.add_comm k 1, ← Nat.add_assoc]⟩

theorem Stores.translate_iff {dst : Nat} {c : Byte} {ok : Bool} {new : List Byte} (stores : Stores m r dst [c] ok new) :
    translate m r dst = Option.none ↔ ok = false := by
  have reached : 0 < reach m r dst 1 ↔ translate m r dst ≠ Option.none := reach_pos one_pos
  have whole := stores.whole
  have le := stores.part.length_le
  rw [← length_singleton (a := c), ← stores.length] at reached
  rw [← not_iff_not, ← Ne, ← reached, Bool.not_eq_false, whole]
  simp only [length_singleton] at le ⊢
  omega

def held (pi : Pipe) : Nat := (pi.nwrite - pi.nread).toNat

/-- The pipe loses as many bytes as are reported, unless there is no place for the next one: that one is gone. -/
theorem pipereadLoop_takes (user : UserPages m r) {n : Int} (fuel : Nat) (pi : Pipe) (progress : Progress m r addr stored m₁)
    (left : fuel = n.toNat - stored.length) :
    Ends (pipereadLoop r addr n fuel pi stored.length stored) m₁ fun out _ => ∃ d : Nat, out.2.1 = (stored.length + d : Nat) ∧
      (out.1.nread = pi.nread + BitVec.ofNat 32 d ↔ ¬Blocked m r (addr + stored.length) (min fuel (held pi))) := by
  induction fuel generalizing pi stored m₁ with
  | zero => exact Ends.pure ⟨0, rfl, iff_of_true (BitVec.add_zero _).symm (by rw [Nat.zero_min]; exact not_blocked_zero)⟩
  | succ fuel ih =>
    unfold pipereadLoop
    rw [if_pos (by omega)]
    by_cases empty : pi.nread = pi.nwrite
    · have none : held pi = 0 := by rw [held, empty, BitVec.sub_self, BitVec.toNat_zero]
      rw [if_pos empty, none, Nat.min_zero]
      exact Ends.pure ⟨0, rfl, iff_of_true (BitVec.add_zero _).symm not_blocked_zero⟩
    · have fewer : held pi = held { pi with nread := pi.nread + 1 } + 1 := by
        unfold held
        bv_omega
      rw [if_neg empty, Nat.mod_eq_of_lt progress.low, fewer, Nat.add_min_add_right, blocked_succ]
      apply Ends.bind (progress.store user [pi.data (pi.nread.toNat % PIPESIZE)])
      rintro ⟨ok, new⟩ m₂ ⟨progress', stores⟩
      dsimp only at progress' stores ⊢
      rw [stores.translate_iff]
      cases ok with
      | true =>
        obtain rfl := stores.one
        have length : (stored ++ [pi.data (pi.nread.toNat % PIPESIZE)]).length = stored.length + 1 := length_append
        have rest := ih { pi with nread := pi.nread + 1 } progress' (by omega)
        rw [length] at rest
        apply Ends.weaken rest
        rintro out m₃ ⟨d, result, taken⟩
        refine ⟨d + 1, by rw [result, Nat.add_assoc, Nat.add_comm 1 d], ?_⟩
        rw [BitVec.ofNat_add, BitVec.add_comm (BitVec.ofNat 32 d), ← BitVec.add_assoc]
        simpa [Nat.add_assoc] using taken
      | false => exact Ends.pure ⟨0, rfl, iff_of_false (by simp) (by simp)⟩

def line (buf : Nat → Byte) (w : BitVec 32) : Nat → BitVec 32 → Nat
  | 0, _ => 0
  | count + 1, r =>
    if r = w ∨ buf (r.toNat % INPUT_BUF_SIZE) = C 'D' then 0
    else if buf (r.toNat % INPUT_BUF_SIZE) = newline then 1
    else line buf w count (r + 1) + 1

/-- A read that finds an end of file before anything else takes it. -/
def eof (cons : Cons) (count earlier : Nat) : Nat :=
  if 0 < count ∧ earlier = 0 ∧ cons.r ≠ cons.w ∧ cons.buf (cons.r.toNat % INPUT_BUF_SIZE) = C 'D' then 1 else 0

/-- The same for the console, from any time on at which a process in consoleread has the lock again. Where there is a place for
all, the call is as in a session of the console. -/
theorem consolereadLoop_takes (user : UserPages m r) {target : BitVec 32} (fuel : Nat) (cons : Cons)
    (progress : Progress m r addr stored m₁) (few : stored.length ≤ target.toInt.toNat)
    (left : fuel = target.toInt.toNat - stored.length) :
    Ends (consolereadLoop r target fuel (target.toInt - stored.length) (addr + stored.length) cons [] stored) m₁ fun out _ =>
      (∃ d : Nat, (∀ x, out.2.1 = some x → x = (stored.length + d : Nat)) ∧
        (out.1.r = cons.r + BitVec.ofNat 32 (d + eof cons fuel stored.length) ↔
          ¬Blocked m r (addr + stored.length) (line cons.buf cons.w fuel cons.r))) ∧
      (¬Blocked m r (addr + stored.length) (line cons.buf cons.w fuel cons.r) →
        (out.1, out.2.2, out.2.1.isSome) = Driver.Console.readLoop target.toInt.toNat fuel cons stored) := by
  have reports : ∀ {stored : List Byte}, stored.length ≤ target.toInt.toNat → ∀ x,
      some (target - BitVec.ofInt 32 (target.toInt - stored.length)).toInt = some x → x = stored.length :=
    fun few x same => (Option.some.inj same).symm.trans (counted few)
  induction fuel generalizing cons stored m₁ with
  | zero => exact Ends.pure ⟨⟨0, reports few, iff_of_true (BitVec.add_zero _).symm not_blocked_zero⟩, fun _ => rfl⟩
  | succ fuel ih =>
    unfold consolereadLoop line eof Driver.Console.readLoop
    obtain ⟨c, here⟩ : ∃ c, c = cons.buf (cons.r.toNat % INPUT_BUF_SIZE) := ⟨_, rfl⟩
    rw [if_pos (by omega), conswait, ← here]
    by_cases empty : cons.r = cons.w
    · rw [if_pos empty, if_pos empty]
      exact Ends.pure ⟨⟨0, (fun _ asleep => by cases asleep), iff_of_true (by simp [empty]) (by simp [empty, not_blocked_zero])⟩, fun _ => rfl⟩
    · rw [if_neg empty, if_neg empty]
      dsimp only
      by_cases last : c = C 'D'
      · rw [← here, if_pos last, if_pos last]
        have same : target.toInt = target.toNat := by
          rw [BitVec.toInt_eq_toNat_cond] at *
          split_ifs at * <;> omega
        refine Ends.pure ⟨⟨0, reports few, iff_of_true ?_ (by simp [last, not_blocked_zero])⟩, fun _ => ?_⟩
        all_goals by_cases first : stored.length = 0
        · simp [first, empty, last, same]
        · rw [if_pos (by omega)]
          simp [first]
        · rw [if_neg (by omega), if_neg (by omega)]
          rfl
        · rw [if_pos (by omega), if_pos (by omega), BitVec.add_sub_cancel]
          rfl
      · rw [← here, if_neg last, if_neg last, if_neg (fun both => last both.2.2.2), if_neg (not_or.mpr ⟨empty, last⟩)]
        apply Ends.bind (progress.store user [c])
        rintro ⟨ok, new⟩ m₂ ⟨progress', stores⟩
        dsimp only at progress' stores ⊢
        cases ok with
        | true =>
          obtain rfl := stores.one
          obtain ⟨length, left', place⟩ := progress'.advance target
          rw [if_neg (by decide), left', place]
          by_cases ends : c = newline
          · rw [if_pos ends, if_pos ends, if_pos ends, blocked_succ, stores.translate_iff]
            refine Ends.pure ⟨⟨1, fun x same => ?_, iff_of_true rfl (by simp [not_blocked_zero])⟩, fun _ => rfl⟩
            rw [reports (by omega) x same, length]
          · rw [if_neg ends, if_neg ends, if_neg ends, blocked_succ, stores.translate_iff]
            apply Ends.weaken (ih { cons with r := cons.r + 1 } progress' (by omega) (by omega))
            rintro out m₃ ⟨⟨d, result, taken⟩, session⟩
            rw [length, ← Nat.add_assoc] at session taken
            refine ⟨⟨d + 1, fun x same => by rw [result x same, length, Nat.add_assoc, Nat.add_comm 1 d], ?_⟩,
              fun free => session fun blocked => free (.inr blocked)⟩
            rw [eof, if_neg (by simp), Nat.add_zero] at taken
            rw [Nat.add_zero, BitVec.ofNat_add, BitVec.add_comm (BitVec.ofNat 32 d), ← BitVec.add_assoc]
            simpa [Nat.add_assoc] using taken
        | false =>
          obtain ⟨count, more⟩ : ∃ count, (if c = newline then 1 else line cons.buf cons.w fuel (cons.r + 1) + 1) = count + 1 := by
            split_ifs
            · exact ⟨0, rfl⟩
            · exact ⟨_, rfl⟩
          rw [more, blocked_succ, stores.translate_iff]
          exact Ends.pure ⟨⟨0, reports few, iff_of_false (by simp) (by simp)⟩, fun free => absurd (.inl rfl) free⟩

theorem consoleread_session (user : UserPages m r) (low : addr < 2 ^ 64) {n : BitVec 32} {cons : Cons}
    (free : ¬Blocked m r addr (line cons.buf cons.w n.toInt.toNat cons.r)) :
    Ends (consoleread r addr n [] cons) m fun out _ =>
      (out.1, out.2.2, out.2.1.isSome) = Driver.Console.consoleread cons n.toInt.toNat [] := by
  have takes := consolereadLoop_takes user n.toInt.toNat cons (.start low) (Nat.zero_le n.toInt.toNat) rfl
  rw [length_nil, Nat.cast_zero, sub_zero, Nat.add_zero] at takes
  exact Ends.weaken takes fun _ _ both => both.2 free

/-- A read of a pipe or of the console, from any time on at which it has the lock, takes the bytes that it reports (and an end of
file that it meets first), exactly if there is a place in the memory for all that it sets out to store. -/
theorem read_takes_reported_iff (m : Mem) (r addr : Nat) (user : UserPages m r) (low : addr < 2 ^ 64) :
    (∀ (n : Int) (wakes : List (Bool × Pipe)) (pi ready : Pipe), pipewait wakes pi = (ready, .ready) →
      Ends (piperead r addr n wakes pi) m fun out _ => ∃ d : Nat, out.2.1 = some (d : Int) ∧
        (out.1.nread = ready.nread + BitVec.ofNat 32 d ↔ ¬Blocked m r addr (min n.toNat (held ready)))) ∧
    ∀ (n : BitVec 32) (cons : Cons) (earlier : List Byte) (m₁ : Mem), Progress m r addr earlier m₁ →
      earlier.length ≤ n.toInt.toNat →
      Ends (consolereadLoop r n (n.toInt.toNat - earlier.length) (n.toInt - earlier.length) (addr + earlier.length) cons [] earlier)
        m₁ fun out _ => ∃ d : Nat, (∀ x, out.2.1 = some x → x = (earlier.length + d : Nat)) ∧
          (out.1.r = cons.r + BitVec.ofNat 32 (d + eof cons (n.toInt.toNat - earlier.length) earlier.length) ↔
            ¬Blocked m r (addr + earlier.length) (line cons.buf cons.w (n.toInt.toNat - earlier.length) cons.r)) := by
  refine ⟨fun n wakes pi ready waited => ?_, fun n cons earlier m₁ progress few =>
    Ends.weaken (consolereadLoop_takes user _ cons progress few rfl) fun _ _ => And.left⟩
  rw [piperead, waited]
  apply Ends.bind (pipereadLoop_takes user n.toNat ready (.start low) rfl)
  rintro ⟨pi', i, stored⟩ m' ⟨d, result, taken⟩
  rw [length_nil, Nat.zero_add] at result
  exact Ends.pure ⟨d, congrArg some result, taken⟩

/-- A pipe with one byte, which there is a place for. -/
theorem read_takes_reported_sample : Ends (piperead 0x87000 0 1 [] ⟨fun _ => 120, 0, 1, true, true⟩) (Vm.Transfers.single 22)
    fun out _ => ∃ d : Nat, out.2.1 = some (d : Int) ∧ out.1.nread = 0 + BitVec.ofNat 32 d := by
  let _ := Vm.Transfers.sample
  have pages : Vm.Transfers.RamPages (Vm.Transfers.single 22) 0x87000 :=
    Vm.Transfers.single_pages (by decide) (by decide) (by decide)
  have takes := read_takes_reported_iff (Vm.Transfers.single 22) 0x87000 0 pages.userPages (by decide)
  apply Ends.weaken (takes.1 1 [] _ ⟨fun _ => 120, 0, 1, true, true⟩ rfl)
  rintro out m' ⟨d, result, taken⟩
  refine ⟨d, result, taken.mpr ?_⟩
  rintro ⟨k, inside, none⟩
  obtain rfl : k = 0 := Nat.lt_one_iff.mp inside
  exact absurd none (by decide +kernel)

/-- A byte of a pipe and one of the console, read into a page that is not there. -/
theorem undelivered_bytes_are_taken :
    (match piperead 0x87000 4096 1 [] ⟨fun _ => 120, 0, 1, true, true⟩ (Vm.Transfers.single 22) with
      | .ok (pi, result, _) _ => some (pi.nread, result)
      | .error _ _ => none) = some (1, some 0) ∧
    (match consoleread 0x87000 4096 1 [] ⟨fun _ => 120, 0, 1, 1⟩ (Vm.Transfers.single 22) with
      | .ok (cons, result, _) _ => some (cons.r, result)
      | .error _ _ => none) = some (1, some 0) := by
  decide +kernel

end Losses

section Inodes
variable {sb : Fs.Format.Layout} {m m₁ : Mem} {r addr : Nat} {stored : List Byte}

/-- The memory of a process as readi sees it. -/
def accepting (m : Mem) (r addr : Nat) : Dest := ⟨fun start count => decide (reach m r (addr + start) count = count)⟩

/-- There is a block for the offset, or there is one now. -/
def Found (sb : Fs.Format.Layout) (s : File) (off : Nat) : Prop := ∃ s₁ a, bmap sb s (off / BSIZE) = .ok (s₁, a) ∧ a ≠ 0

/-- The loop stores no more than it is asked to, and it is the loop of readi over the pages that the process has. -/
theorem readLoopUser_ends (user : UserPages m r) {n : Nat} (fuel : Nat) (s : File) (off : Nat) (got : List Byte)
    (progress : Progress m r addr stored m₁) (few : stored.length ≤ n) (room : off + (n - stored.length) ≤ MAXFILE * BSIZE) :
    Ends (readLoopUser sb r n fuel s off (addr + stored.length) stored.length stored) m₁ fun out m₂ =>
      Done m r addr n (some out.2.1) out.2.2 m₂ ∧ stored.length ≤ out.2.2.length ∧
        (∃ got', readLoop sb (accepting m r addr) n fuel s off stored.length got = .ok (out.1, out.2.1, got')) ∧
        (0 < fuel → stored.length < n →
          (stored.length < out.2.2.length ↔ Found sb s off ∧ translate m r (addr + stored.length) ≠ none)) := by
  have stop : ∀ {stored m₂}, Progress m r addr stored m₂ → stored.length ≤ n →
      Done m r addr n (some (stored.length : Int)) stored m₂ :=
    fun progress few => ⟨progress, few, fun x same => .inr (Option.some.inj same).symm⟩
  induction fuel generalizing s off got stored m₁ with
  | zero => exact Ends.pure ⟨stop progress few, le_rfl, ⟨got, rfl⟩, fun some => absurd some (Nat.lt_irrefl 0)⟩
  | succ fuel ih =>
    unfold readLoopUser readLoop
    by_cases more : stored.length < n
    · rw [if_pos more, if_pos more]
      have bound : off / BSIZE < MAXFILE := Nat.div_lt_of_lt_mul (by rw [Nat.mul_comm]; omega)
      have positive : 0 < BSIZE - off % BSIZE := Nat.sub_pos_of_lt (Nat.mod_lt _ (by decide))
      obtain ⟨s₁, a, _, _, mapped⟩ := Fs.Logged.bmapLogged_spec sb s ⟨off / BSIZE, bound⟩
      have run : bmap sb s (off / BSIZE) = .ok (s₁, a) := mapped.run
      rw [run]
      by_cases none : a = 0
      · refine ⟨_, _, congrFun (if_pos none) m₁, stop progress few, le_rfl, ⟨got, if_pos none⟩, fun _ _ => ?_⟩
        refine iff_of_false (Nat.lt_irrefl _) ?_
        rintro ⟨⟨s₂, a', run', some⟩, -⟩
        rw [run] at run'
        exact some ((Prod.mk.inj (Except.ok.inj run')).2.symm.trans none)
      · obtain ⟨k, size⟩ : ∃ k, k = min (n - stored.length) (BSIZE - off % BSIZE) := ⟨_, rfl⟩
        have length : (bytesOf (s₁.disk a) (off % BSIZE) k).length = k := by
          rw [bytesOf, length_map, length_range]
        dsimp only [Bind.bind, Except.bind]
        rw [if_neg none, if_neg none, ← size]
        apply Ends.bind (progress.store user (bytesOf (s₁.disk a) (off % BSIZE) k))
        rintro ⟨ok, new⟩ m₂ ⟨progress', stores⟩
        have reached := stores.length
        have le := stores.part.length_le
        have whole := stores.whole
        rw [length] at reached le whole
        dsimp only at progress' reached le whole ⊢
        have total : (stored ++ new).length = stored.length + new.length := length_append
        have begun : 0 < new.length ↔ Found sb s off ∧ translate m r (addr + stored.length) ≠ Option.none := by
          rw [reached, reach_pos (by omega)]
          exact ⟨fun here => ⟨⟨s₁, a, run, none⟩, here⟩, And.right⟩
        cases ok with
        | true =>
          have all := whole.mp rfl
          have accepts : (accepting m r addr).accepts stored.length k = true := decide_eq_true (reached.symm.trans all)
          have place : (addr + stored.length + k) % 2 ^ 64 = addr + (stored ++ new).length := by
            rw [← Nat.mod_eq_of_lt progress'.low, total, all, Nat.add_assoc]
          have count : stored.length + k = (stored ++ new).length := by rw [total, all]
          rw [if_pos rfl, accepts, if_pos rfl, place, count]
          apply Ends.weaken (ih s₁ (off + k) (got ++ bytesOf (s₁.disk a) (off % BSIZE) k) progress' (by omega) (by omega))
          rintro out m₃ ⟨done, grown, same, -⟩
          exact ⟨done, by omega, same, fun _ _ => by rw [← begun]; omega⟩
        | false =>
          have short : new.length ≠ k := fun all => absurd (whole.mpr all) Bool.false_ne_true
          have refused : (accepting m r addr).accepts stored.length k = false :=
            decide_eq_false fun all => short (reached.trans all)
          rw [if_neg Bool.false_ne_true, refused, if_neg Bool.false_ne_true]
          have few' : (stored ++ new).length ≤ n := by omega
          have grown : stored.length ≤ (stored ++ new).length := by omega
          exact Ends.pure ⟨⟨progress', few', fun x same => .inl (Option.some.inj same).symm⟩, grown, ⟨got, rfl⟩, fun _ _ => by
            rw [← begun, total]
            omega⟩
    · rw [if_neg more, if_neg more]
      exact Ends.pure ⟨stop progress few, le_rfl, ⟨got, rfl⟩, fun _ less => absurd less more⟩

def asked (s : File) (off n : BitVec 32) : Nat :=
  if off > s.ip.size ∨ off + n < off then 0 else (if off + n > s.ip.size then s.ip.size - off else n).toNat

theorem asked_le (s : File) (off n : BitVec 32) :
    asked s off n ≤ n.toNat ∧ (0 < asked s off n → off.toNat + asked s off n ≤ s.ip.size.toNat) := by
  unfold asked
  split_ifs with outside past
  · exact ⟨Nat.zero_le _, fun some => absurd some (Nat.lt_irrefl 0)⟩
  · have total := Fs.Transfer.toNat_add_of_not_lt (not_or.mp outside).2
    have before := (not_or.mp outside).1
    rw [gt_iff_lt, BitVec.lt_def] at before
    rw [gt_iff_lt, BitVec.lt_def, total] at past
    rw [BitVec.toNat_sub_of_le (by rw [BitVec.le_def]; omega)]
    omega
  · have total := Fs.Transfer.toNat_add_of_not_lt (not_or.mp outside).2
    rw [gt_iff_lt, BitVec.lt_def, total] at past
    omega

/-- A negative number is a large unsigned one, so that readi sets out to copy the rest of the file unless the sum with the
offset overflows. -/
theorem asked_negative {s : File} {off n : BitVec 32} (negative : n.toInt < 0) (bound : s.ip.size.toNat ≤ MAXFILE * BSIZE) :
    0 < asked s off n ↔ off.toNat < s.ip.size.toNat ∧ (off.toNat : Int) < -n.toInt := by
  have limit : MAXFILE * BSIZE < 2 ^ 31 := by decide
  have value : n.toInt = (n.toNat : Int) - 2 ^ 32 := by
    rw [BitVec.toInt_eq_toNat_cond] at negative ⊢
    split_ifs at negative ⊢
    · omega
    · rfl
  have large := BitVec.le_toInt (x := n)
  have small := n.isLt
  have wraps : off + n < off ↔ 2 ^ 32 ≤ off.toNat + n.toNat := by
    have off' := off.isLt
    rw [BitVec.lt_def, BitVec.toNat_add]
    omega
  unfold asked
  split_ifs with outside past <;> rw [wraps, gt_iff_lt, BitVec.lt_def] at outside
  · omega
  · rw [BitVec.toNat_sub_of_le (by rw [BitVec.le_def]; omega)]
    omega
  · exfalso
    rw [gt_iff_lt, BitVec.lt_def, BitVec.toNat_add, Nat.mod_eq_of_lt (by omega)] at past
    omega

theorem readiUser_ends (user : UserPages m r) (low : addr < 2 ^ 64) (s : File) (off n : BitVec 32)
    (bound : s.ip.size.toNat ≤ MAXFILE * BSIZE) :
    Ends (readiUser sb r s addr off n) m fun out m' => Done m r addr (asked s off n) (some out.2.1) out.2.2 m' ∧
      (∃ got, readi sb s (accepting m r addr) off n = .ok (out.1, out.2.1, got)) ∧
      (0 < out.2.2.length ↔ 0 < asked s off n ∧ Found sb s off.toNat ∧ translate m r addr ≠ none) := by
  have room := (asked_le s off n).2
  unfold readiUser readi
  by_cases outside : off > s.ip.size ∨ off + n < off
  · have nothing : asked s off n = 0 := if_pos outside
    rw [if_pos outside, if_pos outside]
    refine Ends.pure ⟨.nothing low fun x same => .inr (Option.some.inj same).symm, ⟨[], rfl⟩, ?_⟩
    exact iff_of_false (Nat.lt_irrefl 0) fun both => absurd both.1 (by omega)
  · have count : (if off + n > s.ip.size then s.ip.size - off else n).toNat = asked s off n := (if_neg outside).symm
    rw [if_neg outside, if_neg outside]
    dsimp only
    rw [count]
    by_cases none : asked s off n = 0
    · rw [none]
      refine Ends.pure ⟨.nothing low fun x same => .inr (Option.some.inj same).symm, ⟨[], rfl⟩, ?_⟩
      exact iff_of_false (Nat.lt_irrefl 0) fun both => absurd both.1 (Nat.lt_irrefl 0)
    · have ends := @readLoopUser_ends sb m m r addr [] user (asked s off n) (asked s off n) s off.toNat [] (.start low) (Nat.zero_le _)
        (by rw [length_nil]; omega)
      apply Ends.weaken ends
      rintro out m' ⟨done, -, same, begun⟩
      refine ⟨done, same, ?_⟩
      have first := begun (by omega) (by rw [length_nil]; omega)
      rw [length_nil, Nat.add_zero] at first
      rw [first]
      exact ⟨fun both => ⟨by omega, both⟩, And.right⟩

end Inodes

section Calls
variable {sb : Fs.Format.Layout} {m : Mem} {r : Nat}

/-- A read has stored no more than it was asked to, from its address on, and nothing else in the memory has changed; it returned
-1 or the number of these bytes, by which the offset of an inode has advanced. -/
structure Transferred (m : Mem) (r : Nat) (addr : BitVec 64) (n : BitVec 32) (f f' : OpenFile) (result : Option Int)
    (stored : List Byte) (m' : Mem) : Prop where
  few : stored.length ≤ n.toInt.toNat
  memory : Moved m r addr.toNat stored stored.length m'
  returned : ∀ x, result = some x → x = -1 ∨ x = stored.length
  off : f.type = .inode → ∀ x, result = some x → f'.off.toNat = f.off.toNat + if x = -1 then 0 else stored.length

/-- A negative length makes readi store something. -/
def Overreads (sb : Fs.Format.Layout) (m : Mem) (r : Nat) (f : OpenFile) (addr : BitVec 64) (n : BitVec 32) (ip : File) : Prop :=
  f.type = .inode ∧ f.readable = true ∧ n.toInt < 0 ∧ f.off.toNat < ip.ip.size.toNat ∧ (f.off.toNat : Int) < -n.toInt ∧
    Found sb ip f.off.toNat ∧ translate m r addr.toNat ≠ none

theorem Done.transferred {addr : BitVec 64} {n : BitVec 32} {f f' : OpenFile} {result : Option Int} {stored : List Byte}
    {m' : Mem} (done : Done m r addr.toNat n.toInt.toNat result stored m') (other : f.type ≠ .inode) :
    Transferred m r addr n f f' result stored m' :=
  ⟨done.few, done.progress.moved, done.result, fun same => absurd same other⟩

theorem advanced {s : File} {off n : BitVec 32} {result : Int} {count : Nat} (few : count ≤ asked s off n)
    (returned : result = -1 ∨ result = count) :
    (if result > 0 then off + BitVec.ofInt 32 result else off).toNat = off.toNat + if result = -1 then 0 else count := by
  have room := (asked_le s off n).2
  have limit := s.ip.size.isLt
  rcases returned with rfl | rfl
  · rfl
  · rw [if_neg (show ¬(count : Int) = -1 by omega)]
    split_ifs with some
    · have number : (BitVec.ofInt 32 (count : Int)).toNat = count := by
        rw [BitVec.toNat_ofInt]
        omega
      rw [BitVec.toNat_add, number, Nat.mod_eq_of_lt (by omega)]
    · omega

/-- A read transfers what it should unless a negative length reaches readi as a large one. -/
theorem fileread_transfers_iff (sb : Fs.Format.Layout) (m : Mem) (r : Nat) (user : UserPages m r) (f : OpenFile)
    (known : f.type ≠ .none) (addr : BitVec 64) (n : BitVec 32) (pipes : List (Bool × Pipe)) (inputs : List (Bool × Cons))
    (x : Target) (bound : f.type = .inode → x.ip.ip.size.toNat ≤ MAXFILE * BSIZE) :
    ∃ x' f' result stored m', fileread sb r f addr n pipes inputs x m = .ok (x', f', result, stored) m' ∧
      (Transferred m r addr n f f' result stored m' ↔ ¬Overreads sb m r f addr n x.ip) := by
  have nothing : Transferred m r addr n f f (some (-1)) [] m := by
    have done : Done m r addr.toNat n.toInt.toNat (some (-1)) [] m :=
      .nothing addr.isLt fun x same => .inl (Option.some.inj same).symm
    refine ⟨done.few, done.progress.moved, done.result, fun _ x same => ?_⟩
    rw [← Option.some.inj same]
    rfl
  unfold fileread
  by_cases closed : f.readable = false
  · refine ⟨x, f, some (-1), [], m, congrFun (if_pos closed) m, iff_of_true nothing fun reads => ?_⟩
    exact absurd (closed.symm.trans reads.2.1) Bool.false_ne_true
  · rw [if_neg closed]
    cases type : f.type with
    | none => exact absurd type known
    | pipe =>
      have other : f.type ≠ .inode := by rw [type]; nofun
      obtain ⟨⟨pi, result, stored⟩, m', ran, done⟩ := piperead_ends user addr.isLt n.toInt pipes x.pi
      refine ⟨{ x with pi }, f, result, stored, m', ?_, iff_of_true (done.transferred other) fun reads => other reads.1⟩
      exact bind_ok ran
    | device =>
      have other : f.type ≠ .inode := by rw [type]; nofun
      dsimp only
      split_ifs
      · exact ⟨x, f, some (-1), [], m, rfl, iff_of_true nothing fun reads => other reads.1⟩
      · obtain ⟨⟨cons, result, stored⟩, m', ran, done⟩ := consoleread_ends user addr.isLt n inputs x.cons
        refine ⟨{ x with cons }, f, result, stored, m', ?_, iff_of_true (done.transferred other) fun reads => other reads.1⟩
        exact bind_ok ran
    | inode =>
      obtain ⟨⟨ip, result, stored⟩, m', ran, done, -, begun⟩ := @readiUser_ends sb m r addr.toNat user addr.isLt x.ip f.off n (bound type)
      dsimp only at done begun
      have returned := done.result result rfl
      refine ⟨{ x with ip }, if result > 0 then { f with off := f.off + BitVec.ofInt 32 result } else f, some result, stored, m',
        ?_, fun moved reads => ?_, fun fine => ?_⟩
      · refine (bind_ok ran).trans ?_
        rw [type]
        rfl
      · -- with a negative length no byte is one too many
        obtain ⟨-, -, negative, inside, before, found, mapped⟩ := reads
        have some := begun.mpr ⟨(asked_negative negative (bound type)).mpr ⟨inside, before⟩, found, mapped⟩
        have few := moved.few
        omega
      · refine ⟨?_, done.progress.moved, done.result, fun _ y same => ?_⟩
        · by_cases negative : n.toInt < 0
          · by_contra some
            obtain ⟨more, found, mapped⟩ := begun.mp (by omega)
            obtain ⟨inside, before⟩ := (asked_negative negative (bound type)).mp more
            exact fine ⟨type, by simpa using closed, negative, inside, before, found, mapped⟩
          · have value : n.toInt.toNat = n.toNat := by
              rw [BitVec.toInt_eq_toNat_cond] at negative ⊢
              split_ifs at negative ⊢ <;> omega
            rw [value]
            exact done.few.trans (asked_le x.ip f.off n).1
        · obtain rfl := Option.some.inj same
          rw [← advanced done.few returned]
          split_ifs <;> rfl

def sampleTarget : Target :=
  ⟨Fs.Offsets.sample.world.file (), ⟨fun _ => 0, 0, 0, true, true⟩, ⟨fun _ => 0, 0, 0, 0⟩⟩

def sampleFile : OpenFile := ⟨.inode, true, 0, 0⟩

/-- A process with one page that reads two bytes of the file. -/
theorem fileread_transfers_iff_sample : ∃ x' f' result stored m',
    fileread Fs.Offsets.sampleLayout 0x87000 sampleFile 0 2 [] [] sampleTarget (Vm.Transfers.single 22) =
      .ok (x', f', result, stored) m' ∧
    Transferred (Vm.Transfers.single 22) 0x87000 0 2 sampleFile f' result stored m' := by
  let _ := Vm.Transfers.sample
  have pages : Vm.Transfers.RamPages (Vm.Transfers.single 22) 0x87000 :=
    Vm.Transfers.single_pages (by decide) (by decide) (by decide)
  obtain ⟨x', f', result, stored, m', ran, moved⟩ := fileread_transfers_iff Fs.Offsets.sampleLayout (Vm.Transfers.single 22)
    0x87000 pages.userPages sampleFile nofun 0 2 [] [] sampleTarget fun _ => show 4 ≤ MAXFILE * BSIZE by decide
  exact ⟨x', f', result, stored, m', ran, moved.mpr fun reads => absurd reads.2.2.1 (by decide)⟩

/-- A read of -1 bytes stores the whole file. -/
theorem negative_read_stores : ∃ x' f' stored m',
    fileread Fs.Offsets.sampleLayout 0x87000 sampleFile 0 (-1) [] [] sampleTarget (Vm.Transfers.single 22) =
      .ok (x', f', some 4, stored) m' ∧ stored = [0xff, 0xff, 0xff, 0xff] ∧ f'.off = 4 ∧
    ¬Transferred (Vm.Transfers.single 22) 0x87000 0 (-1) sampleFile f' (some 4) stored m' := by
  have played : (match fileread Fs.Offsets.sampleLayout 0x87000 sampleFile 0 (-1) [] [] sampleTarget (Vm.Transfers.single 22) with
      | .ok (_, f', result, stored) _ => some (f'.off, result, stored)
      | .error _ _ => none) = some (4, some 4, [0xff, 0xff, 0xff, 0xff]) := by decide +kernel
  cases run : fileread Fs.Offsets.sampleLayout 0x87000 sampleFile 0 (-1) [] [] sampleTarget (Vm.Transfers.single 22) with
  | error e m' =>
    rw [run] at played
    cases played
  | ok out m' =>
    obtain ⟨x', f', result, stored⟩ := out
    rw [run] at played
    obtain ⟨off, rest⟩ := Prod.mk.inj (Option.some.inj played)
    obtain ⟨rfl, rfl⟩ := Prod.mk.inj rest
    exact ⟨x', f', _, m', rfl, rfl, off, fun moved => absurd moved.few (by decide)⟩

end Calls

end Xv6.System.Fileread
