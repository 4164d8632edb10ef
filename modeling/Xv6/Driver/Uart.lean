import Xv6.Lib.Queue
import Xv6.Lib.Transition

/-! The transmitting half of uart.c: processes in uartputc, handlers in uartintr, and the device. Bytes that uartputc_sync puts
into the device past the buffer are left out. -/

namespace Xv6.Driver.Uart

open Lib.Queue Lib.Transition

def UART_TX_BUF_SIZE : Nat := 32

/-- Of the callers on the way to acquire and of those asleep we only need their bytes; a handler has none. The device is
LSR_TX_IDLE while thr is none. The last three fields record what was passed to uartputc, stored in the buffer and sent. -/
structure State where
  txBuf : Nat → BitVec 8
  txW : BitVec 64
  txR : BitVec 64
  locked : Bool
  wants : Multiset (Option (BitVec 8))
  asleep : Multiset (BitVec 8)
  thr : Option (BitVec 8)
  irq : Bool
  called : Multiset (BitVec 8)
  stored : List (BitVec 8)
  sent : List (BitVec 8)

/-- The loop of uartputc and the store after it, for a caller that has just got the lock. -/
def uartputc (s : State) (c : BitVec 8) : State :=
  if s.txW = s.txR + BitVec.ofNat 64 UART_TX_BUF_SIZE then { s with asleep := c ::ₘ s.asleep }
  else
    { s with
      txBuf := Function.update s.txBuf (s.txW.toNat % UART_TX_BUF_SIZE) c
      txW := s.txW + 1
      locked := true
      stored := s.stored ++ [c] }

/-- One round of the loop of uartstart, with the release after its return. -/
def uartstart (s : State) : State :=
  if s.txW = s.txR ∨ s.thr.isSome then { s with locked := false }
  else
    { s with
      txR := s.txR + 1
      wants := s.wants + s.asleep.map some
      asleep := 0
      thr := some (s.txBuf (s.txR.toNat % UART_TX_BUF_SIZE)) }

inductive Event where
  | call (c : BitVec 8)
  | interrupt
  | acquire (caller : Option (BitVec 8))
  | uartstart
  | rouse (c : BitVec 8)
  | transmit

/-- A step, none where it is not possible. The receiver interrupts too, and kill wakes processes. -/
def step (s : State) : Event → Option State
  | .call c => some { s with wants := some c ::ₘ s.wants, called := c ::ₘ s.called }
  | .interrupt => some { s with wants := none ::ₘ s.wants, irq := false }
  | .acquire caller =>
    if caller ∈ s.wants ∧ s.locked = false then
      let s := { s with wants := s.wants.erase caller }
      match caller with
      | none => some { s with locked := true }
      | some c => some (uartputc s c)
    else none
  | .uartstart => if s.locked then some (uartstart s) else none
  | .rouse c =>
    if c ∈ s.asleep then some { s with wants := some c ::ₘ s.wants, asleep := s.asleep.erase c } else none
  | .transmit => s.thr.map fun c => { s with thr := none, irq := true, sent := s.sent ++ [c] }

def Steps (s s' : State) : Prop := ∃ e, step s e = some s'

structure Init (s : State) : Prop where
  counters : s.txW = 0 ∧ s.txR = 0
  idle : s.thr = none ∧ s.wants = 0 ∧ s.asleep = 0
  nothing : s.called = 0 ∧ s.stored = [] ∧ s.sent = []

def State.given (s : State) : List (BitVec 8) := s.sent ++ s.thr.toList

structure Inv (s : State) : Prop where
  fifo : Fifo UART_TX_BUF_SIZE s.txR s.txW s.txBuf s.stored s.given
  full : s.asleep ≠ 0 → s.stored.length = s.given.length + UART_TX_BUF_SIZE
  driven : s.locked = false → s.txW ≠ s.txR → s.thr.isSome ∨ s.irq ∨ none ∈ s.wants
  own : s.called = s.stored + s.wants.filterMap id + s.asleep

section Steps
variable {s s' : State} {c : BitVec 8}

theorem Init.inv (init : Init s) : Inv s := by
  obtain ⟨⟨w, r⟩, ⟨thr, wants, asleep⟩, called, stored, sent⟩ := init
  refine ⟨?_, by simp [asleep], by simp [w, r], by simp [called, stored, wants, asleep]⟩
  constructor <;> simp [State.given, stored, sent, thr, w, r]

variable (inv : Inv s)
include inv

theorem Inv.uartputc (comes : some c ∈ s.wants) (free : s.locked = false) :
    Inv (uartputc { s with wants := s.wants.erase (some c) } c) := by
  have own : s.called = s.stored + (c ::ₘ (s.wants.erase (some c)).filterMap id) + s.asleep := by
    rw [inv.own, ← Multiset.filterMap_cons_some id (some c) _ rfl, Multiset.cons_erase comes]
  unfold Uart.uartputc
  split
  · rename_i full
    refine ⟨inv.fifo, fun _ => (inv.fifo.full_iff (by decide)).mp full, fun _ some => ?_, ?_⟩
    · simpa [Multiset.mem_erase_of_ne] using inv.driven free some
    · simp [own]
  · rename_i room
    have short : s.stored.length ≠ s.given.length + UART_TX_BUF_SIZE :=
      fun same => room ((inv.fifo.full_iff (by decide)).mpr same)
    have pushed := inv.fifo.push (by decide) (lt_of_le_of_ne inv.fifo.room short) c
    refine ⟨pushed, fun asleep => absurd (inv.full asleep) short, by simp, ?_⟩
    rw [own]
    simp [← Multiset.coe_add, add_assoc]

theorem Inv.uartstart (held : s.locked) : Inv (uartstart s) := by
  unfold Uart.uartstart
  split
  · rename_i done
    exact ⟨inv.fifo, inv.full, fun _ some => .inl (done.resolve_left some), inv.own⟩
  · rename_i more
    obtain ⟨nonempty, busy⟩ := not_or.mp more
    have idle : s.thr = none := by simpa using busy
    have popped := inv.fifo.pop (by decide) fun same => nonempty ((inv.fifo.empty_iff (by decide)).mpr same).symm
    have woken : (s.asleep.map some).filterMap id = s.asleep := by
      rw [← Multiset.filterMap_eq_map, Multiset.filterMap_filterMap]
      exact Multiset.filterMap_some _
    refine ⟨?_, by simp, by simp [held], ?_⟩
    · simpa [State.given, idle] using popped
    · simp [inv.own, Multiset.filterMap_add, woken, add_assoc]

theorem Inv.step (next : Steps s s') : Inv s' := by
  obtain ⟨e, taken⟩ := next
  cases e with
  | call c =>
    cases taken
    exact ⟨inv.fifo, inv.full, by simpa using inv.driven, by simp [inv.own]⟩
  | interrupt =>
    cases taken
    exact ⟨inv.fifo, inv.full, by simp, by simp [inv.own]⟩
  | acquire caller =>
    obtain ⟨⟨comes, free⟩, taken⟩ := Option.ite_none_right_eq_some.mp taken
    cases caller with
    | none =>
      cases taken
      refine ⟨inv.fifo, inv.full, by simp, ?_⟩
      rw [inv.own, ← Multiset.cons_erase comes]
      simp
    | some c =>
      cases taken
      exact inv.uartputc comes free
  | uartstart =>
    obtain ⟨held, taken⟩ := Option.ite_none_right_eq_some.mp taken
    cases taken
    exact inv.uartstart held
  | rouse c =>
    obtain ⟨asleep, taken⟩ := Option.ite_none_right_eq_some.mp taken
    cases taken
    refine ⟨inv.fifo, fun _ => inv.full ?_, by simpa using inv.driven, ?_⟩
    · exact fun nobody => by simp [nobody] at asleep
    · rw [inv.own, ← Multiset.cons_erase asleep]
      simp
  | transmit =>
    obtain ⟨c, busy, rfl⟩ := Option.map_eq_some_iff.mp taken
    have given : s.given = s.sent ++ [c] := by simp [State.given, busy]
    have fifo := inv.fifo
    have full := inv.full
    rw [given] at fifo full
    exact ⟨by simpa [State.given] using fifo, by simpa [State.given] using full, by simp, inv.own⟩

end Steps

/-- Nobody has the lock or is on the way to it, and the device has nothing to send and no interrupt to deliver. -/
structure Quiet (s : State) : Prop where
  lock : s.locked = false ∧ s.wants = 0
  device : s.thr = none ∧ s.irq = false

/-- No byte is lost, sent twice or out of order: what is sent is the beginning of what was stored, and every byte passed to
uartputc is stored once or still with its caller. Once nothing moves any more, every byte has been sent and nobody sleeps. -/
theorem uart_sends_every_byte {s : State} (reached : Reachable Init Steps s) :
    s.sent <+: s.stored ∧ s.called = s.stored + s.wants.filterMap id + s.asleep ∧
      (Quiet s → s.called = s.sent ∧ s.asleep = 0) := by
  have inv : Inv s := reached.invariant Inv (fun _ => Init.inv) fun _ _ => Inv.step
  refine ⟨(List.prefix_append _ _).trans inv.fifo.order, inv.own, fun quiet => ?_⟩
  have empty : s.txW = s.txR := by
    by_contra some
    have driven := inv.driven quiet.lock.1 some
    simp [quiet.device, quiet.lock.2] at driven
  have all : s.given = s.stored := (inv.fifo.empty_iff (by decide)).mp empty.symm
  have nobody : s.asleep = 0 := by
    by_contra asleep
    exact absurd (inv.full asleep) (by simp [all, UART_TX_BUF_SIZE])
  have sent : s.sent = s.stored := by simpa [State.given, quiet.device.1] using all
  exact ⟨by simp [inv.own, sent, nobody, quiet.lock.2], nobody⟩

def start : State := ⟨fun _ => 0, 0, 0, false, 0, 0, none, false, 0, [], []⟩

/-- Two callers, of whom the second gets the lock first. The other byte waits in the buffer for the interrupt. -/
def twoCallers : List Event :=
  [.call 0x78, .call 0x79, .acquire (some 0x79), .uartstart, .uartstart, .acquire (some 0x78), .uartstart, .transmit,
    .interrupt, .acquire none, .uartstart, .uartstart, .transmit, .interrupt, .acquire none, .uartstart]

theorem uart_sends_two_callers : ∃ s, twoCallers.foldlM step start = some s ∧ s.stored = [0x79, 0x78] ∧
    s.sent <+: s.stored ∧ s.called = {0x79, 0x78} ∧ s.called = s.sent := by
  have init : Reachable Init Steps start := .init start ⟨⟨rfl, rfl⟩, ⟨rfl, rfl, rfl⟩, rfl, rfl, rfl⟩
  have played : twoCallers.foldlM step start = some _ := rfl
  have reached := init.foldlM (fun _ e _ next => ⟨e, next⟩) played
  obtain ⟨order, -, all⟩ := uart_sends_every_byte reached
  exact ⟨_, played, rfl, order, rfl, (all ⟨⟨rfl, rfl⟩, rfl, rfl⟩).1⟩

end Xv6.Driver.Uart
