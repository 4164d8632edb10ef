import Xv6.Lib.Chain
import Xv6.Lib.Transition

/-! The allocator of user/umalloc.c: the circular free list, malloc and free, and the runs of a program that calls them. -/

namespace Xv6.User.Umalloc

open Lib.Chain

structure Header where
  ptr : Nat
  size : Nat

def headerSize : Nat := 16

/-- A call of sbrk that gave memory: the old break, the argument, and the units that the header there then says. -/
structure Grant where
  address : Nat
  argument : Int
  recorded : Nat
deriving DecidableEq

/-- The whole units in the bytes that the call added to the process. -/
def Grant.units (g : Grant) : Nat := g.argument.toNat / headerSize

/-- The headers by address, the static freep (0 is null), the calls of sbrk that gave memory and the break after the last
one. -/
structure Heap where
  hdr : Nat → Header
  freep : Nat
  brk : Nat
  got : List Grant

namespace Heap

def ptr (h : Heap) (p : Nat) : Nat := (h.hdr p).ptr

def size (h : Heap) (p : Nat) : Nat := (h.hdr p).size

def setPtr (h : Heap) (p q : Nat) : Heap := { h with hdr := Function.update h.hdr p { h.hdr p with ptr := q } }

def setSize (h : Heap) (p n : Nat) : Heap := { h with hdr := Function.update h.hdr p { h.hdr p with size := n % 2 ^ 32 } }

def stop (h : Heap) (p : Nat) : Nat := p + headerSize * h.size p

end Heap

def leaves (h : Heap) (bp p : Nat) : Bool :=
  (p < bp && bp < h.ptr p) || (h.ptr p ≤ p && (p < bp || bp < h.ptr p))

def joinNext (h : Heap) (bp p : Nat) : Heap :=
  if h.stop bp = h.ptr p then
    let h := h.setSize bp (h.size bp + h.size (h.ptr p))
    h.setPtr bp (h.ptr (h.ptr p))
  else h.setPtr bp (h.ptr p)

def joinPrev (h : Heap) (bp p : Nat) : Heap :=
  if h.stop p = bp then
    let h := h.setSize p (h.size p + h.size bp)
    h.setPtr p (h.ptr bp)
  else h.setPtr p bp

def free (fuel : Nat) (h : Heap) (ap : Nat) : Option Heap := do
  let bp := ap - headerSize
  let p ← search h.ptr (leaves h bp) fuel h.freep
  some { joinPrev (joinNext h bp p) bp p with freep := p }

def request (nu : Nat) : Nat := if nu < 4096 then 4096 else nu

/-- nu * sizeof(Header) has 64 bits, and sbrk takes an int. -/
def argument (nu : Nat) : Int := (BitVec.ofNat 32 (headerSize * nu)).toInt

/-- The end of the process after growproc. A size below 0 is a large one of 64 bits, for which uvmdealloc frees nothing. -/
def newBreak (hp : Nat) (n : Int) : Nat := if 0 ≤ hp + n then (hp + n).toNat else hp

/-- sbrk is given its argument and the end of the memory obtained so far; none is its failure. The result 0 is null. -/
def morecore (sbrk : Int → Nat → Option Nat) (fuel : Nat) (h : Heap) (nu : Nat) : Option (Heap × Nat) :=
  let nu := request nu
  match sbrk (argument nu) h.brk with
  | none => some (h, 0)
  | some hp => do
    let h := { h with brk := newBreak hp (argument nu), got := ⟨hp, argument nu, nu⟩ :: h.got }
    let h ← free fuel (h.setSize hp nu) (hp + headerSize)
    some (h, h.freep)

def take (h : Heap) (nunits prevp p : Nat) : Heap × Nat :=
  if h.size p = nunits then ({ h.setPtr prevp (h.ptr p) with freep := prevp }, p + headerSize)
  else
    let h := h.setSize p (h.size p - nunits)
    let p := h.stop p
    ({ h.setSize p nunits with freep := prevp }, p + headerSize)

def mallocLoop (sbrk : Int → Nat → Option Nat) (nunits : Nat) : Nat → Heap → Nat → Nat → Option (Heap × Nat)
  | 0, _, _, _ => none
  | fuel + 1, h, prevp, p =>
    if nunits ≤ h.size p then some (take h nunits prevp p)
    else if p = h.freep then do
      let (h, p) ← morecore sbrk fuel h nunits
      if p = 0 then some (h, 0) else mallocLoop sbrk nunits fuel h p (h.ptr p)
    else mallocLoop sbrk nunits fuel h p (h.ptr p)

def units (nbytes : Nat) : Nat := (nbytes + headerSize - 1) / headerSize + 1

def baseOnly (base : Nat) (h : Heap) : Heap := ({ h with freep := base }.setPtr base base).setSize base 0

def malloc (base : Nat) (sbrk : Int → Nat → Option Nat) (fuel : Nat) (h : Heap) (nbytes : Nat) : Option (Heap × Nat) :=
  let h := if h.freep = 0 then baseOnly base h else h
  mallocLoop sbrk (units nbytes) fuel h h.freep (h.ptr h.freep)

/-- A program's calls, and its writes to memory. -/
inductive Event
  | malloc (nbytes : Nat) (sbrk : Int → Nat → Option Nat)
  | free (ap : Nat)
  | write (hdr : Nat → Header)

/-- The heap, and the blocks the program holds: their addresses and the bytes it asked for. -/
structure State where
  heap : Heap
  live : List (Nat × Nat)

/-- sbrk takes an int, and gives a range after those it has given; the program frees only what it holds, and writes over
no header of a block. -/
def Permitted (base : Nat) (s : State) : Event → Prop
  | .malloc nbytes sbrk => nbytes < 2 ^ 32 ∧
      ∀ brk a, sbrk (argument (request (units nbytes))) brk = some a → headerSize * request (units nbytes) < 2 ^ 31 ∧ brk ≤ a
  | .free ap => ∃ n, (ap, n) ∈ s.live
  | .write hdr => hdr base = s.heap.hdr base ∧ (∀ b ∈ s.live, hdr (b.1 - headerSize) = s.heap.hdr (b.1 - headerSize)) ∧
      ∀ l, Links s.heap.ptr (base :: l) base → ∀ p ∈ l, hdr p = s.heap.hdr p

def exec (base fuel : Nat) (s : State) : Event → Option State
  | .malloc nbytes sbrk => do
    let (h, ap) ← malloc base sbrk fuel s.heap nbytes
    some { heap := h, live := if ap = 0 then s.live else (ap, nbytes) :: s.live }
  | .free ap => do
    let h ← free fuel s.heap ap
    some { heap := h, live := s.live.filter fun b => b.1 ≠ ap }
  | .write hdr => some { s with heap := { s.heap with hdr := hdr } }

end Xv6.User.Umalloc
