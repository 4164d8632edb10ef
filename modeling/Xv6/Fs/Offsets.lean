import Xv6.Fs.Transfer
import Xv6.Lib.Transition

/-! fileread and filewrite of file.c on an inode, by processes that share one struct file. What a process does while it holds
the lock of the inode is one step; a long write is many of them, and others run in between. -/

namespace Xv6.Fs.Offsets

open Lib.Bytes Lib.Transition Format Inode Blocks Transfer Function List

section Machine

structure OpenFile where
  readable : Bool
  writable : Bool
  off : BitVec 32

/-- The most that filewrite passes to one writei. -/
def maxChunk : Nat := (MAXOPBLOCKS - 1 - 1 - 2) / 2 * BSIZE

def advance (f : OpenFile) (r : Int) : OpenFile := if r > 0 then { f with off := f.off + BitVec.ofInt 32 r } else f

def readLocked (sb : Layout) (s : File) (f : OpenFile) (dst : Dest) (n : BitVec 32) :
    Except String (File × OpenFile × Int × List Byte) := do
  let (s, r, got) ← readi sb s dst f.off n
  .ok (s, advance f r, r, got)

def writeLocked (sb : Layout) (inum : Nat) (s : File) (f : OpenFile) (src : Source) (n1 : Nat) :
    Except String (File × OpenFile × Int) := do
  let (s, r) ← writei sb inum s src f.off (BitVec.ofNat 32 n1)
  .ok (s, advance f r, r)

def rest (src : Source) (i : Nat) : Source where
  byte x := src.byte (i + x)
  reach start count := src.reach (i + start) count
  le _ _ := src.le _ _

/-- Where a process is: outside, with what its last call returned, or before a round of filewrite. -/
inductive Pc
  | returned (r : Int)
  | writing (src : Source) (n : Int) (i : Nat)

/-- The bytes of the file that one step read or wrote. -/
structure Chunk (π : Type) where
  process : π
  wrote : Bool
  start : Nat
  bytes : List Byte

structure State (ι π : Type) where
  world : World ι
  f : OpenFile
  pc : π → Pc
  log : List (Chunk π)

inductive Event (ι π : Type)
  | read (p : π) (dst : Dest) (n : BitVec 32)
  | write (p : π) (src : Source) (n : Int)
  | round (p : π)
  | elsewhere (w : World ι)

variable {ι π : Type} [DecidableEq ι] [DecidableEq π]

def record (log : List (Chunk π)) (r : Int) (chunk : Chunk π) : List (Chunk π) := if r > 0 then log ++ [chunk] else log

/-- No step where the process is elsewhere, and none where the kernel panics. -/
def step (sb : Layout) (i : ι) (inum : Nat) (s : State ι π) : Event ι π → Option (State ι π)
  | .read p dst n =>
      match s.pc p with
      | .returned _ =>
          if s.f.readable then
            match readLocked sb (s.world.file i) s.f dst n with
            | .ok (ip, f, r, got) =>
                some { world := s.world.put i ip, f, pc := update s.pc p (.returned r),
                       log := record s.log r ⟨p, false, s.f.off.toNat, got⟩ }
            | .error _ => none
          else some { s with pc := update s.pc p (.returned (-1)) }
      | .writing .. => none
  | .write p src n =>
      match s.pc p with
      | .returned _ =>
          let pc := if s.f.writable then .writing src n 0 else .returned (-1)
          some { s with pc := update s.pc p pc }
      | .writing .. => none
  | .round p =>
      match s.pc p with
      | .returned _ => none
      | .writing src n k =>
          let ret := Pc.returned (if k = n then n else -1)
          if k < n then
            let n1 := min (n - k).toNat maxChunk
            match writeLocked sb inum (s.world.file i) s.f (rest src k) n1 with
            | .ok (ip, f, r) =>
                let bytes := (List.range r.toNat).map fun x => src.byte (k + x)
                some { world := s.world.put i ip, f,
                       pc := update s.pc p (if r = n1 then .writing src n (k + n1) else ret),
                       log := record s.log r ⟨p, true, s.f.off.toNat, bytes⟩ }
            | .error _ => none
          else some { s with pc := update s.pc p ret }
  | .elsewhere w => some { s with world := w }

end Machine

section Offset
variable {ι π : Type} {sb : Layout} {i : ι} {inum : Nat}

/-- Every buffer can be read or written as far as it goes, and what other processes do, which is not through this struct file,
neither writes nor truncates the file. -/
def Allowed (sb : Layout) (i : ι) (s : State ι π) : Event ι π → Prop
  | .read _ dst _ => ∀ start count, dst.accepts start count = true
  | .write _ src _ => ∀ start count, src.reach start count = count
  | .round _ => True
  | .elsewhere w => Owned sb w ∧ (w.inodes i).size = (s.world.inodes i).size ∧
      ∀ k, content (w.file i) k = content (s.world.file i) k

structure Starts (sb : Layout) (i : ι) (start : Nat) (s : State ι π) : Prop where
  owned : Owned sb s.world
  size : (s.world.inodes i).size.toNat ≤ MAXFILE * BSIZE
  off : s.f.off.toNat = start
  pc : ∀ p, ∃ r, s.pc p = .returned r
  log : s.log = []

def Follows (start : Nat) : List (Chunk π) → Nat → Prop
  | [], stop => stop = start
  | c :: rest, stop => c.start = start ∧ Follows (start + c.bytes.length) rest stop

variable {log : List (Chunk π)} {start stop : Nat}

section
variable (follows : Follows start log stop)
include follows

theorem follows_concat {c : Chunk π} (here : c.start = stop) : Follows start (log ++ [c]) (stop + c.bytes.length) := by
  induction log generalizing start with
  | nil => exact ⟨here.trans follows, congrArg (· + c.bytes.length) follows⟩
  | cons first log ih => exact ⟨follows.1, ih follows.2⟩

theorem Follows.total : stop = start + (log.map fun c => c.bytes.length).sum := by
  induction log generalizing start with
  | nil => exact follows
  | cons c log ih =>
    rw [ih follows.2, map_cons, sum_cons, Nat.add_assoc]

theorem Follows.bounds {c : Chunk π} (member : c ∈ log) : start ≤ c.start ∧ c.start + c.bytes.length ≤ stop := by
  induction log generalizing start with
  | nil => exact absurd member not_mem_nil
  | cons first log ih =>
    have total := follows.2.total
    rcases mem_cons.mp member with rfl | later
    · have here := follows.1
      omega
    · have bounds := ih follows.2 later
      omega

theorem Follows.pairwise : log.Pairwise fun c c' => c.start + c.bytes.length ≤ c'.start := by
  induction log generalizing start with
  | nil => exact List.Pairwise.nil
  | cons c log ih =>
    refine pairwise_cons.mpr ⟨fun c' member => ?_, ih follows.2⟩
    rw [follows.1]
    exact (follows.2.bounds member).1

end

/-- Between two steps: where the offset is, and what the file has where bytes were transferred. -/
structure Inv (sb : Layout) (i : ι) (start : Nat) (s : State ι π) : Prop where
  owned : Owned sb s.world
  size : (s.world.inodes i).size.toNat ≤ MAXFILE * BSIZE
  follows : Follows start s.log s.f.off.toNat
  holds : ∀ c ∈ s.log, contents (s.world.file i) c.start c.bytes.length = c.bytes
  whole : ∀ p src n k, s.pc p = .writing src n k → ∀ start count, src.reach start count = count

theorem Starts.inv {start : Nat} {s : State ι π} (starts : Starts sb i start s) : Inv sb i start s := by
  refine ⟨starts.owned, starts.size, ?_, ?_, fun p src n k here => ?_⟩
  · rw [starts.log]
    exact starts.off
  · rw [starts.log]
    exact fun c member => absurd member not_mem_nil
  · obtain ⟨r, outside⟩ := starts.pc p
    exact absurd (here.symm.trans outside) nofun

/-- A step that transfers the bytes at the offset and moves the offset past them. -/
structure Moves (sb : Layout) (i : ι) (s : State ι π) (w : World ι) (f : OpenFile) (r : Int) (bytes : List Byte) :
    Prop where
  owned : Owned sb w
  size : (w.inodes i).size.toNat ≤ MAXFILE * BSIZE
  count : r.toNat = bytes.length
  off : f.off.toNat = s.f.off.toNat + bytes.length
  here : contents (w.file i) s.f.off.toNat bytes.length = bytes
  before : ∀ k < s.f.off.toNat, content (w.file i) k = content (s.world.file i) k

theorem advance_off (f : OpenFile) {r : Int} {count : Nat} (number : r.toNat = count)
    (room : 0 < count → f.off.toNat + count ≤ MAXFILE * BSIZE) : (advance f r).off.toNat = f.off.toNat + count := by
  have limit : MAXFILE * BSIZE < 2 ^ 32 := by decide
  rw [advance]
  split_ifs with positive
  · obtain rfl : r = (count : Int) := by omega
    have fits := room (by omega)
    show (f.off + BitVec.ofInt 32 (count : Int)).toNat = _
    rw [BitVec.ofInt_natCast, BitVec.toNat_add, BitVec.toNat_ofNat]
    omega
  · omega

variable {start : Nat} {s s' : State ι π}

theorem Inv.moves {w : World ι} {f : OpenFile} {pc : π → Pc} {r : Int} {bytes : List Byte} (inv : Inv sb i start s)
    (moves : Moves sb i s w f r bytes) (p : π) (wrote : Bool)
    (whole : ∀ q src n k, pc q = .writing src n k → ∀ start count, src.reach start count = count) :
    Inv sb i start ⟨w, f, pc, record s.log r ⟨p, wrote, s.f.off.toNat, bytes⟩⟩ := by
  have earlier : ∀ c ∈ s.log, contents (w.file i) c.start c.bytes.length = c.bytes := by
    intro c member
    have bounds := (inv.follows.bounds member).2
    rw [← inv.holds c member]
    conv_lhs => rw [inv.holds c member]
    refine map_congr_left fun x inside => moves.before _ ?_
    have below := mem_range.mp inside
    omega
  have count := moves.count
  refine ⟨moves.owned, moves.size, ?_, ?_, whole⟩
  · show Follows start (record s.log r _) f.off.toNat
    rw [moves.off, record]
    split_ifs with positive
    · exact follows_concat inv.follows rfl
    · rw [← count, show r.toNat = 0 by omega]
      exact inv.follows
  · intro c member
    rw [record] at member
    split_ifs at member with positive
    · rcases mem_append.mp member with old | new
      · exact earlier c old
      · obtain rfl := mem_singleton.mp new
        exact moves.here
    · exact earlier c member

variable [DecidableEq ι]

theorem readLocked_spec (inv : Inv sb i start s) {dst : Dest} {n : BitVec 32}
    (accepts : ∀ start count, dst.accepts start count = true) :
    ∃ ip f r got, readLocked sb (s.world.file i) s.f dst n = .ok (ip, f, r, got) ∧ Moves sb i s (s.world.put i ip) f r got := by
  obtain ⟨ip, r, got, ran, kept, same, bytes, -, inside, result⟩ := readi_spec dst s.f.off n inv.owned inv.size
  have number : r = got.length := by
    rcases result with number | ⟨-, first, count, refused⟩
    · exact number
    · exact absurd (accepts first count) (by rw [refused]; exact Bool.false_ne_true)
  have fits : 0 < got.length → s.f.off.toNat + got.length ≤ MAXFILE * BSIZE := fun some =>
    (inside (length_pos_iff.mp some)).trans inv.size
  refine ⟨ip, advance s.f r, r, got, ?_, kept.owned, ?_, by omega, advance_off s.f (by omega) fits, ?_, fun k _ => same i k⟩
  · rw [readLocked, ran]
    rfl
  · rw [kept.size i]
    exact inv.size
  · conv_rhs => rw [bytes]
    exact map_congr_left fun x _ => same i _

theorem writeLocked_spec (inv : Inv sb i start s) (small : inum < sb.ninodes) {src : Source} (k n1 : Nat)
    (whole : ∀ start count, src.reach start count = count) :
    ∃ ip f r, writeLocked sb inum (s.world.file i) s.f (rest src k) n1 = .ok (ip, f, r) ∧
      Moves sb i s (s.world.put i ip) f r ((List.range r.toNat).map fun x => src.byte (k + x)) := by
  have whole' : ∀ first count, (rest src k).reach first count = count := fun first count => whole (k + first) count
  obtain ⟨ip, r, ran, owned, result⟩ := writei_spec (i := i) s.f.off (BitVec.ofNat 32 n1) inv.owned small whole'
  refine ⟨ip, advance s.f r, r, by rw [writeLocked, ran]; rfl, ?_⟩
  rcases result with ⟨rfl, rfl⟩ | ⟨tot, rfl, -, room, size, written⟩
  · rw [World.put_file]
    exact ⟨inv.owned, inv.size, rfl, advance_off s.f rfl (absurd · (Nat.lt_irrefl 0)), rfl, fun _ _ => rfl⟩
  · have length : ((List.range (tot : Int).toNat).map fun x => src.byte (k + x)).length = tot := by
      rw [length_map, length_range, Int.toNat_natCast]
    refine ⟨owned, ?_, by rw [length, Int.toNat_natCast], ?_, ?_, fun b below => ?_⟩
    · show ((s.world.put i ip).file i).ip.size.toNat ≤ _
      rw [World.file_put_same, size]
      exact max_le inv.size room
    · rw [length]
      exact advance_off s.f (Int.toNat_natCast tot) fun _ => room
    · rw [length, contents, Int.toNat_natCast]
      refine map_congr_left fun x inside => ?_
      have below := mem_range.mp inside
      rw [written i, if_pos ⟨rfl, by omega, by omega⟩, Nat.add_sub_cancel_left]
      rfl
    · rw [written i, if_neg (by omega)]

end Offset

section Runs
variable {ι π : Type} [DecidableEq ι] [DecidableEq π] {sb : Layout} {i : ι} {inum start : Nat} {s s' : State ι π}

def Steps (sb : Layout) (i : ι) (inum : Nat) (s s' : State ι π) : Prop :=
  ∃ e, Allowed sb i s e ∧ step sb i inum s e = some s'

omit [DecidableEq ι] in
theorem Inv.whole_update (inv : Inv sb i start s) {p : π} {pc : Pc}
    (here : ∀ src n k, pc = .writing src n k → ∀ start count, src.reach start count = count) (q : π) (src : Source) (n : Int)
    (k : Nat) (writing : update s.pc p pc q = .writing src n k) : ∀ start count, src.reach start count = count := by
  by_cases mine : q = p
  · subst mine
    rw [update_self] at writing
    exact here src n k writing
  · rw [update_of_ne mine] at writing
    exact inv.whole q src n k writing

omit [DecidableEq ι] in
theorem Inv.process (inv : Inv sb i start s) {p : π} {pc : Pc}
    (here : ∀ src n k, pc = .writing src n k → ∀ start count, src.reach start count = count) :
    Inv sb i start { s with pc := update s.pc p pc } :=
  ⟨inv.owned, inv.size, inv.follows, inv.holds, inv.whole_update here⟩

theorem Inv.step (inv : Inv sb i start s) (small : inum < sb.ninodes) (next : Steps sb i inum s s') : Inv sb i start s' := by
  obtain ⟨e, allowed, next⟩ := next
  cases e with
  | read p dst n =>
    cases outside : s.pc p with
    | writing src m k => simp [Offsets.step, outside] at next
    | returned last =>
      simp only [Offsets.step, outside] at next
      split_ifs at next with readable
      · obtain ⟨ip, f, r, got, ran, moves⟩ := readLocked_spec (n := n) inv allowed
        rw [ran] at next
        cases next
        exact inv.moves moves p false (inv.whole_update nofun)
      · cases next
        exact inv.process nofun
  | write p src n =>
    cases outside : s.pc p with
    | writing src' m k => simp [Offsets.step, outside] at next
    | returned last =>
      simp only [Offsets.step, outside] at next
      cases next
      refine inv.process fun src' n' k same => ?_
      split_ifs at same
      obtain ⟨rfl, -, -⟩ := Pc.writing.inj same
      exact allowed
  | round p =>
    cases inside : s.pc p with
    | returned last => simp [Offsets.step, inside] at next
    | writing src n k =>
      have whole := inv.whole p src n k inside
      simp only [Offsets.step, inside] at next
      by_cases more : k < n
      · obtain ⟨ip, f, r, ran, moves⟩ := writeLocked_spec inv small k (min (n - k).toNat maxChunk) whole
        rw [if_pos more, ran] at next
        cases next
        refine inv.moves moves p true (inv.whole_update fun src' n' k' same => ?_)
        split_ifs at same
        obtain ⟨rfl, -, -⟩ := Pc.writing.inj same
        exact whole
      · rw [if_neg more] at next
        cases next
        exact inv.process nofun
  | elsewhere w =>
    cases next
    obtain ⟨owned, size, same⟩ := allowed
    refine ⟨owned, size ▸ inv.size, inv.follows, fun c member => ?_, inv.whole⟩
    refine Eq.trans ?_ (inv.holds c member)
    exact map_congr_left fun x _ => same _

/-- Whatever the interleaving, the chunks follow one another in the file, and each of those that were written is still there;
as no two of them overlap, no byte is read by two processes, and none is written over. -/
theorem shared_offset (small : inum < sb.ninodes) (run : Reachable (Starts sb i start) (Steps sb i inum) s) :
    Follows start s.log s.f.off.toNat ∧ s.f.off.toNat = start + (s.log.map fun c => c.bytes.length).sum ∧
      (s.log.Pairwise fun c c' => c.start + c.bytes.length ≤ c'.start) ∧
      ∀ c ∈ s.log, contents (s.world.file i) c.start c.bytes.length = c.bytes := by
  have inv := run.invariant (Inv sb i start) (fun _ => Starts.inv) fun _ _ inv => inv.step small
  exact ⟨inv.follows, inv.follows.total, inv.follows.pairwise, inv.holds⟩

def sampleLayout : Layout := ⟨2000, 200, 32, 45, by decide, by decide, by decide⟩

def sample : State Unit Bool where
  world := ⟨fun _ _ => 0xff, fun _ => ⟨T_FILE, 0, 0, 1, 4, fun k => if k = 0 then 46 else 0⟩⟩
  f := ⟨true, true, 0⟩
  pc _ := .returned 0
  log := []

theorem sample_ref {slot : Slot} (some : ref (sample.world.file ()) slot ≠ 0) :
    slot = .direct ⟨0, by decide⟩ ∧ ref (sample.world.file ()) slot = 46 := by
  cases slot with
  | direct k =>
    by_cases first : k.castSucc = 0
    · exact ⟨congrArg Slot.direct (Fin.castSucc_injective NDIRECT first), if_pos first⟩
    · exact absurd (if_neg first) some
  | indirect | entry k => exact absurd rfl some

theorem sample_starts : Starts sampleLayout () 0 sample := by
  have taken : ∀ b, used sampleLayout sample.world.disk b = true := by
    intro b
    have inside : b % BPB / 8 < BSIZE := Nat.div_lt_of_lt_mul (Nat.mod_lt b (by decide))
    have low : ∀ k : Fin 8, (0xff : Byte).getLsbD k = true := by decide
    rw [used, bit, byteAt, dif_pos inside]
    exact low ⟨b % BPB % 8, Nat.mod_lt _ (by decide)⟩
  refine ⟨⟨fun b _ => taken b, fun _ slot some => ?_, fun _ _ slot slot' some same => ⟨rfl, ?_⟩⟩, by decide, rfl,
    fun p => ⟨0, rfl⟩, rfl⟩
  · rw [(sample_ref some).2]
    exact ⟨by decide, by decide, taken _⟩
  · exact (sample_ref some).1.trans (sample_ref (same ▸ some)).1.symm

def sampleEvents : List { e : Event Unit Bool // ∀ s, Allowed sampleLayout () s e } :=
  [⟨.read true ⟨fun _ _ => true⟩ 1, fun _ _ _ => rfl⟩,
    ⟨.write false ⟨fun k => BitVec.ofNat 8 k, fun _ n => n, fun _ _ => le_refl _⟩ 6, fun _ _ _ => rfl⟩,
    ⟨.round false, fun _ => trivial⟩, ⟨.read true ⟨fun _ _ => true⟩ 8, fun _ _ _ => rfl⟩]

/-- One process reads a byte and the other then writes six. -/
theorem shared_offset_two : ∃ s, (sampleEvents.foldlM (fun s e => step sampleLayout () 2 s e.1) sample) = some s ∧
    s.log.map (fun c => (c.process, c.start, c.bytes.length)) = [(true, 0, 1), (false, 1, 6)] ∧
    Follows 0 s.log s.f.off.toNat ∧ s.f.off.toNat = 0 + (s.log.map fun c => c.bytes.length).sum ∧
      (s.log.Pairwise fun c c' => c.start + c.bytes.length ≤ c'.start) ∧
      ∀ c ∈ s.log, contents (s.world.file ()) c.start c.bytes.length = c.bytes := by
  have played : ((sampleEvents.foldlM (fun s e => step sampleLayout () 2 s e.1) sample).map
      fun s => s.log.map fun c => (c.process, c.start, c.bytes.length)) = some [(true, 0, 1), (false, 1, 6)] := by
    decide +kernel
  obtain ⟨s, ran, log⟩ := Option.map_eq_some_iff.mp played
  have run : Reachable (Starts sampleLayout () 0) (Steps sampleLayout () 2) s :=
    (Reachable.init sample sample_starts).foldlM (fun s e s' next => ⟨e.1, e.2 s, next⟩) ran
  exact ⟨s, ran, log, shared_offset (by decide) run⟩

end Runs

end Xv6.Fs.Offsets
