import Xv6.Fs.Inode

/-! Whose block is whose: balloc gives out a block that no inode has, so that bmap changes the contents of no file. -/

namespace Xv6.Fs.Blocks

open Lib.Bytes Format Inode Function List
open Disklog.Commit (Blockno Block Disk)

variable {sb : Layout} {d d' : Disk}

section Allocation

def used (sb : Layout) (d : Disk) (b : Nat) : Bool := bit (d (BBLOCK sb b)) (b % BPB)

def mark (sb : Layout) (d : Disk) (b : Nat) : Disk := update d (BBLOCK sb b) (setBit (d (BBLOCK sb b)) (b % BPB))

theorem BBLOCK_inj {b b' : Nat} (inside : b < sb.size) (inside' : b' < sb.size) (same : BBLOCK sb b = BBLOCK sb b') :
    b / BPB = b' / BPB := by
  have numbers := congrArg BitVec.toNat same
  rw [(toNat_BBLOCK sb inside).1, (toNat_BBLOCK sb inside').1] at numbers
  exact Nat.add_right_cancel numbers

theorem used_mark {b b' : Nat} (inside : b < sb.size) (inside' : b' < sb.size) :
    used sb (mark sb d b) b' = (used sb d b' || decide (b' = b)) := by
  have small : b % BPB < BPB := Nat.mod_lt _ (by decide)
  by_cases block : BBLOCK sb b' = BBLOCK sb b
  · have quotient := BBLOCK_inj inside' inside block
    have split : b' % BPB = b % BPB ↔ b' = b := by
      refine ⟨fun same => ?_, fun same => by rw [same]⟩
      rw [← Nat.div_add_mod b' BPB, ← Nat.div_add_mod b BPB, quotient, same]
    rw [used, mark, block, update_self, bit_setBit _ _ small, used, block]
    simp only [split]
  · have other : b' ≠ b := fun same => block (by rw [same])
    rw [used, mark, update_of_ne block, decide_eq_false other, Bool.or_false, used]

theorem bzero_of_ne {a b : Blockno} (other : b ≠ a) : bzero d a b = d b := update_of_ne other _ _

theorem balloc_cases (sb : Layout) (d : Disk) :
    balloc sb d = (d, 0) ∧ (∀ b < sb.size, used sb d b = true) ∨
      ∃ b < sb.size, used sb d b = false ∧ balloc sb d = (bzero (mark sb d b) (BitVec.ofNat 32 b), BitVec.ofNat 32 b) := by
  have positive : 0 < BPB := by decide
  cases found : (List.range ((sb.size + BPB - 1) / BPB)).findSome? fun i => scan sb d (i * BPB) with
  | none =>
    refine .inl ⟨by rw [balloc, found], fun b inside => ?_⟩
    have block : b / BPB < (sb.size + BPB - 1) / BPB := by
      simp only [BPB, BSIZE] at *
      omega
    have nothing := List.findSome?_eq_none_iff.mp found (b / BPB) (mem_range.mpr block)
    rw [scan, Option.map_eq_none_iff, List.find?_eq_none] at nothing
    have place : b % BPB < min BPB (sb.size - b / BPB * BPB) := by
      have split := Nat.div_add_mod' b BPB
      have small := Nat.mod_lt b positive
      omega
    have taken := nothing (b % BPB) (mem_range.mpr place)
    rw [BBLOCK, Nat.mul_div_cancel _ positive] at taken
    rw [used, BBLOCK]
    simpa using taken
  | some pair =>
    obtain ⟨b, bi⟩ := pair
    obtain ⟨i, -, scanned⟩ := exists_of_findSome?_eq_some found
    obtain ⟨bi', first, same⟩ := Option.map_eq_some_iff.mp scanned
    cases same
    have place := mem_range.mp (mem_of_find?_eq_some first)
    have free := List.find?_some first
    have quotient : (i * BPB + bi) / BPB = i := by
      rw [Nat.add_comm, Nat.add_mul_div_right _ _ positive, Nat.div_eq_of_lt (by omega), Nat.zero_add]
    have remainder : (i * BPB + bi) % BPB = bi := by
      rw [Nat.add_comm, Nat.add_mul_mod_self_right, Nat.mod_eq_of_lt (by omega)]
    have block : BBLOCK sb (i * BPB) = BBLOCK sb (i * BPB + bi) := by
      rw [BBLOCK, BBLOCK, quotient, Nat.mul_div_cancel _ positive]
    refine .inr ⟨i * BPB + bi, by omega, ?_, ?_⟩
    · rw [used, ← block, remainder]
      simpa using free
    · rw [balloc, found, mark, ← block, remainder]

/-- What balloc does when it returns a block. -/
structure Fresh (sb : Layout) (d d' : Disk) (a : Blockno) : Prop where
  nonzero : a ≠ 0
  inside : sb.dataStart ≤ a.toNat ∧ a.toNat < sb.size
  free : used sb d a.toNat = false
  marked : ∀ b < sb.size, used sb d' b = (used sb d b || decide (b = a.toNat))
  zero : d' a = fun _ => 0
  same : ∀ b : Blockno, sb.dataStart ≤ b.toNat → b ≠ a → d' b = d b
  low : ∀ b : Blockno, b.toNat < sb.bmapstart → d' b = d b

theorem balloc_spec (reserved : ∀ b < sb.dataStart, used sb d b = true) :
    balloc sb d = (d, 0) ∧ (∀ b < sb.size, used sb d b = true) ∨ ∃ d' a, balloc sb d = (d', a) ∧ Fresh sb d d' a := by
  rcases balloc_cases sb d with full | ⟨b, inside, free, result⟩
  · exact .inl full
  · have small := sb.small
    have number : (BitVec.ofNat 32 b).toNat = b := by
      rw [BitVec.toNat_ofNat, Nat.mod_eq_of_lt (by omega)]
    have low : sb.dataStart ≤ b := by
      by_contra below
      rw [reserved b (by omega)] at free
      cases free
    have bitmap := toNat_BBLOCK sb inside
    have positive : 0 < sb.dataStart := by
      rw [Layout.dataStart]
      exact Nat.succ_pos _
    refine .inr ⟨_, _, result, ?_, ?_, ?_, fun b' inside' => ?_, ?_, fun x above other => ?_, fun x below => ?_⟩
    · intro zero
      rw [zero] at number
      have : b = 0 := number.symm
      omega
    · rw [number]
      exact ⟨low, inside⟩
    · rw [number]
      exact free
    · have apart : BBLOCK sb b' ≠ BitVec.ofNat 32 b := by
        intro same
        have bound := (toNat_BBLOCK sb inside').2
        rw [same, number] at bound
        omega
      rw [number, ← used_mark inside inside', used, bzero_of_ne apart, used]
    · exact update_self _ _ _
    · rw [bzero_of_ne other, mark, update_of_ne]
      intro same
      rw [same] at above
      omega
    · have other : x ≠ BitVec.ofNat 32 b := by
        intro same
        rw [same, number] at below
        exact absurd (sb.bmapstart_le.trans low) below.not_ge
      rw [bzero_of_ne other, mark, update_of_ne]
      intro same
      rw [same, bitmap.1] at below
      exact absurd (Nat.le_add_left _ _) below.not_ge

end Allocation

section Contents

def dataSlot (bn : Fin MAXFILE) : Slot :=
  if direct : bn.val < NDIRECT then .direct ⟨bn.val, direct⟩
  else .entry ⟨bn.val - NDIRECT, by have := bn.isLt; unfold MAXFILE at this; omega⟩

theorem dataSlot_ne (bn : Fin MAXFILE) : dataSlot bn ≠ .indirect := by
  rw [dataSlot]
  split <;> nofun

theorem dataSlot_inj {bn bn' : Fin MAXFILE} (same : dataSlot bn = dataSlot bn') : bn = bn' := by
  rw [dataSlot, dataSlot] at same
  apply Fin.ext
  split at same <;> split at same <;> simp only [Slot.direct.injEq, Slot.entry.injEq, Fin.mk.injEq, reduceCtorEq] at same
  · exact same
  · omega

/-- The byte of a file at an offset. A block that is missing reads as zeros. -/
def content (s : File) (k : Nat) : Byte :=
  if inside : k / BSIZE < MAXFILE then
    if ref s (dataSlot ⟨k / BSIZE, inside⟩) = 0 then 0
    else byteAt (s.disk (ref s (dataSlot ⟨k / BSIZE, inside⟩))) (k % BSIZE)
  else 0

theorem content_congr {s s' : File} {k : Nat}
    (refs : ∀ inside : k / BSIZE < MAXFILE,
      ref s' (dataSlot ⟨k / BSIZE, inside⟩) = ref s (dataSlot ⟨k / BSIZE, inside⟩))
    (blocks : ∀ inside : k / BSIZE < MAXFILE, ref s (dataSlot ⟨k / BSIZE, inside⟩) ≠ 0 →
      byteAt (s'.disk (ref s (dataSlot ⟨k / BSIZE, inside⟩))) (k % BSIZE) =
        byteAt (s.disk (ref s (dataSlot ⟨k / BSIZE, inside⟩))) (k % BSIZE)) : content s' k = content s k := by
  by_cases inside : k / BSIZE < MAXFILE
  · rw [content, content, dif_pos inside, dif_pos inside, refs inside]
    by_cases zero : ref s (dataSlot ⟨k / BSIZE, inside⟩) = 0
    · rw [if_pos zero, if_pos zero]
    · rw [if_neg zero, if_neg zero, blocks inside zero]
  · rw [content, content, dif_neg inside, dif_neg inside]

end Contents

section Worlds
variable {ι : Type}

structure World (ι : Type) where
  disk : Disk
  inodes : ι → Dinode

def World.file (w : World ι) (i : ι) : File := ⟨w.disk, w.inodes i⟩

def World.put [DecidableEq ι] (w : World ι) (i : ι) (s : File) : World ι := ⟨s.disk, update w.inodes i s.ip⟩

/-- Every block that is in a slot of an inode is marked in the bit map, lies in the data area and is in no other slot. -/
structure Owned (sb : Layout) (w : World ι) : Prop where
  reserved : ∀ b < sb.dataStart, used sb w.disk b = true
  inside : ∀ i slot, ref (w.file i) slot ≠ 0 → sb.dataStart ≤ (ref (w.file i) slot).toNat ∧
    (ref (w.file i) slot).toNat < sb.size ∧ used sb w.disk (ref (w.file i) slot).toNat = true
  apart : ∀ i j slot slot', ref (w.file i) slot ≠ 0 → ref (w.file i) slot = ref (w.file j) slot' → i = j ∧ slot = slot'

def fields (ip : Dinode) : BitVec 16 × BitVec 16 × BitVec 16 × BitVec 16 × BitVec 32 :=
  (ip.type, ip.major, ip.minor, ip.nlink, ip.size)

def SameContents (w w' : World ι) : Prop := ∀ i k, content (w'.file i) k = content (w.file i) k

/-- The inodes have the blocks they had and perhaps more. -/
structure Kept (sb : Layout) (w w' : World ι) : Prop where
  owned : Owned sb w'
  refs : ∀ i slot, ref (w.file i) slot ≠ 0 → ref (w'.file i) slot = ref (w.file i) slot
  fields : ∀ i, fields (w'.inodes i) = fields (w.inodes i)
  low : ∀ b : Blockno, b.toNat < sb.bmapstart → w'.disk b = w.disk b
  taken : ∀ b < sb.size, used sb w'.disk b = true →
    used sb w.disk b = true ∨ ∃ i slot, ref (w'.file i) slot ≠ 0 ∧ (ref (w'.file i) slot).toNat = b

variable {w w' w'' : World ι}

theorem Kept.refl (owned : Owned sb w) : Kept sb w w :=
  ⟨owned, fun _ _ _ => rfl, fun _ => rfl, fun _ _ => rfl, fun _ _ => .inl⟩

theorem Kept.trans (first : Kept sb w w') (second : Kept sb w' w'') : Kept sb w w'' := by
  refine ⟨second.owned, fun i slot some => ?_, fun i => ?_, fun b below => ?_, fun b inside marked => ?_⟩
  · have kept := first.refs i slot some
    rw [second.refs i slot (kept ▸ some), kept]
  · rw [second.fields i, first.fields i]
  · rw [second.low b below, first.low b below]
  · rcases second.taken b inside marked with before | new
    · rcases first.taken b inside before with before | ⟨i, slot, some, number⟩
      · exact .inl before
      · have kept := second.refs i slot some
        exact .inr ⟨i, slot, kept ▸ some, kept ▸ number⟩
    · exact .inr new

theorem Kept.size (kept : Kept sb w w') (i : ι) : (w'.inodes i).size = (w.inodes i).size :=
  congrArg (fun all => all.2.2.2.2) (kept.fields i)

variable {a : Blockno}

theorem ref_setRef {s : File} {slot : Slot} (empty : ref s slot = 0) (nonzero : a ≠ 0)
    (zero : slot = .indirect → s.disk a = fun _ => 0)
    (ready : ∀ j, slot = .entry j → ref s .indirect ≠ 0) (slot' : Slot) :
    ref (setRef s a slot) slot' = if slot' = slot then a else ref s slot' := by
  cases slot with
  | direct i =>
    have last : Fin.last NDIRECT ≠ i.castSucc := (Fin.castSucc_lt_last i).ne'
    cases slot' with
    | direct i' =>
      by_cases same : i' = i
      · subst same
        simp [ref, setRef]
      · have other : i'.castSucc ≠ i.castSucc := fun equal => same (Fin.castSucc_injective _ equal)
        simp [ref, setRef, same, other]
    | indirect | entry j => simp [ref, setRef, last]
  | indirect =>
    have contents := zero rfl
    have nothing : s.ip.addrs (Fin.last NDIRECT) = 0 := empty
    cases slot' with
    | direct i' =>
      have other : i'.castSucc ≠ Fin.last NDIRECT := (Fin.castSucc_lt_last i').ne
      simp [ref, setRef, other]
    | indirect => simp [ref, setRef]
    | entry j =>
      rw [if_neg nofun, ref, ref, if_pos nothing, setRef]
      simp only [update_self]
      rw [if_neg nonzero, contents, getWord_zero]
  | entry j =>
    have pointer : s.ip.addrs (Fin.last NDIRECT) ≠ 0 := ready j rfl
    cases slot' with
    | direct i' | indirect => simp [ref, setRef]
    | entry j' =>
      have room : 4 * j.val + 4 ≤ BSIZE := by
        have small := j.isLt
        simp only [NINDIRECT, BSIZE] at *
        omega
      by_cases same : j' = j
      · subst same
        simp only [ref, setRef, if_neg pointer, if_true, update_self, getWord_setWord_same _ _ _ room]
      · have numbers : j'.val ≠ j.val := fun equal => same (Fin.ext equal)
        have apart : 4 * j'.val + 4 ≤ 4 * j.val ∨ 4 * j.val + 4 ≤ 4 * j'.val := by omega
        simp [ref, setRef, same, getWord_setWord_other _ _ _ _ apart]

theorem setRef_disk {s : File} {slot : Slot} {a b : Blockno} (ready : ∀ j, slot = .entry j → ref s .indirect ≠ 0)
    (other : ref s .indirect ≠ 0 → b ≠ ref s .indirect) : (setRef s a slot).disk b = s.disk b := by
  cases slot with
  | direct i | indirect => rfl
  | entry j => exact update_of_ne (other (ready j rfl)) _ _

theorem setRef_fields (s : File) (a : Blockno) (slot : Slot) : fields (setRef s a slot).ip = fields s.ip := by
  cases slot <;> rfl

theorem Fresh.unowned (fresh : Fresh sb w.disk d' a) (owned : Owned sb w) (i : ι) (slot : Slot) :
    ref (w.file i) slot ≠ a := by
  intro same
  have marked := (owned.inside i slot (same ▸ fresh.nonzero)).2.2
  rw [same, fresh.free] at marked
  cases marked

theorem Fresh.block (fresh : Fresh sb w.disk d' a) (owned : Owned sb w) {i : ι} (slot : Slot)
    (some : ref (w.file i) slot ≠ 0) : d' (ref (w.file i) slot) = w.disk (ref (w.file i) slot) :=
  fresh.same _ (owned.inside i slot some).1 (fresh.unowned owned i slot)

theorem Fresh.ref (fresh : Fresh sb w.disk d' a) (owned : Owned sb w) (i : ι) (slot : Slot) :
    ref ⟨d', w.inodes i⟩ slot = ref (w.file i) slot := by
  cases slot with
  | direct _ | indirect => rfl
  | entry j =>
    by_cases pointer : (w.inodes i).addrs (Fin.last NDIRECT) = 0
    · exact (if_pos pointer).trans (if_pos pointer).symm
    · refine (if_neg pointer).trans (Eq.trans ?_ (if_neg pointer).symm)
      exact congrArg (getWord · (4 * j.val)) (fresh.block owned .indirect pointer)

variable [DecidableEq ι]

theorem World.file_put_same (w : World ι) (i : ι) (s : File) : (w.put i s).file i = s := by
  show File.mk s.disk (update w.inodes i s.ip i) = s
  rw [update_self]

theorem World.file_put_other (w : World ι) {i j : ι} (s : File) (other : j ≠ i) :
    (w.put i s).file j = ⟨s.disk, w.inodes j⟩ := by
  show File.mk s.disk (update w.inodes i s.ip j) = _
  rw [update_of_ne other]

section Growth
variable {i : ι} {slot : Slot} {a : Blockno}

section
variable (fresh : Fresh sb w.disk d' a)
include fresh

theorem ref_grown (owned : Owned sb w) (empty : ref (w.file i) slot = 0)
    (ready : ∀ j, slot = .entry j → ref (w.file i) .indirect ≠ 0) (j : ι) (slot' : Slot) :
    ref ((w.put i (setRef ⟨d', w.inodes i⟩ a slot)).file j) slot' =
      if j = i ∧ slot' = slot then a else ref (w.file j) slot' := by
  by_cases same : j = i
  · subst same
    rw [World.file_put_same, ref_setRef ((fresh.ref owned j slot).trans empty) fresh.nonzero (fun _ => fresh.zero) ready,
      fresh.ref owned]
    simp only [true_and]
  · rw [World.file_put_other _ _ same, if_neg fun both => same both.1, ← fresh.ref owned]
    cases slot' with
    | direct _ | indirect => rfl
    | entry k =>
      by_cases pointer : (w.inodes j).addrs (Fin.last NDIRECT) = 0
      · exact (if_pos pointer).trans (if_pos pointer).symm
      · refine (if_neg pointer).trans (Eq.trans ?_ (if_neg pointer).symm)
        refine congrArg (getWord · (4 * k.val)) (setRef_disk ready fun _ equal => same ?_)
        exact (owned.apart j i .indirect .indirect pointer equal).1

omit [DecidableEq ι] in
theorem block_grown (owned : Owned sb w)
    (ready : ∀ j, slot = .entry j → ref (w.file i) .indirect ≠ 0) {j : ι} {slot' : Slot} (data : slot' ≠ .indirect)
    (some : ref (w.file j) slot' ≠ 0) :
    (setRef ⟨d', w.inodes i⟩ a slot).disk (ref (w.file j) slot') = w.disk (ref (w.file j) slot') := by
  refine (setRef_disk (s := ⟨d', w.inodes i⟩) ready fun _ equal => ?_).trans (fresh.block owned slot' some)
  exact data (owned.apart j i slot' .indirect some equal).2

omit [DecidableEq ι] in
theorem used_grown (owned : Owned sb w)
    (ready : ∀ j, slot = .entry j → ref (w.file i) .indirect ≠ 0) {b : Nat} (inside : b < sb.size) :
    used sb (setRef ⟨d', w.inodes i⟩ a slot).disk b = (used sb w.disk b || decide (b = a.toNat)) := by
  rw [← fresh.marked b inside, used, used]
  refine congrArg (bit · (b % BPB)) (setRef_disk ready fun pointer equal => ?_)
  have low := (toNat_BBLOCK sb inside).2
  rw [equal] at low
  exact absurd (owned.inside i .indirect pointer).1 low.not_ge

theorem kept_grown (owned : Owned sb w) (empty : ref (w.file i) slot = 0)
    (ready : ∀ j, slot = .entry j → ref (w.file i) .indirect ≠ 0) :
    Kept sb w (w.put i (setRef ⟨d', w.inodes i⟩ a slot)) := by
  have refs := ref_grown fresh owned empty ready
  refine ⟨⟨fun b below => ?_, fun j slot' some => ?_, fun j k slot' slot'' some same => ?_⟩, fun j slot' some => ?_,
    fun j => ?_, fun b below => ?_, fun b inside marked => ?_⟩
  · rw [World.put, used_grown fresh owned ready (below.trans_le sb.bitmap), owned.reserved b below, Bool.true_or]
  · rw [refs] at some ⊢
    split_ifs at some ⊢ with new
    · refine ⟨fresh.inside.1, fresh.inside.2, ?_⟩
      rw [World.put, used_grown fresh owned ready fresh.inside.2, decide_eq_true rfl, Bool.or_true]
    · obtain ⟨low, high, marked⟩ := owned.inside j slot' some
      refine ⟨low, high, ?_⟩
      rw [World.put, used_grown fresh owned ready high, marked, Bool.true_or]
  · rw [refs] at some
    rw [refs, refs] at same
    split_ifs at some same with new new' new'
    · exact ⟨new.1.trans new'.1.symm, new.2.trans new'.2.symm⟩
    · exact absurd same.symm (fresh.unowned owned k slot'')
    · exact absurd same (fresh.unowned owned j slot')
    · exact owned.apart j k slot' slot'' some same
  · rw [refs, if_neg]
    rintro ⟨rfl, rfl⟩
    exact some empty
  · show fields (update w.inodes i (setRef ⟨d', w.inodes i⟩ a slot).ip j) = _
    by_cases same : j = i
    · subst same
      rw [update_self, setRef_fields]
    · rw [update_of_ne same]
  · refine (setRef_disk (s := ⟨d', w.inodes i⟩) ready fun pointer equal => ?_).trans (fresh.low b below)
    have low := (owned.inside i .indirect pointer).1
    have between := sb.bmapstart_le
    rw [equal] at below
    exact absurd (between.trans low) below.not_ge
  · rw [World.put, used_grown fresh owned ready inside, Bool.or_eq_true, decide_eq_true_iff] at marked
    rcases marked with before | rfl
    · exact .inl before
    · have here := refs i slot
      rw [if_pos (And.intro rfl rfl)] at here
      refine .inr ⟨i, slot, ?_, congrArg BitVec.toNat here⟩
      rw [here]
      exact fresh.nonzero

theorem same_grown (owned : Owned sb w) (empty : ref (w.file i) slot = 0)
    (ready : ∀ j, slot = .entry j → ref (w.file i) .indirect ≠ 0) :
    SameContents w (w.put i (setRef ⟨d', w.inodes i⟩ a slot)) := by
  intro j k
  have refs := ref_grown fresh owned empty ready
  by_cases new : ∃ inside : k / BSIZE < MAXFILE, j = i ∧ dataSlot ⟨k / BSIZE, inside⟩ = slot
  · -- a block that was missing, and that balloc has cleared
    obtain ⟨inside, rfl, here⟩ := new
    have cleared : (setRef ⟨d', w.inodes j⟩ a slot).disk a = fun _ => 0 :=
      (setRef_disk (s := ⟨d', w.inodes j⟩) ready fun _ equal => fresh.unowned owned j .indirect equal.symm).trans fresh.zero
    rw [content, content, dif_pos inside, dif_pos inside, here, if_pos empty, refs, if_pos (And.intro rfl rfl),
      if_neg fresh.nonzero]
    show byteAt ((setRef ⟨d', w.inodes j⟩ a slot).disk a) (k % BSIZE) = 0
    rw [cleared, byteAt_zero]
  · refine content_congr (fun inside => ?_) fun inside some => ?_
    · rw [refs, if_neg fun both => new ⟨inside, both⟩]
    · exact congrArg (byteAt · (k % BSIZE)) (block_grown fresh owned ready (dataSlot_ne _) some)

end

end Growth

section Lookup
variable {i : ι}

theorem World.put_file (w : World ι) (i : ι) : w.put i (w.file i) = w := by
  show World.mk w.disk (update w.inodes i (w.inodes i)) = w
  rw [update_eq_self]

theorem World.put_put (w : World ι) (i : ι) (s s' : File) : (w.put i s).put i s' = w.put i s' := by
  show World.mk s'.disk (update (update w.inodes i s.ip) i s'.ip) = _
  rw [update_idem]
  rfl

theorem fill_spec (slot : Slot) (owned : Owned sb w) (ready : ∀ j, slot = .entry j → ref (w.file i) .indirect ≠ 0) :
    ∃ s' addr, fill sb (w.file i) slot = (s', addr) ∧ Kept sb w (w.put i s') ∧ SameContents w (w.put i s') ∧
      (addr ≠ 0 → ref s' slot = addr) ∧ (addr = 0 → ∀ b < sb.size, used sb s'.disk b = true) := by
  by_cases empty : ref (w.file i) slot = 0
  · rw [fill, if_pos empty]
    rcases balloc_spec owned.reserved with ⟨none, full⟩ | ⟨d', a, got, fresh⟩
    · have result : balloc sb (w.file i).disk = (w.disk, 0) := none
      refine ⟨w.file i, 0, ?_, ?_, ?_, absurd rfl, fun _ => full⟩
      · rw [result]
        exact if_pos rfl
      · rw [World.put_file]
        exact .refl owned
      · rw [World.put_file]
        exact fun _ _ => rfl
    · have result : balloc sb (w.file i).disk = (d', a) := got
      refine ⟨setRef ⟨d', w.inodes i⟩ a slot, a, ?_, kept_grown fresh owned empty ready, same_grown fresh owned empty ready,
        fun _ => ?_, fun zero => absurd zero fresh.nonzero⟩
      · rw [result]
        exact if_neg fresh.nonzero
      · have here := ref_grown fresh owned empty ready i slot
        rwa [World.file_put_same, if_pos (And.intro rfl rfl)] at here
  · refine ⟨w.file i, ref (w.file i) slot, by rw [fill, if_neg empty], ?_, ?_, fun _ => rfl, fun zero => absurd zero empty⟩
    · rw [World.put_file]
      exact .refl owned
    · rw [World.put_file]
      exact fun _ _ => rfl

theorem bmap_spec (owned : Owned sb w) (bn : Fin MAXFILE) : ∃ s' addr, bmap sb (w.file i) bn.val = .ok (s', addr) ∧
    Kept sb w (w.put i s') ∧ SameContents w (w.put i s') ∧ (addr ≠ 0 → ref s' (dataSlot bn) = addr) ∧
    (addr = 0 → ∀ b < sb.size, used sb s'.disk b = true) := by
  by_cases direct : bn.val < NDIRECT
  · obtain ⟨s', addr, result, kept, same, here, full⟩ := fill_spec (i := i) (.direct ⟨bn.val, direct⟩) owned nofun
    refine ⟨s', addr, by rw [bmap, dif_pos direct, result], kept, same, fun some => ?_, full⟩
    rw [dataSlot, dif_pos direct, here some]
  · have inside : bn.val - NDIRECT < NINDIRECT := by
      have small := bn.isLt
      unfold MAXFILE at small
      omega
    obtain ⟨s₁, p, first, kept, same, pointer, full⟩ := fill_spec (i := i) .indirect owned nofun
    by_cases none : p = 0
    · refine ⟨s₁, 0, ?_, kept, same, absurd rfl, fun _ => full none⟩
      rw [bmap, dif_neg direct, dif_pos inside, first]
      exact if_pos none
    · have ready : ref ((w.put i s₁).file i) .indirect ≠ 0 := by
        rw [World.file_put_same, pointer none]
        exact none
      obtain ⟨s', addr, second, kept', same', here, full'⟩ :=
        fill_spec (i := i) (.entry ⟨bn.val - NDIRECT, inside⟩) kept.owned fun _ _ => ready
      rw [World.file_put_same] at second
      rw [World.put_put] at kept' same'
      refine ⟨s', addr, ?_, kept.trans kept', fun j k => (same' j k).trans (same j k), fun some => ?_, full'⟩
      · rw [bmap, dif_neg direct, dif_pos inside, first]
        exact (if_neg none).trans (congrArg _ second)
      · rw [dataSlot, dif_neg direct, here some]

end Lookup

section Stores
variable {i : ι} {bn : Fin MAXFILE} {data : Block}

def World.store (w : World ι) (i : ι) (bn : Fin MAXFILE) (data : Block) : World ι :=
  { w with disk := update w.disk (ref (w.file i) (dataSlot bn)) data }

omit [DecidableEq ι] in
theorem ref_store (owned : Owned sb w) (some : ref (w.file i) (dataSlot bn) ≠ 0) (data : Block) (j : ι) (slot : Slot) :
    ref ((w.store i bn data).file j) slot = ref (w.file j) slot := by
  cases slot with
  | direct _ | indirect => rfl
  | entry k =>
    by_cases pointer : (w.inodes j).addrs (Fin.last NDIRECT) = 0
    · exact (if_pos pointer).trans (if_pos pointer).symm
    · refine (if_neg pointer).trans (Eq.trans ?_ (if_neg pointer).symm)
      refine congrArg (getWord · (4 * k.val)) (update_of_ne (fun equal => ?_) _ _)
      exact dataSlot_ne bn (owned.apart i j (dataSlot bn) .indirect some equal.symm).2

omit [DecidableEq ι] in
theorem used_store (owned : Owned sb w) (some : ref (w.file i) (dataSlot bn) ≠ 0) {b : Nat} (inside : b < sb.size) :
    used sb (w.store i bn data).disk b = used sb w.disk b := by
  refine congrArg (bit · (b % BPB)) (update_of_ne (fun equal => ?_) _ _)
  have low := (toNat_BBLOCK sb inside).2
  rw [equal] at low
  exact absurd (owned.inside i _ some).1 low.not_ge

omit [DecidableEq ι] in
theorem kept_store (owned : Owned sb w) (some : ref (w.file i) (dataSlot bn) ≠ 0) : Kept sb w (w.store i bn data) := by
  have refs := ref_store owned some data
  refine ⟨⟨fun b below => ?_, fun j slot some' => ?_, fun j k slot slot' some' same => ?_⟩, fun j slot _ => refs j slot,
    fun j => rfl, fun b below => update_of_ne (fun equal => ?_) _ _, fun b inside marked => ?_⟩
  · rw [used_store owned some (below.trans_le sb.bitmap)]
    exact owned.reserved b below
  · rw [refs] at some' ⊢
    obtain ⟨low, high, marked⟩ := owned.inside j slot some'
    exact ⟨low, high, (used_store owned some high).trans marked⟩
  · rw [refs] at some'
    rw [refs, refs] at same
    exact owned.apart j k slot slot' some' same
  · have low := (owned.inside i _ some).1
    rw [equal] at below
    exact absurd (sb.bmapstart_le.trans low) below.not_ge
  · rw [used_store owned some inside] at marked
    exact .inl marked

omit [DecidableEq ι] in
theorem content_store (owned : Owned sb w) (some : ref (w.file i) (dataSlot bn) ≠ 0) (j : ι) (k : Nat) [Decidable (j = i)] :
    content ((w.store i bn data).file j) k =
      if j = i ∧ k / BSIZE = bn.val then byteAt data (k % BSIZE) else content (w.file j) k := by
  have refs := ref_store owned some data
  by_cases here : j = i ∧ k / BSIZE = bn.val
  · obtain ⟨rfl, block⟩ := here
    have inside : k / BSIZE < MAXFILE := block ▸ bn.isLt
    have slot : dataSlot ⟨k / BSIZE, inside⟩ = dataSlot bn := congrArg dataSlot (Fin.ext block)
    rw [if_pos ⟨rfl, block⟩, content, dif_pos inside, refs, slot, if_neg some]
    exact congrArg (byteAt · (k % BSIZE)) (update_self _ _ _)
  · rw [if_neg here]
    refine content_congr (fun inside => refs j _) fun inside some' => ?_
    refine congrArg (byteAt · (k % BSIZE)) (update_of_ne (fun equal => here ?_) _ _)
    obtain ⟨same, slot⟩ := owned.apart j i _ _ some' equal
    exact ⟨same, congrArg Fin.val (dataSlot_inj slot)⟩

end Stores

end Worlds

end Xv6.Fs.Blocks
