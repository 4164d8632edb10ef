import Xv6.Fs.Blocks

/-! readi and writei as transfers of bytes: which bytes of which file they read and write. -/

namespace Xv6.Fs.Transfer

open Lib.Bytes Format Inode Blocks List
open Disklog.Commit (Blockno Block Disk)

variable {sb : Layout} {ι : Type} [DecidableEq ι] {w : World ι} {i : ι}

section Parts

theorem part_iff (off k : Nat) {r : Nat} (room : r ≤ BSIZE - off % BSIZE) :
    k / BSIZE = off / BSIZE ∧ off % BSIZE ≤ k % BSIZE ∧ k % BSIZE < off % BSIZE + r ↔ off ≤ k ∧ k < off + r := by
  have split := Nat.div_add_mod k BSIZE
  have split' := Nat.div_add_mod off BSIZE
  have small : k % BSIZE < BSIZE := Nat.mod_lt _ (by decide)
  have small' : off % BSIZE < BSIZE := Nat.mod_lt _ (by decide)
  simp only [BSIZE] at *
  omega

theorem part_offset {off k : Nat} (block : k / BSIZE = off / BSIZE) (low : off ≤ k) : k % BSIZE - off % BSIZE = k - off := by
  have split := Nat.div_add_mod k BSIZE
  have split' := Nat.div_add_mod off BSIZE
  rw [block] at split
  omega

variable {bn : Fin MAXFILE}

theorem content_of_ref {s : File} {k : Nat} (block : k / BSIZE = bn.val) (some : ref s (dataSlot bn) ≠ 0) :
    content s k = byteAt (s.disk (ref s (dataSlot bn))) (k % BSIZE) := by
  have inside : k / BSIZE < MAXFILE := block ▸ bn.isLt
  have slot : dataSlot ⟨k / BSIZE, inside⟩ = dataSlot bn := congrArg dataSlot (Fin.ext block)
  rw [content, dif_pos inside, slot, if_neg some]

omit [DecidableEq ι] in
theorem content_patch (owned : Owned sb w) {off r : Nat} (block : off / BSIZE = bn.val)
    (room : r ≤ BSIZE - off % BSIZE) (some : ref (w.file i) (dataSlot bn) ≠ 0) (bytes : Nat → Byte) (j : ι) (k : Nat)
    [Decidable (j = i)] :
    content ((w.store i bn (splice (w.disk (ref (w.file i) (dataSlot bn))) (off % BSIZE) r bytes)).file j) k =
      if j = i ∧ off ≤ k ∧ k < off + r then bytes (k - off) else content (w.file j) k := by
  have part := part_iff off k room
  rw [content_store owned some]
  by_cases here : j = i ∧ k / BSIZE = bn.val
  · obtain ⟨rfl, same⟩ := here
    rw [if_pos ⟨rfl, same⟩, byteAt_splice _ _ _ _ _ (Nat.mod_lt _ (by decide))]
    by_cases inside : off ≤ k ∧ k < off + r
    · have places := part.mpr inside
      rw [if_pos places.2, if_pos ⟨rfl, inside⟩, part_offset places.1 inside.1]
    · have outside : ¬(off % BSIZE ≤ k % BSIZE ∧ k % BSIZE < off % BSIZE + r) :=
        fun places => inside (part.mp ⟨same.trans block.symm, places⟩)
      rw [if_neg outside, if_neg fun both => inside both.2, content_of_ref same some]
      rfl
  · rw [if_neg here, if_neg]
    rintro ⟨rfl, inside⟩
    exact here ⟨rfl, (part.mpr inside).1.trans block⟩

theorem store_put {s : File} {addr : Blockno} (here : ref s (dataSlot bn) = addr) (data : Block) :
    w.put i { s with disk := Function.update s.disk addr data } = (w.put i s).store i bn data := by
  have slot : ref ((w.put i s).file i) (dataSlot bn) = addr := by rw [World.file_put_same, here]
  rw [World.store, slot]
  rfl

theorem kept_self (owned : Owned sb w) : Kept sb w (w.put i (w.file i)) ∧ SameContents w (w.put i (w.file i)) := by
  rw [World.put_file]
  exact ⟨.refl owned, fun _ _ => rfl⟩

theorem bmap_present {s : File} (some : ref s (dataSlot bn) ≠ 0) : bmap sb s bn.val = .ok (s, ref s (dataSlot bn)) := by
  by_cases direct : bn.val < NDIRECT
  · rw [dataSlot, dif_pos direct] at some ⊢
    rw [bmap, dif_pos direct, fill, if_neg some]
  · have inside : bn.val - NDIRECT < NINDIRECT := by
      have small := bn.isLt
      unfold MAXFILE at small
      omega
    rw [dataSlot, dif_neg direct] at some ⊢
    have pointer : ref s .indirect ≠ 0 := fun zero => some (if_pos zero)
    rw [bmap, dif_neg direct, dif_pos inside, fill, if_neg pointer]
    exact (if_neg pointer).trans (by rw [fill, if_neg some])

end Parts

section Writing
variable {src : Source} {n : Nat}

/-- From tot on, with the offset off, the copies of writei are complete up to stop, where one ends after extra bytes. -/
inductive StopsAt (src : Source) (n : Nat) : Nat → Nat → Nat → Nat → Prop where
  | here (off tot m : Nat) (more : tot < n) (size : m = min (n - tot) (BSIZE - off % BSIZE)) (short : src.reach tot m < m) :
      StopsAt src n off tot tot (src.reach tot m)
  | next (off tot m stop extra : Nat) (more : tot < n) (size : m = min (n - tot) (BSIZE - off % BSIZE))
      (whole : src.reach tot m = m) (rest : StopsAt src n (off + m) (tot + m) stop extra) : StopsAt src n off tot stop extra

section Stops
variable {off tot stop extra : Nat}

theorem StopsAt.not_whole (whole : ∀ start count, src.reach start count = count) : ¬StopsAt src n off tot stop extra := by
  intro stops
  induction stops with
  | here off tot m more size short =>
    rw [whole] at short
    omega
  | next off tot m stop extra more size whole rest ih => exact ih

section
variable (stops : StopsAt src n off tot stop extra)
include stops

theorem StopsAt.bounds : tot ≤ stop ∧ stop < n := by
  induction stops with
  | here off tot m more size short => exact ⟨le_rfl, more⟩
  | next off tot m stop extra more size whole rest ih => exact ⟨by omega, ih.2⟩

theorem StopsAt.unique {stop' extra' : Nat}
    (stops' : StopsAt src n off tot stop' extra') : stop = stop' ∧ extra = extra' := by
  induction stops with
  | here off tot m more size short =>
    cases stops' with
    | here _ _ m' _ size' _ =>
      rw [size, size']
      exact ⟨rfl, rfl⟩
    | next _ _ m' _ _ _ size' whole _ =>
      rw [← size'] at size
      rw [size] at short
      omega
  | next off tot m stop extra more size whole rest ih =>
    cases stops' with
    | here _ _ m' _ size' short =>
      rw [← size'] at size
      rw [← size] at short
      omega
    | next _ _ m' _ _ _ size' _ rest' =>
      rw [← size'] at size
      subst size
      exact ih rest'

theorem StopsAt.aligned : stop = tot ∨ (off + (stop - tot)) % BSIZE = 0 := by
  induction stops with
  | here off tot m more size short => exact .inl rfl
  | next off tot m stop extra more size whole rest ih =>
    have bounds := rest.bounds
    right
    rcases ih with rfl | aligned
    · rw [Nat.add_sub_cancel_left]
      simp only [BSIZE] at *
      omega
    · rw [← aligned]
      congr 1
      omega

theorem StopsAt.fits : extra < BSIZE - (off + (stop - tot)) % BSIZE := by
  induction stops with
  | here off tot m more size short =>
    rw [Nat.sub_self, Nat.add_zero]
    omega
  | next off tot m stop extra more size whole rest ih =>
    have bounds := rest.bounds
    rwa [show off + m + (stop - (tot + m)) = off + (stop - tot) by omega] at ih

end

end Stops

/-- What the loop of writei has done when it stops after tot' bytes. The extra bytes are those that a failed copy left behind. -/
structure Written (sb : Layout) (src : Source) (n : Nat) (w : World ι) (i : ι) (off tot : Nat) (s' : File) (tot' extra : Nat) :
    Prop where
  le : tot ≤ tot' ∧ tot' ≤ n
  kept : Kept sb w (w.put i s')
  content : ∀ j k, content ((w.put i s').file j) k =
    if j = i ∧ off ≤ k ∧ k < off + (tot' - tot) + extra then src.byte (tot + (k - off)) else content (w.file j) k
  stop : tot' = n ∧ extra = 0 ∨ (∀ b < sb.size, used sb s'.disk b = true) ∧ extra = 0 ∧
    (∀ inside, ref (w.file i) (dataSlot ⟨(off + (tot' - tot)) / BSIZE, inside⟩) = 0) ∨ StopsAt src n off tot tot' extra
  before : ∀ stop extra, StopsAt src n off tot stop extra → tot' ≤ stop
  there : ∀ k (inside : k / BSIZE < MAXFILE), off ≤ k → k < off + (tot' - tot) → ref s' (dataSlot ⟨k / BSIZE, inside⟩) ≠ 0

/-- The inode after r bytes went into a block at the place of an offset. -/
def patch (s : File) (addr : Blockno) (off r : Nat) (bytes : Nat → Byte) : File :=
  { s with disk := Function.update s.disk addr (splice (s.disk addr) (off % BSIZE) r bytes) }

theorem patch_spec {s₁ : File} {addr : Blockno} {bn : Fin MAXFILE} {off r : Nat} (bytes : Nat → Byte)
    (kept : Kept sb w (w.put i s₁)) (same : SameContents w (w.put i s₁)) (some : addr ≠ 0) (here : ref s₁ (dataSlot bn) = addr)
    (block : off / BSIZE = bn.val) (room : r ≤ BSIZE - off % BSIZE) :
    Kept sb w (w.put i (patch s₁ addr off r bytes)) ∧ ref (patch s₁ addr off r bytes) (dataSlot bn) = addr ∧
      ∀ j k, content ((w.put i (patch s₁ addr off r bytes)).file j) k =
        if j = i ∧ off ≤ k ∧ k < off + r then bytes (k - off) else content (w.file j) k := by
  have slot : ref ((w.put i s₁).file i) (dataSlot bn) = addr := by rw [World.file_put_same, here]
  have stored : w.put i (patch s₁ addr off r bytes) = (w.put i s₁).store i bn
      (splice ((w.put i s₁).disk (ref ((w.put i s₁).file i) (dataSlot bn))) (off % BSIZE) r bytes) := by
    rw [patch, store_put here, slot]
    rfl
  have refs := ref_store kept.owned (slot ▸ some) (splice ((w.put i s₁).disk (ref ((w.put i s₁).file i) (dataSlot bn)))
    (off % BSIZE) r bytes) i (dataSlot bn)
  rw [← stored, World.file_put_same, slot] at refs
  rw [stored]
  refine ⟨kept.trans (kept_store kept.owned (slot ▸ some)), refs, fun j k => ?_⟩
  rw [content_patch kept.owned block room (slot ▸ some), same j k]

theorem writeLoop_round {s s₁ : File} {addr : Blockno} {fuel off tot m : Nat} (more : tot < n)
    (mapped : bmap sb s (off / BSIZE) = .ok (s₁, addr)) (some : addr ≠ 0) (size : m = min (n - tot) (BSIZE - off % BSIZE)) :
    writeLoop sb src n (fuel + 1) s off tot =
      let s₂ := patch s₁ addr off (src.reach tot m) fun x => src.byte (tot + x)
      if src.reach tot m = m then writeLoop sb src n fuel s₂ (off + m) (tot + m) else .ok (s₂, tot) := by
  rw [writeLoop, if_pos more, mapped, size]
  exact if_neg some

theorem Written.after {off tot m tot' extra : Nat} {s₂ s' : File} (kept : Kept sb w (w.put i s₂)) (more : tot < n)
    (length : m = min (n - tot) (BSIZE - off % BSIZE)) (whole : src.reach tot m = m) (here : ∀ inside, ref s₂ (dataSlot ⟨off / BSIZE, inside⟩) ≠ 0)
    (first : ∀ j k, Blocks.content ((w.put i s₂).file j) k =
      if j = i ∧ off ≤ k ∧ k < off + m then src.byte (tot + (k - off)) else Blocks.content (w.file j) k)
    (rest : Written sb src n (w.put i s₂) i (off + m) (tot + m) s' tot' extra) :
    Written sb src n w i off tot s' tot' extra := by
  have le := rest.le
  have kept' := rest.kept
  have content' := rest.content
  rw [World.put_put] at kept' content'
  have place : off + m + (tot' - (tot + m)) = off + (tot' - tot) := by omega
  refine ⟨⟨by omega, le.2⟩, kept.trans kept', fun j k => ?_, ?_, fun stop extra stops => ?_, fun k inside low high => ?_⟩
  · rw [content' j k, first j k]
    by_cases mine : j = i
    · simp only [mine, true_and]
      by_cases late : off + m ≤ k
      · rw [if_neg (show ¬(off ≤ k ∧ k < off + m) by omega)]
        rw [show tot + m + (k - (off + m)) = tot + (k - off) by omega]
        exact if_congr (by omega) rfl rfl
      · rw [if_neg (show ¬(off + m ≤ k ∧ k < off + m + (tot' - (tot + m)) + extra) by omega)]
        exact if_congr (by omega) rfl rfl
    · simp only [mine, false_and, if_false]
  · have stop := rest.stop
    simp only [place] at stop
    refine stop.imp id (Or.imp (And.imp id (And.imp id fun missing inside => ?_)) (.next off tot m tot' extra more length whole))
    by_contra some
    refine some ((kept.refs i _ some).symm.trans (missing inside))
  · cases stops with
    | here _ _ m' _ size' short =>
      rw [← length] at size'
      rw [size'] at short
      omega
    | next _ _ m' _ _ _ size' _ later =>
      rw [← length] at size'
      subst size'
      exact rest.before stop extra later
  · by_cases early : k < off + m
    · have block : k / BSIZE = off / BSIZE := ((part_iff off k (by omega)).mpr ⟨low, early⟩).1
      have mine : ref ((w.put i s₂).file i) (dataSlot ⟨k / BSIZE, inside⟩) ≠ 0 := by
        rw [World.file_put_same]
        simp only [block]
        exact here _
      have later := rest.kept.refs i _ mine
      rw [World.put_put, World.file_put_same] at later
      rw [later]
      exact mine
    · exact rest.there k inside (by omega) (by omega)

theorem written_nothing {off tot : Nat} {s' : File} (start : tot ≤ n) (kept : Kept sb w (w.put i s'))
    (same : SameContents w (w.put i s')) (stop : tot = n ∨ (∀ b < sb.size, used sb s'.disk b = true) ∧
      ∀ inside, ref (w.file i) (dataSlot ⟨off / BSIZE, inside⟩) = 0) :
    Written sb src n w i off tot s' tot 0 := by
  refine ⟨⟨le_refl _, start⟩, kept, fun j k => ?_, ?_, fun _ _ stops => stops.bounds.1, fun k _ low high => by omega⟩
  · rw [same j k, if_neg (by omega)]
  · simp only [Nat.sub_self, Nat.add_zero]
    exact stop.imp (fun finished => ⟨finished, trivial⟩) fun full => .inl ⟨full.1, trivial, full.2⟩

theorem writeLoop_spec (fuel : Nat) {off tot : Nat} (owned : Owned sb w) (start : tot ≤ n) (enough : n - tot ≤ fuel)
    (room : off + (n - tot) ≤ MAXFILE * BSIZE) :
    ∃ s' tot' extra, writeLoop sb src n fuel (w.file i) off tot = .ok (s', tot') ∧
      Written sb src n w i off tot s' tot' extra := by
  induction fuel generalizing w off tot with
  | zero => exact ⟨w.file i, tot, 0, rfl, written_nothing start (kept_self owned).1 (kept_self owned).2 (.inl (by omega))⟩
  | succ fuel ih =>
    by_cases more : tot < n
    · have bound : off / BSIZE < MAXFILE := Nat.div_lt_of_lt_mul (by rw [Nat.mul_comm]; omega)
      have positive : 0 < BSIZE - off % BSIZE := Nat.sub_pos_of_lt (Nat.mod_lt _ (by decide))
      obtain ⟨s₁, addr, mapped, kept, same, here, full⟩ := bmap_spec (i := i) owned ⟨off / BSIZE, bound⟩
      by_cases none : addr = 0
      · refine ⟨s₁, tot, 0, ?_, written_nothing start kept same (.inr ⟨full none, fun inside => ?_⟩)⟩
        swap
        · by_contra some
          have present : bmap sb (w.file i) (off / BSIZE) = .ok (w.file i, ref (w.file i) (dataSlot ⟨off / BSIZE, inside⟩)) :=
            bmap_present some
          rw [present] at mapped
          exact some ((Prod.mk.inj (Except.ok.inj mapped)).2.trans none)
        rw [writeLoop, if_pos more, mapped]
        exact if_pos none
      · obtain ⟨m, size⟩ : ∃ m, m = min (n - tot) (BSIZE - off % BSIZE) := ⟨_, rfl⟩
        have reach := src.le tot m
        rw [writeLoop_round more mapped none size]
        obtain ⟨kept', there, content'⟩ := patch_spec (fun x => src.byte (tot + x)) kept same none (here none) rfl
          (show src.reach tot m ≤ BSIZE - off % BSIZE by omega)
        by_cases whole : src.reach tot m = m
        · rw [whole] at kept' there content' ⊢
          obtain ⟨s', tot', extra, ran, rest⟩ := @ih (w.put i _) (off + m) (tot + m) kept'.owned (by omega) (by omega) (by omega)
          rw [World.file_put_same] at ran
          exact ⟨s', tot', extra, (if_pos rfl).trans ran,   .after kept' more size whole (fun _ => by rw [there]; exact none)
            content' rest⟩
        · refine ⟨_, tot, src.reach tot m, if_neg whole, ⟨⟨le_refl _, start⟩, kept', fun j k => ?_,
            .inr (.inr (.here off tot m more size (by omega))), fun _ _ stops => stops.bounds.1, fun k _ low high => by omega⟩⟩
          rw [content' j k, Nat.sub_self, Nat.add_zero]
    · refine ⟨w.file i, tot, 0, ?_, written_nothing start (kept_self owned).1 (kept_self owned).2 (.inl (by omega))⟩
      rw [writeLoop, if_neg more]

end Writing

section Reading
variable {dst : Dest} {n : Nat}

def contents (s : File) (off count : Nat) : List Byte := (List.range count).map fun x => content s (off + x)

theorem contents_add (s : File) (off m count : Nat) :
    contents s off (m + count) = contents s off m ++ contents s (off + m) count := by
  rw [contents, range_add, map_append, map_map, contents, contents]
  refine congrArg _ (map_congr_left fun x _ => ?_)
  show content s (off + (m + x)) = _
  rw [Nat.add_assoc]

theorem length_contents (s : File) (off count : Nat) : (contents s off count).length = count := by
  rw [contents, length_map, length_range]

theorem bytesOf_eq {s : File} {bn : Fin MAXFILE} {off m : Nat} (block : off / BSIZE = bn.val) (some : ref s (dataSlot bn) ≠ 0)
    (room : m ≤ BSIZE - off % BSIZE) : bytesOf (s.disk (ref s (dataSlot bn))) (off % BSIZE) m = contents s off m := by
  refine map_congr_left fun x inside => ?_
  have small := mem_range.mp inside
  have part := (part_iff off (off + x) room).mpr (by omega)
  have place := part_offset part.1 (Nat.le_add_right _ _)
  rw [content_of_ref (part.1.trans block) some]
  exact congrArg _ (by omega)

theorem readLoop_present {s : File} (accepts : ∀ start count, dst.accepts start count = true) (fuel : Nat) {off tot : Nat}
    {got : List Byte} (start : tot ≤ n) (enough : n - tot ≤ fuel) (room : off + (n - tot) ≤ MAXFILE * BSIZE)
    (present : ∀ bn : Fin MAXFILE, bn.val * BSIZE < off + (n - tot) → off / BSIZE ≤ bn.val → ref s (dataSlot bn) ≠ 0) :
    readLoop sb dst n fuel s off tot got = .ok (s, (n : Int), got ++ contents s off (n - tot)) := by
  induction fuel generalizing off tot got with
  | zero =>
    have finished : tot = n := by omega
    rw [readLoop, finished, Nat.sub_self]
    simp [contents]
  | succ fuel ih =>
    by_cases more : tot < n
    · have bound : off / BSIZE < MAXFILE := Nat.div_lt_of_lt_mul (by rw [Nat.mul_comm]; omega)
      have positive : 0 < BSIZE - off % BSIZE := Nat.sub_pos_of_lt (Nat.mod_lt _ (by decide))
      have low : off / BSIZE * BSIZE ≤ off := Nat.div_mul_le_self _ _
      have some := present ⟨off / BSIZE, bound⟩ (show off / BSIZE * BSIZE < _ by omega) (le_refl _)
      obtain ⟨m, size⟩ : ∃ m, m = min (n - tot) (BSIZE - off % BSIZE) := ⟨_, rfl⟩
      have later : off / BSIZE ≤ (off + m) / BSIZE := Nat.div_le_div_right (Nat.le_add_right _ _)
      have split : n - tot = m + (n - (tot + m)) := by omega
      have mapped : bmap sb s (off / BSIZE) = .ok (s, ref s (dataSlot ⟨off / BSIZE, bound⟩)) := bmap_present some
      rw [readLoop, if_pos more, mapped]
      refine (if_neg some).trans ?_
      rw [← size, if_pos (accepts tot m), bytesOf_eq rfl some (by omega),
        ih (by omega) (by omega) (by omega) fun bn below above => present bn (by omega) (later.trans above), split,
        contents_add, append_assoc]
    · have finished : tot = n := by omega
      rw [readLoop, if_neg more, finished, Nat.sub_self]
      simp [contents]

structure Read (sb : Layout) (dst : Dest) (n : Nat) (w : World ι) (i : ι) (off tot : Nat) (s' : File) (r : Int)
    (got : List Byte) : Prop where
  kept : Kept sb w (w.put i s')
  same : SameContents w (w.put i s')
  le : tot + got.length ≤ n
  bytes : got = contents (w.file i) off got.length
  result : r = tot + got.length ∨ r = -1 ∧ ∃ start count, dst.accepts start count = false

theorem read_nothing {off tot : Nat} {s' : File} {r : Int} (start : tot ≤ n) (kept : Kept sb w (w.put i s'))
    (same : SameContents w (w.put i s')) (result : r = tot ∨ r = -1 ∧ ∃ start count, dst.accepts start count = false) :
    Read sb dst n w i off tot s' r [] :=
  ⟨kept, same, start, rfl, by simpa using result⟩

theorem readLoop_spec (fuel : Nat) {off tot : Nat} (got : List Byte) (owned : Owned sb w) (start : tot ≤ n)
    (room : off + (n - tot) ≤ MAXFILE * BSIZE) :
    ∃ s' r next, readLoop sb dst n fuel (w.file i) off tot got = .ok (s', r, got ++ next) ∧ Read sb dst n w i off tot s' r next := by
  induction fuel generalizing w off tot got with
  | zero =>
    refine ⟨w.file i, tot, [], ?_, read_nothing start (kept_self owned).1 (kept_self owned).2 (.inl rfl)⟩
    rw [append_nil, readLoop]
  | succ fuel ih =>
    by_cases more : tot < n
    · have bound : off / BSIZE < MAXFILE := Nat.div_lt_of_lt_mul (by rw [Nat.mul_comm]; omega)
      have positive : 0 < BSIZE - off % BSIZE := Nat.sub_pos_of_lt (Nat.mod_lt _ (by decide))
      obtain ⟨s₁, addr, mapped, kept, same, here, -⟩ := bmap_spec (i := i) owned ⟨off / BSIZE, bound⟩
      by_cases none : addr = 0
      · refine ⟨s₁, tot, [], ?_, read_nothing start kept same (.inl rfl)⟩
        rw [readLoop, if_pos more, mapped, append_nil]
        exact if_pos none
      · obtain ⟨m, size⟩ : ∃ m, m = min (n - tot) (BSIZE - off % BSIZE) := ⟨_, rfl⟩
        by_cases accepted : dst.accepts tot m = true
        · have part : bytesOf (s₁.disk addr) (off % BSIZE) m = contents (w.file i) off m := by
            rw [← here none, bytesOf_eq rfl (by rw [here none]; exact none) (by omega)]
            refine map_congr_left fun x _ => ?_
            have seen := same i (off + x)
            rwa [World.file_put_same] at seen
          obtain ⟨s', r, next, ran, rest⟩ := @ih (w.put i s₁) (off + m) (tot + m) (got ++ contents (w.file i) off m) kept.owned
            (by omega) (by omega)
          have kept' := rest.kept
          have same' := rest.same
          have le := rest.le
          rw [World.file_put_same] at ran
          rw [World.put_put] at kept' same'
          refine ⟨s', r, contents (w.file i) off m ++ next, ?_, kept.trans kept', fun j k => (same' j k).trans (same j k), ?_, ?_,
            ?_⟩
          · rw [readLoop, if_pos more, mapped]
            refine (if_neg none).trans ?_
            rw [← size, if_pos accepted, part, ran, append_assoc]
          · rw [length_append, length_contents]
            omega
          · rw [length_append, length_contents, contents_add]
            refine congrArg _ (rest.bytes.trans ?_)
            exact map_congr_left fun x _ => same i (off + m + x)
          · refine rest.result.imp_left fun total => ?_
            rw [total, length_append, length_contents]
            push_cast
            ring
        · refine ⟨s₁, -1, [], ?_, read_nothing start kept same (.inr ⟨rfl, tot, m, by simpa using accepted⟩)⟩
          rw [readLoop, if_pos more, mapped, append_nil]
          refine (if_neg none).trans ?_
          rw [← size, if_neg accepted]
    · refine ⟨w.file i, tot, [], ?_, read_nothing start (kept_self owned).1 (kept_self owned).2 (.inl rfl)⟩
      rw [readLoop, if_neg more, append_nil]

end Reading

section Calls
variable {w' : World ι}

omit [DecidableEq ι] in
/-- What is in front of the bit map, and the numbers in an inode that are not block numbers, play no part. -/
theorem ref_congr (addrs : ∀ j, (w'.inodes j).addrs = (w.inodes j).addrs) (owned : Owned sb w)
    (blocks : ∀ b : Blockno, sb.bmapstart ≤ b.toNat → w'.disk b = w.disk b) (j : ι) (slot : Slot) :
    ref (w'.file j) slot = ref (w.file j) slot := by
  cases slot with
  | direct k | indirect => exact congrFun (addrs j) _
  | entry k =>
    show (if (w'.inodes j).addrs _ = 0 then _ else getWord (w'.disk ((w'.inodes j).addrs _)) _) = _
    rw [addrs j]
    by_cases pointer : (w.inodes j).addrs (Fin.last NDIRECT) = 0
    · exact (if_pos pointer).trans (if_pos pointer).symm
    · refine (if_neg pointer).trans (Eq.trans ?_ (if_neg pointer).symm)
      exact congrArg (getWord · (4 * k.val)) (blocks _ (sb.bmapstart_le.trans (owned.inside j .indirect pointer).1))

omit [DecidableEq ι] in
theorem owned_congr (addrs : ∀ j, (w'.inodes j).addrs = (w.inodes j).addrs) (owned : Owned sb w)
    (blocks : ∀ b : Blockno, sb.bmapstart ≤ b.toNat → w'.disk b = w.disk b) :
    Owned sb w' ∧ SameContents w w' ∧ ∀ b < sb.size, used sb w'.disk b = used sb w.disk b := by
  have refs := ref_congr addrs owned blocks
  have bits : ∀ b < sb.size, used sb w'.disk b = used sb w.disk b := by
    intro b inside
    refine congrArg (bit · (b % BPB)) (blocks _ ?_)
    rw [(toNat_BBLOCK sb inside).1]
    exact Nat.le_add_left _ _
  refine ⟨⟨fun b below => ?_, fun j slot some => ?_, fun j k slot slot' some same => ?_⟩, fun j k => ?_, bits⟩
  · rw [bits b (below.trans_le sb.bitmap)]
    exact owned.reserved b below
  · rw [refs] at some ⊢
    obtain ⟨low, high, marked⟩ := owned.inside j slot some
    exact ⟨low, high, (bits _ high).trans marked⟩
  · rw [refs] at some
    rw [refs, refs] at same
    exact owned.apart j k slot slot' some same
  · refine content_congr (fun inside => refs j _) fun inside some => ?_
    exact congrArg (byteAt · (k % BSIZE)) (blocks _ (sb.bmapstart_le.trans (owned.inside j _ some).1))

variable {off n : BitVec 32}

theorem toNat_add_of_not_lt (nowrap : ¬off + n < off) : (off + n).toNat = off.toNat + n.toNat := by
  have off' := off.isLt
  have n' := n.isLt
  rw [BitVec.lt_def, BitVec.toNat_add] at nowrap
  rw [BitVec.toNat_add]
  omega

theorem readi_spec (dst : Dest) (off n : BitVec 32) (owned : Owned sb w) (small : (w.inodes i).size.toNat ≤ MAXFILE * BSIZE) :
    ∃ s' r got, readi sb (w.file i) dst off n = .ok (s', r, got) ∧ Kept sb w (w.put i s') ∧ SameContents w (w.put i s') ∧
      got = contents (w.file i) off.toNat got.length ∧ got.length ≤ n.toNat ∧
      (got ≠ [] → off.toNat + got.length ≤ (w.inodes i).size.toNat) ∧
      (r = got.length ∨ r = -1 ∧ ∃ start count, dst.accepts start count = false) := by
  by_cases outside : off > (w.inodes i).size ∨ off + n < off
  · exact ⟨w.file i, 0, [], if_pos outside, (kept_self owned).1, (kept_self owned).2, rfl, Nat.zero_le _, absurd rfl, .inl rfl⟩
  · obtain ⟨before, nowrap⟩ := not_or.mp outside
    obtain ⟨m, size⟩ : ∃ m, m = if off + n > (w.inodes i).size then (w.inodes i).size - off else n := ⟨_, rfl⟩
    have total := toNat_add_of_not_lt nowrap
    have fits : off.toNat + m.toNat ≤ (w.inodes i).size.toNat ∧ m.toNat ≤ n.toNat := by
      rw [size]
      rw [gt_iff_lt, BitVec.lt_def] at before
      split_ifs with past
      · rw [gt_iff_lt, BitVec.lt_def, total] at past
        rw [BitVec.toNat_sub_of_le (by rw [BitVec.le_def]; omega)]
        omega
      · rw [gt_iff_lt, BitVec.lt_def, total] at past
        omega
    have run : ∃ s' r got, readLoop sb dst m.toNat m.toNat (w.file i) off.toNat 0 [] = .ok (s', r, [] ++ got) ∧
        Read sb dst m.toNat w i off.toNat 0 s' r got :=
      readLoop_spec m.toNat [] owned (Nat.zero_le _) (by omega)
    obtain ⟨s', r, got, ran, done⟩ := run
    have le := done.le
    refine ⟨s', r, got, ?_, done.kept, done.same, done.bytes, by omega, fun _ => by omega, ?_⟩
    · rw [size] at ran
      exact (if_neg outside).trans ran
    · simpa using done.result

theorem readi_present {s : File} {dst : Dest} (accepts : ∀ start count, dst.accepts start count = true)
    (within : off.toNat + n.toNat ≤ s.ip.size.toNat) (room : off.toNat + n.toNat ≤ MAXFILE * BSIZE)
    (present : ∀ bn : Fin MAXFILE, bn.val * BSIZE < off.toNat + n.toNat → ref s (dataSlot bn) ≠ 0) :
    readi sb s dst off n = .ok (s, (n.toNat : Int), contents s off.toNat n.toNat) := by
  have limit : MAXFILE * BSIZE < 2 ^ 32 := by decide
  have total : (off + n).toNat = off.toNat + n.toNat := by
    rw [BitVec.toNat_add, Nat.mod_eq_of_lt (by omega)]
  have inside : ¬(off > s.ip.size ∨ off + n < off) := by
    rw [gt_iff_lt, BitVec.lt_def, BitVec.lt_def, total]
    omega
  have whole : ¬off + n > s.ip.size := by
    rw [gt_iff_lt, BitVec.lt_def, total]
    omega
  refine (if_neg inside).trans ?_
  show readLoop sb dst (if off + n > s.ip.size then s.ip.size - off else n).toNat
    (if off + n > s.ip.size then s.ip.size - off else n).toNat s off.toNat 0 [] = _
  rw [if_neg whole]
  exact readLoop_present accepts n.toNat (Nat.zero_le _) le_rfl room fun bn below _ => present bn below

variable {inum : Nat}

theorem iupdate_spec {s : File} (owned : Owned sb (w.put i s)) (small : inum < sb.ninodes) (ip : Dinode)
    (addrs : ip.addrs = s.ip.addrs) :
    let w' := w.put i (iupdate sb inum { s with ip })
    Owned sb w' ∧ SameContents (w.put i s) w' ∧ (∀ j slot, ref (w'.file j) slot = ref ((w.put i s).file j) slot) ∧
      ∀ b < sb.size, used sb w'.disk b = used sb s.disk b := by
  have addrs' : ∀ j, ((w.put i (iupdate sb inum { s with ip })).inodes j).addrs = ((w.put i s).inodes j).addrs := by
    intro j
    by_cases mine : j = i
    · subst mine
      simp [World.put, iupdate, addrs]
    · simp [World.put, Function.update_of_ne mine]
  have blocks : ∀ b : Blockno, sb.bmapstart ≤ b.toNat →
      (w.put i (iupdate sb inum { s with ip })).disk b = (w.put i s).disk b := by
    intro b behind
    refine Function.update_of_ne ?_ _ _
    rintro rfl
    exact absurd (toNat_IBLOCK sb small).2 (Nat.not_lt.mpr behind)
  obtain ⟨owned', same, bits⟩ := owned_congr addrs' owned blocks
  exact ⟨owned', same, ref_congr addrs' owned blocks, bits⟩

/-- What writei has done when it returns tot. The extra bytes are those that a failed copy left behind. -/
structure Wrote (sb : Layout) (inum : Nat) (src : Source) (w : World ι) (i : ι) (off n : Nat) (s' : File) (tot extra : Nat) :
    Prop where
  le : tot ≤ n
  owned : Owned sb (w.put i s')
  refs : ∀ j slot, ref (w.file j) slot ≠ 0 → ref ((w.put i s').file j) slot = ref (w.file j) slot
  size : s'.ip.size.toNat = max (w.inodes i).size.toNat (off + tot)
  content : ∀ j k, content ((w.put i s').file j) k =
    if j = i ∧ off ≤ k ∧ k < off + tot + extra then src.byte (k - off) else content (w.file j) k
  there : ∀ k (inside : k / BSIZE < MAXFILE), off ≤ k → k < off + tot → ref s' (dataSlot ⟨k / BSIZE, inside⟩) ≠ 0
  stop : tot = n ∧ extra = 0 ∨ (∀ b < sb.size, used sb s'.disk b = true) ∧ extra = 0 ∧
    (∀ inside, ref (w.file i) (dataSlot ⟨(off + tot) / BSIZE, inside⟩) = 0) ∨ StopsAt src n off 0 tot extra
  before : ∀ stop extra, StopsAt src n off 0 stop extra → tot ≤ stop
  others : ∀ other < sb.ninodes, other ≠ inum → dinode sb s'.disk other = dinode sb w.disk other

theorem writei_wrote (src : Source) (owned : Owned sb w) (small : inum < sb.ninodes)
    (inside : ¬(off > (w.inodes i).size ∨ off + n < off)) (room : ¬(off + n).toNat > MAXFILE * BSIZE) :
    ∃ s' tot extra, writei sb inum (w.file i) src off n = .ok (s', (tot : Nat)) ∧
      Wrote sb inum src w i off.toNat n.toNat s' tot extra := by
  have total : (off + n).toNat = off.toNat + n.toNat := toNat_add_of_not_lt (not_or.mp inside).2
  have loop : ∃ s₁ tot extra, writeLoop sb src n.toNat n.toNat (w.file i) off.toNat 0 = .ok (s₁, tot) ∧
      Written sb src n.toNat w i off.toNat 0 s₁ tot extra :=
    writeLoop_spec n.toNat owned (Nat.zero_le _) (le_refl _) (by omega)
  obtain ⟨s₁, tot, extra, ran, done⟩ := loop
  have le := done.le.2
  have limit : MAXFILE * BSIZE < 2 ^ 32 := by decide
  have size : s₁.ip.size = (w.inodes i).size :=
    (congrArg (fun s => s.ip.size) (World.file_put_same w i s₁)).symm.trans (done.kept.size i)
  have reached : (off + BitVec.ofNat 32 tot).toNat = off.toNat + tot := by
    rw [BitVec.toNat_add, BitVec.toNat_ofNat]
    omega
  obtain ⟨owned', same, refs, bits⟩ := iupdate_spec done.kept.owned small
    { s₁.ip with size := (if off + BitVec.ofNat 32 tot > s₁.ip.size then off + BitVec.ofNat 32 tot else s₁.ip.size) } rfl
  refine ⟨_, tot, extra, ?_, le, owned', fun j slot some => ?_, ?_, fun j k => ?_, fun k inside low high => ?_, ?_, ?_,
    fun other below apart => ?_⟩
  · rw [writei]
    refine (if_neg inside).trans ((if_neg room).trans ?_)
    rw [ran]
    show Except.ok _ = Except.ok _
    split_ifs <;> rfl
  · rw [refs j slot, done.kept.refs j slot some]
  · show (if _ then _ else _ : BitVec 32).toNat = _
    rw [size, apply_ite BitVec.toNat, reached]
    split_ifs with grown
    · rw [gt_iff_lt, BitVec.lt_def, reached] at grown
      omega
    · rw [gt_iff_lt, BitVec.lt_def, reached] at grown
      omega
  · rw [same j k, done.content j k, Nat.sub_zero]
    simp only [Nat.zero_add]
  · have here := refs i (dataSlot ⟨k / BSIZE, inside⟩)
    rw [World.file_put_same, World.file_put_same] at here
    rw [here]
    exact done.there k inside low (by omega)
  · have stop := done.stop
    simp only [Nat.sub_zero] at stop
    refine stop.imp id (Or.imp (And.imp (fun full b below => ?_) id) id)
    exact (bits b below).trans (full b below)
  · exact done.before
  · refine (dinode_setDinode_other sb s₁.disk _ apart small below).trans ?_
    exact congrArg (fun b => Dinode.decode (slice b (64 * (other % IPB)) 64)) (done.kept.low _ (toNat_IBLOCK sb below).2)

theorem Wrote.whole {src : Source} {off n : Nat} {s' : File} {tot extra : Nat}
    (wrote : Wrote sb inum src w i off n s' tot extra) (whole : ∀ start count, src.reach start count = count) : extra = 0 := by
  rcases wrote.stop with ⟨-, none⟩ | ⟨-, none, -⟩ | stops
  · exact none
  · exact none
  · exact absurd stops (StopsAt.not_whole whole)

theorem writei_spec {src : Source} (off n : BitVec 32) (owned : Owned sb w) (small : inum < sb.ninodes)
    (whole : ∀ start count, src.reach start count = count) :
    ∃ s' r, writei sb inum (w.file i) src off n = .ok (s', r) ∧ Owned sb (w.put i s') ∧
      (r = -1 ∧ s' = w.file i ∨ ∃ tot : Nat, r = tot ∧ tot ≤ n.toNat ∧ off.toNat + tot ≤ MAXFILE * BSIZE ∧
        s'.ip.size.toNat = max (w.inodes i).size.toNat (off.toNat + tot) ∧
        ∀ j k, content ((w.put i s').file j) k =
          if j = i ∧ off.toNat ≤ k ∧ k < off.toNat + tot then src.byte (k - off.toNat) else content (w.file j) k) := by
  by_cases outside : off > (w.inodes i).size ∨ off + n < off
  · exact ⟨w.file i, -1, if_pos outside, by rwa [World.put_file], .inl ⟨rfl, rfl⟩⟩
  by_cases large : (off + n).toNat > MAXFILE * BSIZE
  · exact ⟨w.file i, -1, (if_neg outside).trans (if_pos large), by rwa [World.put_file], .inl ⟨rfl, rfl⟩⟩
  have total : (off + n).toNat = off.toNat + n.toNat := toNat_add_of_not_lt (not_or.mp outside).2
  obtain ⟨s', tot, extra, ran, wrote⟩ := writei_wrote src owned small outside large
  obtain rfl := wrote.whole whole
  have le := wrote.le
  exact ⟨s', tot, ran, wrote.owned, .inr ⟨tot, rfl, le, by omega, wrote.size, wrote.content⟩⟩

end Calls

end Xv6.Fs.Transfer
