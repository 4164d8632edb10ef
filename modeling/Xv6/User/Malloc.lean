import Xv6.User.FreeList

/-! malloc and free over whole runs of a program: disjoint blocks, all of the memory from sbrk in them, and loops that end. -/

namespace Xv6.User.Malloc

open List hiding take isEmpty_iff
open Lib.Chain Lib.Transition Umalloc FreeList

variable {base : Nat} {h h' : Heap} {list before after : List Nat} {live : Finset Nat} {a p q prevp n fuel : Nat}
  {sbrk : Int → Nat → Option Nat}

section Fuel
variable {fuel' : Nat}

theorem search_mono {next : Nat → Nat} {test : Nat → Bool} (more : fuel ≤ fuel')
    (found : search next test fuel a = some q) : search next test fuel' a = some q := by
  induction fuel generalizing a fuel' with
  | zero => cases found
  | succ fuel ih =>
    obtain ⟨rest, rfl⟩ : ∃ rest, fuel' = rest + 1 := ⟨fuel' - 1, by omega⟩
    rw [search] at found ⊢
    split_ifs at found ⊢ with here
    · exact found
    · exact ih (Nat.le_of_succ_le_succ more) found

theorem free_mono (more : fuel ≤ fuel') (done : free fuel h a = some h') : free fuel' h a = some h' := by
  obtain ⟨p, found, rest⟩ := Option.bind_eq_some_iff.mp done
  exact Option.bind_eq_some_iff.mpr ⟨p, search_mono more found, rest⟩

theorem morecore_mono {r : Heap × Nat} (more : fuel ≤ fuel') (done : morecore sbrk fuel h n = some r) :
    morecore sbrk fuel' h n = some r := by
  rw [morecore] at done ⊢
  cases asked : sbrk (argument (request n)) h.brk with
  | none => rwa [asked] at done
  | some hp =>
    rw [asked] at done
    obtain ⟨h', freed, rest⟩ := Option.bind_eq_some_iff.mp done
    exact Option.bind_eq_some_iff.mpr ⟨h', free_mono more freed, rest⟩

theorem mallocLoop_mono {r : Heap × Nat} (more : fuel ≤ fuel') (done : mallocLoop sbrk n fuel h prevp p = some r) :
    mallocLoop sbrk n fuel' h prevp p = some r := by
  induction fuel generalizing h prevp p fuel' with
  | zero => cases done
  | succ fuel ih =>
    obtain ⟨rest, rfl⟩ : ∃ rest, fuel' = rest + 1 := ⟨fuel' - 1, by omega⟩
    have less := Nat.le_of_succ_le_succ more
    rw [mallocLoop] at done ⊢
    split_ifs at done ⊢ with fits last
    · exact done
    · obtain ⟨⟨h', p'⟩, grown, again⟩ := Option.bind_eq_some_iff.mp done
      refine Option.bind_eq_some_iff.mpr ⟨(h', p'), morecore_mono less grown, ?_⟩
      dsimp only at again ⊢
      split_ifs at again ⊢ with null
      · exact again
      · exact ih less again
    · exact ih less done

end Fuel

/-- What a successful malloc leaves: a block in use that was not one. -/
structure Taken (base : Nat) (h h' : Heap) (live : Finset Nat) (q n : Nat) : Prop where
  shape : ∃ list, Shape base h' list (insert q live)
  new : q ∉ live
  size : h'.size q = n
  keeps : ∀ u ∈ live, h'.size u = h.size u
  room : h.brk ≤ h'.brk

theorem taken_whole (shape : Shape base h (before ++ prevp :: p :: after) live) (other : p ≠ base) :
    Taken base h { h.setPtr prevp (h.ptr p) with freep := prevp } live p (h.size p) := by
  obtain ⟨first, follows, links⟩ := links_append.mp shape.links
  obtain ⟨-, sorted, across⟩ := pairwise_append.mp shape.sorted
  obtain ⟨above, rest⟩ := pairwise_cons.mp sorted
  have sub : (before ++ prevp :: after).Sublist (before ++ prevp :: p :: after) := by simp
  have fresh : p ∉ before ++ prevp :: after := by
    intro free
    rcases mem_append.mp free with earlier | later
    · exact lt_irrefl p (across p earlier p (by simp))
    · rcases mem_cons.mp later with same | later
      · exact lt_irrefl p (same ▸ above p mem_cons_self)
      · exact lt_irrefl p (rel_of_pairwise_cons rest later)
  refine ⟨⟨before ++ prevp :: after, ?_, links_append.mpr ⟨?_, ?_, ?_⟩, ?_, ?_, by simp, shape.room, ?_, ?_⟩,
    shape.used p (by simp), size_setPtr, fun _ _ => size_setPtr, le_rfl⟩
  · exact head_append_cons.trans (head_append_cons.symm.trans shape.starts)
  · exact first.congr fun x free => ptr_setPtr_of_ne (across x free prevp mem_cons_self).ne
  · exact ptr_setPtr_self.trans links.1
  · exact links.2.congr fun x free => ptr_setPtr_of_ne (above x (mem_cons_of_mem p free)).ne'
  · show (before ++ prevp :: after).Pairwise fun a b => (h.setPtr prevp (h.ptr p)).stop a < b
    simpa only [stop_setPtr] using shape.gaps.sublist sub
  · exact size_setPtr.trans shape.empty
  · intro a free inside
    rcases Finset.mem_insert.mp inside with rfl | inside
    · exact fresh free
    · exact shape.used a (sub.subset free) inside
  · have same : (before ++ prevp :: after).toFinset.erase base ∪ insert p live =
        (before ++ prevp :: p :: after).toFinset.erase base ∪ live := by
      ext x
      by_cases this : x = p
      · simp [this, other]
      · simp [this]
    rw [same]
    exact shape.tiling.congr (fun _ _ => size_setPtr) rfl rfl

section
variable (shape : Shape base h list live)
include shape

theorem taken_tail (small : obtained h < 2 ^ 32) (listed : p ∈ list) (some : 0 < n)
    (less : n < h.size p) (precedes : prevp ∈ list) :
    Taken base h { (h.setSize p (h.size p - n)).setSize ((h.setSize p (h.size p - n)).stop p) n with freep := prevp } live
      ((h.setSize p (h.size p - n)).stop p) n := by
  have other : p ≠ base := fun same => by rw [same, shape.empty] at less; omega
  have block : p ∈ list.toFinset.erase base ∪ live :=
    Finset.mem_union_left _ (Finset.mem_erase.mpr ⟨other, mem_toFinset.mpr listed⟩)
  have fits := (shape.tiling.size_le block).trans_lt small
  set h₁ := h.setSize p (h.size p - n)
  set h' : Heap := { h₁.setSize (h₁.stop p) n with freep := prevp }
  have cut : h₁.size p = h.size p - n := size_setSize_self (by omega)
  have beyond : p < h₁.stop p := lt_stop (by omega)
  have kept : h'.size p = h₁.size p := size_setSize_of_ne beyond.ne
  have stop : h'.stop p = h₁.stop p := by rw [Heap.stop, kept, Heap.stop]
  have tail : h'.size (h'.stop p) = n := by
    rw [stop]
    exact size_setSize_self (by omega)
  have keeps : ∀ x, x ≠ p → x ≠ h'.stop p → h'.size x = h.size x := fun x first last =>
    (size_setSize_of_ne (stop ▸ last)).trans (size_setSize_of_ne first)
  obtain ⟨fresh, ends, tiling⟩ := shape.tiling.split block some less (kept.trans cut) tail keeps rfl rfl
  have away : base ≠ h'.stop p := by
    have := shape.tiling.above p block
    omega
  have unlisted : h'.stop p ∉ list := fun inside =>
    fresh (Finset.mem_union_left _ (Finset.mem_erase.mpr ⟨away.symm, mem_toFinset.mpr inside⟩))
  have unused : h'.stop p ∉ live := fun inside => fresh (Finset.mem_union_right _ inside)
  rw [← stop]
  refine ⟨⟨list, shape.starts, ?_, ?_, ?_, precedes, shape.room, ?_, ?_⟩, unused, tail, fun u used => ?_, le_rfl⟩
  · exact shape.links.congr fun x _ => ptr_setSize.trans ptr_setSize
  · refine shape.gaps.imp_of_mem fun {x y} inside _ gap => lt_of_le_of_lt ?_ gap
    by_cases first : x = p
    · rw [first, ← ends]
      exact le_stop
    · rw [Heap.stop, keeps x first fun same => unlisted (same ▸ inside), Heap.stop]
  · exact (keeps base other.symm away).trans shape.empty
  · intro x inside among
    rcases Finset.mem_insert.mp among with rfl | among
    · exact unlisted inside
    · exact shape.used x inside among
  · rw [Finset.union_insert]
    exact tiling
  · exact keeps u (fun same => shape.used p listed (same ▸ used)) fun same => unused (same ▸ used)

theorem taken (small : obtained h < 2 ^ 32) (precedes : prevp ∈ list) (some : 0 < n) (enough : n ≤ h.size (h.ptr prevp)) :
    ∃ q, (take h n prevp (h.ptr prevp)).2 = q + headerSize ∧ Taken base h (take h n prevp (h.ptr prevp)).1 live q n ∧
      (take h n prevp (h.ptr prevp)).1.got = h.got := by
  obtain ⟨before, after, rfl⟩ := append_of_mem precedes
  have follows : h.ptr prevp = after.headD base := (links_append.mp shape.links).2.1
  obtain ⟨p, after, rfl⟩ : ∃ p rest, after = p :: rest := by
    cases after with
    | nil =>
      rw [follows, headD_nil, shape.empty] at enough
      omega
    | cons p after => exact ⟨p, after, rfl⟩
  replace follows : h.ptr prevp = p := follows
  rw [follows] at enough ⊢
  rw [take]
  split_ifs with whole
  · have other : p ≠ base := fun same => by rw [same, shape.empty] at enough; omega
    exact ⟨p, rfl, whole ▸ taken_whole shape other, rfl⟩
  · refine ⟨_, rfl, taken_tail shape small (by simp) some (by omega) (by simp), rfl⟩

omit shape in
theorem mallocLoop_scan (links : Links h.ptr (prevp :: after) h.freep) (away : h.freep ∉ after) :
    (∃ q ∈ prevp :: after, h.ptr q ∈ h.freep :: after ∧ n ≤ h.size (h.ptr q) ∧
      mallocLoop sbrk n (fuel + after.length + 1) h prevp (h.ptr prevp) = some (take h n q (h.ptr q))) ∨
    (∀ q ∈ h.freep :: after, h.size q < n) ∧ mallocLoop sbrk n (fuel + after.length + 1) h prevp (h.ptr prevp) =
      (morecore sbrk fuel h n).bind fun (h, p) => if p = 0 then some (h, 0) else mallocLoop sbrk n fuel h p (h.ptr p) := by
  induction after generalizing prevp with
  | nil =>
    have follows : h.ptr prevp = h.freep := links.1
    rw [length_nil, Nat.add_zero, mallocLoop]
    by_cases enough : n ≤ h.size (h.ptr prevp)
    · exact .inl ⟨prevp, mem_cons_self, follows ▸ mem_cons_self, enough, if_pos enough⟩
    · refine .inr ⟨fun q member => ?_, by rw [if_neg enough, if_pos follows]; rfl⟩
      obtain rfl := mem_singleton.mp member
      exact follows ▸ not_le.mp enough
  | cons c after ih =>
    have follows : h.ptr prevp = c := links.1
    have last : c ≠ h.freep := fun same => away (same ▸ mem_cons_self)
    rw [length_cons, ← Nat.add_assoc, mallocLoop, follows]
    by_cases enough : n ≤ h.size c
    · refine .inl ⟨prevp, mem_cons_self, ?_, follows.symm ▸ enough, by rw [if_pos enough, follows]⟩
      exact follows.symm ▸ mem_cons_of_mem _ mem_cons_self
    · rw [if_neg enough, if_neg last]
      rcases ih links.2 fun inside => away (mem_cons_of_mem c inside) with ⟨q, member, leads, fits, ran⟩ | ⟨short, ran⟩
      · refine .inl ⟨q, mem_cons_of_mem prevp member, ?_, fits, ran⟩
        simp only [mem_cons] at leads ⊢
        tauto
      · refine .inr ⟨fun q member => ?_, ran⟩
        rcases mem_cons.mp member with rfl | member
        · exact short _ mem_cons_self
        · rcases mem_cons.mp member with rfl | member
          · exact not_le.mp enough
          · exact short q (mem_cons_of_mem _ member)

theorem exists_rotation :
    ∃ rest, Links h.ptr (h.freep :: rest) h.freep ∧ (h.freep :: rest).Perm list ∧ h.freep ∉ rest := by
  obtain ⟨ring, rfl⟩ := shape.exists_ring
  obtain ⟨rest, links, perm⟩ := shape.links.rotate shape.freep
  have nodup : (base :: ring).Nodup := shape.sorted.imp ne_of_lt
  exact ⟨rest, links, perm, (nodup_cons.mp (perm.nodup_iff.mpr nodup)).1⟩

theorem mallocLoop_found (small : obtained h < 2 ^ 32) (some : 0 < n)
    (large : ∃ a ∈ list, n ≤ h.size a) : ∃ h' q, mallocLoop sbrk n list.length h h.freep (h.ptr h.freep) =
      .some (h', q + headerSize) ∧ Taken base h h' live q n ∧ h'.got = h.got := by
  obtain ⟨rest, links, perm, away⟩ := exists_rotation shape
  rw [← perm.length_eq, length_cons, ← Nat.zero_add rest.length]
  rcases mallocLoop_scan links away with ⟨p, member, -, enough, ran⟩ | ⟨short, -⟩
  · obtain ⟨q, address, taken, got⟩ := taken shape small (perm.mem_iff.mp member) some enough
    exact ⟨_, q, by rw [ran, ← address], taken, got⟩
  · obtain ⟨a, member, enough⟩ := large
    exact absurd (short a (perm.mem_iff.mpr member)) enough.not_gt

omit shape in
theorem request_pos : 0 < request n ∧ n ≤ request n := by
  rw [request]
  split_ifs <;> omega

omit shape in
theorem argument_eq (fits : headerSize * n < 2 ^ 31) : argument n = (headerSize * n : Nat) := by
  rw [argument, BitVec.toInt_ofNat']
  exact Int.bmod_eq_of_le (by omega) (by omega)

omit shape in
theorem units_eq (fits : headerSize * n < 2 ^ 31) : Grant.units ⟨a, argument n, n⟩ = n := by
  rw [Grant.units, argument_eq fits]
  exact Nat.mul_div_cancel_left n (by decide)

omit shape in
theorem free_range (done : free fuel h a = some h') : h'.got = h.got ∧ h'.brk = h.brk := by
  obtain ⟨p, -, rest⟩ := Option.bind_eq_some_iff.mp done
  obtain rfl := Option.some.inj rest
  exact ⟨joinPrev_range.1.trans joinNext_range.1, joinPrev_range.2.trans joinNext_range.2⟩

theorem morecore_shape (fits : headerSize * request n < 2 ^ 31) (limit : obtained h + request n < 2 ^ 32)
    (asked : sbrk (argument (request n)) h.brk = some a) (later : h.brk ≤ a) :
    ∃ h' list', morecore sbrk list.length h n = some (h', h'.freep) ∧ Shape base h' list' live ∧
      (∃ b ∈ list', n ≤ h'.size b) ∧ (∀ u ∈ live, h'.size u = h.size u) ∧ obtained h' = obtained h + request n ∧
      h.brk ≤ h'.brk := by
  obtain ⟨positive, enough⟩ := request_pos (n := n)
  have exact : argument (request n) = (headerSize * request n : Nat) := argument_eq fits
  have units : Grant.units ⟨a, argument (request n), request n⟩ = request n := units_eq fits
  have moved : newBreak a (argument (request n)) = a + headerSize * request n := by
    rw [newBreak, exact, if_pos (by omega)]
    omega
  set h₁ : Heap := { h with brk := newBreak a (argument (request n)), got := ⟨a, argument (request n), request n⟩ :: h.got }
  have keeps : ∀ x, x ≠ a → (h₁.setSize a (request n)).size x = h.size x := fun x other => size_setSize_of_ne other
  have new : (h₁.setSize a (request n)).size a = request n := size_setSize_self (by omega)
  obtain ⟨fresh, tiling⟩ := shape.tiling.grow shape.room later positive new keeps moved (exact ▸ rfl)
  have above : base < a := shape.room.trans_le later
  have unlisted : a ∉ list := fun inside =>
    fresh (Finset.mem_union_left _ (Finset.mem_erase.mpr ⟨above.ne', mem_toFinset.mpr inside⟩))
  have unused : a ∉ live := fun inside => fresh (Finset.mem_union_right _ inside)
  have got : obtained (h₁.setSize a (request n)) = obtained h + request n := by
    show Grant.units ⟨a, argument (request n), request n⟩ + obtained h = _
    omega
  have grown : Shape base (h₁.setSize a (request n)) list (insert a live) := by
    refine ⟨shape.starts, shape.links.congr fun _ _ => ptr_setSize, ?_, ?_, shape.freep, ?_, ?_, ?_⟩
    · refine shape.gaps.imp_of_mem fun {x y} inside _ gap => ?_
      rwa [Heap.stop, keeps x fun same => unlisted (same ▸ inside)]
    · exact (keeps base above.ne).trans shape.empty
    · exact (above.trans_le (Nat.le_add_right _ _)).trans_eq moved.symm
    · intro x inside among
      rcases Finset.mem_insert.mp among with rfl | among
      · exact unlisted inside
      · exact shape.used x inside among
    · rw [Finset.union_insert]
      exact tiling
  obtain ⟨h', list', freed, after, same, stays, -, b, listed, large⟩ :=
    grown.freed (got.trans_lt limit) (Finset.mem_insert_self a live) le_rfl
  rw [Finset.erase_insert unused] at after
  refine ⟨h', list', ?_, after, ⟨b, listed, ?_⟩, fun u used => ?_, ?_, ?_⟩
  · simp only [morecore, asked]
    rw [freed]
    rfl
  · exact enough.trans (new.ge.trans large)
  · have other : u ≠ a := fun equal => unused (equal ▸ used)
    exact (stays u (Finset.mem_insert_of_mem used) other).trans (keeps u other)
  · rw [obtained, same]
    exact got
  · rw [(free_range freed).2]
    exact later.trans ((Nat.le_add_right _ _).trans moved.ge)

end

theorem take_got : (take h n prevp p).1.got = h.got := by
  rw [take]
  split_ifs <;> rfl

theorem morecore_got (done : morecore sbrk fuel h n = some (h', p)) :
    sbrk (argument (request n)) h.brk = none ∧ h' = h ∧ p = 0 ∨
      ∃ a, h'.got = ⟨a, argument (request n), request n⟩ :: h.got := by
  rw [morecore] at done
  cases asked : sbrk (argument (request n)) h.brk with
  | none =>
    rw [asked] at done
    cases done
    exact .inl ⟨rfl, rfl, rfl⟩
  | some a =>
    rw [asked] at done
    obtain ⟨h₁, freed, rest⟩ := Option.bind_eq_some_iff.mp done
    cases rest
    exact .inr ⟨a, (free_range freed).1⟩

theorem mallocLoop_got (done : mallocLoop sbrk n fuel h prevp p = some (h', a)) : h.got <:+ h'.got := by
  induction fuel generalizing h prevp p with
  | zero => cases done
  | succ fuel ih =>
    rw [mallocLoop] at done
    split_ifs at done with fits last
    · have got : (take h n prevp p).1.got = h.got := take_got
      rw [Option.some.inj done] at got
      exact got ▸ suffix_rfl
    · obtain ⟨⟨h₁, p'⟩, grown, again⟩ := Option.bind_eq_some_iff.mp done
      dsimp only at again
      split_ifs at again with null
      · cases again
        rcases morecore_got grown with ⟨-, rfl, -⟩ | ⟨b, more⟩
        · exact suffix_rfl
        · exact more ▸ suffix_cons _ _
      · rcases morecore_got grown with ⟨-, -, zero⟩ | ⟨b, more⟩
        · exact absurd zero null
        · exact (more ▸ suffix_cons _ _ : h.got <:+ h₁.got).trans (ih again)
    · exact ih done

theorem obtained_grows (fits : headerSize * request n < 2 ^ 31)
    (grown : ⟨a, argument (request n), request n⟩ :: h.got <:+ h'.got) : obtained h + request n ≤ obtained h' := by
  obtain ⟨later, all⟩ := grown
  have units : Grant.units ⟨a, argument (request n), request n⟩ = request n := units_eq fits
  rw [obtained, obtained, ← all, map_append, sum_append, map_cons, sum_cons, units]
  omega

theorem freep_pos (shape : Shape base h list live) (positive : 0 < base) : h.freep ≠ 0 := by
  obtain ⟨ring, rfl⟩ := shape.exists_ring
  rcases mem_cons.mp shape.freep with same | inside
  · omega
  · have := rel_of_pairwise_cons shape.sorted inside
    omega

theorem mallocLoop_asks (shape : Shape base h list live) (short : ∀ b ∈ list, h.size b < n) :
    mallocLoop sbrk n (fuel + list.length) h h.freep (h.ptr h.freep) =
      (morecore sbrk fuel h n).bind fun (h, p) => if p = 0 then some (h, 0) else mallocLoop sbrk n fuel h p (h.ptr p) := by
  obtain ⟨rest, links, perm, away⟩ := exists_rotation shape
  rw [← perm.length_eq, length_cons, ← Nat.add_assoc]
  rcases mallocLoop_scan links away with ⟨p, -, leads, enough, -⟩ | ⟨-, ran⟩
  · exact absurd enough (short _ (perm.mem_iff.mp leads)).not_ge
  · exact ran

theorem mallocLoop_grows (shape : Shape base h list live) (short : ∀ b ∈ list, h.size b < n)
    (asked : sbrk (argument (request n)) h.brk = some a)
    (done : mallocLoop sbrk n fuel h h.freep (h.ptr h.freep) = some (h', p)) :
    ∃ a, ⟨a, argument (request n), request n⟩ :: h.got <:+ h'.got := by
  have longer := mallocLoop_mono (Nat.le_add_right fuel list.length) done
  rw [mallocLoop_asks shape short] at longer
  obtain ⟨⟨h₁, q⟩, grown, rest⟩ := Option.bind_eq_some_iff.mp longer
  rcases morecore_got grown with ⟨failed, -, -⟩ | ⟨b, more⟩
  · cases asked.symm.trans failed
  · refine ⟨b, ?_⟩
    rw [← more]
    dsimp only at rest
    split_ifs at rest with null
    · cases rest
      exact suffix_rfl
    · exact mallocLoop_got rest

theorem mallocLoop_ends (positive : 0 < base) (shape : Shape base h list live) (small : obtained h < 2 ^ 32) (some : 0 < n)
    (answers : ∀ a, sbrk (argument (request n)) h.brk = .some a → h.brk ≤ a)
    (limit : ∀ a, sbrk (argument (request n)) h.brk = .some a → (∀ b ∈ list, h.size b < n) →
      headerSize * request n < 2 ^ 31 ∧ obtained h + request n < 2 ^ 32) :
    ∃ fuel h' ap, mallocLoop sbrk n fuel h h.freep (h.ptr h.freep) = .some (h', ap) ∧
      (h' = h ∧ ap = 0 ∨ ∃ q, ap = q + headerSize ∧ Taken base h h' live q n) := by
  by_cases large : ∃ a ∈ list, n ≤ h.size a
  · obtain ⟨h', q, ran, taken, -⟩ := mallocLoop_found shape small some large
    exact ⟨list.length, h', q + headerSize, ran, .inr ⟨q, rfl, taken⟩⟩
  push Not at large
  cases asked : sbrk (argument (request n)) h.brk with
  | none =>
    have failed : morecore sbrk 0 h n = .some (h, 0) := by simp only [morecore, asked]
    refine ⟨0 + list.length, h, 0, (mallocLoop_asks shape large).trans ?_, .inl ⟨rfl, rfl⟩⟩
    rw [failed]
    rfl
  | some a =>
    obtain ⟨fits, below⟩ := limit a asked large
    obtain ⟨h₁, list', grown, shape', large', keeps, more, room⟩ := morecore_shape shape fits below asked (answers a asked)
    have small' : obtained h₁ < 2 ^ 32 := more.trans_lt below
    obtain ⟨h', q, ran, taken, -⟩ := mallocLoop_found shape' small' some large'
    refine ⟨list.length + list'.length + list.length, h', q + headerSize, ?_, .inr ⟨q, rfl, ?_⟩⟩
    · rw [mallocLoop_asks shape large, morecore_mono (Nat.le_add_right _ _) grown]
      show (if h₁.freep = 0 then _ else _) = _
      rw [if_neg (freep_pos shape' positive)]
      exact mallocLoop_mono (Nat.le_add_left _ _) ran
    · exact ⟨taken.shape, taken.new, taken.size, fun u used => (taken.keeps u used).trans (keeps u used),
        room.trans taken.room⟩

section Runs
variable {s s' : State} {e : Event}

def headers (s : State) : List Nat := s.live.map fun b => b.1 - headerSize

structure Inv (base : Nat) (s : State) (list : List Nat) : Prop where
  shape : Shape base s.heap list (headers s).toFinset
  address : ∀ b ∈ s.live, headerSize ≤ b.1
  nodup : (s.live.map Prod.fst).Nodup
  usable : ∀ b ∈ s.live, b.1 + b.2 ≤ s.heap.stop (b.1 - headerSize)

/-- Before the first malloc there is no list. base is static, below the heap. -/
structure Init (base : Nat) (s : State) : Prop where
  freep : s.heap.freep = 0
  got : s.heap.got = []
  live : s.live = []
  room : base < s.heap.brk

def Held (base : Nat) (s : State) : Prop := Init base s ∨ ∃ list, Inv base s list

theorem exec_mono {fuel' : Nat} (more : fuel ≤ fuel') (done : exec base fuel s e = some s') :
    exec base fuel' s e = some s' := by
  cases e with
  | malloc nbytes sbrk =>
    obtain ⟨r, ran, rest⟩ := Option.bind_eq_some_iff.mp done
    exact Option.bind_eq_some_iff.mpr ⟨r, mallocLoop_mono more ran, rest⟩
  | free ap =>
    obtain ⟨h, ran, rest⟩ := Option.bind_eq_some_iff.mp done
    exact Option.bind_eq_some_iff.mpr ⟨h, free_mono more ran, rest⟩
  | write hdr => exact done

theorem shape_congr (shape : Shape base h list live) (same : ∀ a, a ∈ list ∨ a ∈ live → h'.hdr a = h.hdr a)
    (freep : h'.freep = h.freep) (brk : h'.brk = h.brk) (got : h'.got = h.got) : Shape base h' list live := by
  have sizes : ∀ a, a ∈ list ∨ a ∈ live → h'.size a = h.size a := fun a block => by rw [Heap.size, same a block, Heap.size]
  refine ⟨shape.starts, ?_, ?_, ?_, ?_, ?_, shape.used, ?_⟩
  · exact shape.links.congr fun x free => by rw [Heap.ptr, same x (.inl free), Heap.ptr]
  · refine shape.gaps.imp_of_mem fun {x y} free _ gap => ?_
    rwa [Heap.stop, sizes x (.inl free)]
  · exact (sizes base (.inl shape.base_mem)).trans shape.empty
  · exact freep ▸ shape.freep
  · exact brk ▸ shape.room
  · refine shape.tiling.congr (fun a block => sizes a ?_) brk got
    rcases Finset.mem_union.mp block with free | used
    · exact .inl (mem_toFinset.mp (Finset.mem_of_mem_erase free))
    · exact .inr used

theorem baseOnly_shape (init : Init base s) : Shape base (baseOnly base s.heap) [base] (headers s).toFinset := by
  have none : headers s = [] := by rw [headers, init.live, map_nil]
  have got : (baseOnly base s.heap).got = [] := init.got
  have blocks : [base].toFinset.erase base ∪ (headers s).toFinset = ∅ := by simp [none]
  refine ⟨rfl, ⟨?_, trivial⟩, pairwise_singleton _ _, ?_, mem_singleton.mpr rfl, init.room, ?_, ?_⟩
  · exact ptr_setSize.trans ptr_setPtr_self
  · exact size_setSize_self (by decide)
  · simp [none]
  · rw [blocks]
    refine ⟨nofun, nofun, nofun, nofun, ?_, fun x => ?_, ?_⟩
    · rw [obtained, got]
      rfl
    all_goals simp [got]

theorem units_pos {nbytes : Nat} : 0 < units nbytes ∧ headerSize + nbytes ≤ headerSize * units nbytes := by
  rw [units, headerSize]
  omega

theorem mem_headers {b : Nat × Nat} (member : b ∈ s.live) : b.1 - headerSize ∈ (headers s).toFinset :=
  mem_toFinset.mpr (mem_map.mpr ⟨b, member, rfl⟩)

theorem Inv.write {hdr : Nat → Header} (inv : Inv base s list) (permitted : Permitted base s (.write hdr)) :
    Inv base { s with heap := { s.heap with hdr := hdr } } list := by
  obtain ⟨first, held, listed⟩ := permitted
  obtain ⟨ring, rfl⟩ := inv.shape.exists_ring
  have same : ∀ a, a ∈ base :: ring ∨ a ∈ (headers s).toFinset → hdr a = s.heap.hdr a := by
    rintro a (free | used)
    · rcases mem_cons.mp free with rfl | free
      · exact first
      · exact listed ring inv.shape.links a free
    · obtain ⟨b, member, rfl⟩ := mem_map.mp (mem_toFinset.mp used)
      exact held b member
  refine ⟨shape_congr inv.shape same rfl rfl rfl, inv.address, inv.nodup, fun b member => ?_⟩
  have usable := inv.usable b member
  show b.1 + b.2 ≤ b.1 - headerSize + headerSize * (hdr (b.1 - headerSize)).size
  rw [held b member]
  exact usable

theorem Inv.free {ap : Nat} (inv : Inv base s list) (small : obtained s.heap < 2 ^ 32) (permitted : Permitted base s (.free ap)) :
    ∃ s' list', exec base list.length s (.free ap) = some s' ∧ Inv base s' list' := by
  obtain ⟨n, member⟩ := permitted
  have address := inv.address (ap, n) member
  obtain ⟨h', list', freed, shape, -, keeps, -⟩ := inv.shape.freed small (mem_headers member) le_rfl
  rw [Nat.sub_add_cancel address] at freed
  refine ⟨⟨h', s.live.filter fun b => b.1 ≠ ap⟩, list', ?_, ?_, ?_, ?_, ?_⟩
  · rw [exec, freed]
    rfl
  · have same : (headers ⟨h', s.live.filter fun b => b.1 ≠ ap⟩).toFinset = (headers s).toFinset.erase (ap - headerSize) := by
      ext x
      simp only [headers, mem_toFinset, mem_map, mem_filter, decide_eq_true_eq, Finset.mem_erase]
      constructor
      · rintro ⟨b, ⟨inside, other⟩, rfl⟩
        have := inv.address b inside
        exact ⟨by omega, b, inside, rfl⟩
      · rintro ⟨other, b, inside, rfl⟩
        exact ⟨b, ⟨inside, fun equal => other (equal ▸ rfl)⟩, rfl⟩
    rw [same]
    exact shape
  · exact fun b inside => inv.address b (mem_of_mem_filter inside)
  · exact inv.nodup.sublist (filter_sublist.map _)
  · intro b inside
    obtain ⟨inside, other⟩ := mem_filter.mp inside
    have := inv.address b inside
    have apart : b.1 - headerSize ≠ ap - headerSize := by
      have := of_decide_eq_true other
      omega
    show b.1 + b.2 ≤ h'.stop (b.1 - headerSize)
    rw [Heap.stop, keeps _ (mem_headers inside) apart]
    exact inv.usable b inside

def begun (base : Nat) (h : Heap) : Heap := if h.freep = 0 then baseOnly base h else h

/-- The free list has a block of n units. -/
def HasBlock (base : Nat) (h : Heap) (n : Nat) : Prop :=
  h.freep ≠ 0 ∧ ∃ ring, Links h.ptr (base :: ring) base ∧ ∃ b ∈ ring, n ≤ h.size b

theorem hasBlock_iff (shape : Shape base h list live) (started : h.freep ≠ 0) (some : 0 < n) :
    HasBlock base h n ↔ ∃ b ∈ list, n ≤ h.size b := by
  obtain ⟨ring, rfl⟩ := shape.exists_ring
  constructor
  · rintro ⟨-, other, links, b, member, enough⟩
    have listed : ∀ x ∈ other, x ∈ base :: ring := links.forall_mem (fun x => shape.links.closed) mem_cons_self
    exact ⟨b, listed b member, enough⟩
  · rintro ⟨b, member, enough⟩
    rcases mem_cons.mp member with rfl | member
    · rw [shape.empty] at enough
      omega
    · exact ⟨started, ring, shape.links, b, member, enough⟩

theorem Held.begun (positive : 0 < base) (held : Held base s) : ∃ list, Inv base ⟨begun base s.heap, s.live⟩ list ∧
    ∀ n > 0, HasBlock base s.heap n ↔ ∃ b ∈ list, n ≤ (begun base s.heap).size b := by
  rcases held with init | ⟨list, inv⟩
  · rw [Malloc.begun, if_pos init.freep]
    have shape := baseOnly_shape init
    refine ⟨[base], ⟨shape, ?_, ?_, ?_⟩, fun n some => ⟨fun has => absurd init.freep has.1, ?_⟩⟩
    iterate 3 simp [init.live]
    rintro ⟨b, member, enough⟩
    rw [mem_singleton.mp member, shape.empty] at enough
    omega
  · have started := freep_pos inv.shape positive
    rw [Malloc.begun, if_neg started]
    exact ⟨list, inv, fun n => hasBlock_iff inv.shape started⟩

theorem Inv.malloc {nbytes : Nat} (positive : 0 < base) (inv : Inv base ⟨begun base s.heap, s.live⟩ list)
    (small : obtained s.heap < 2 ^ 32) (fresh : ∀ a, sbrk (argument (request (units nbytes))) s.heap.brk = some a → s.heap.brk ≤ a)
    (limit : ∀ a, sbrk (argument (request (units nbytes))) s.heap.brk = some a →
      (∀ b ∈ list, (begun base s.heap).size b < units nbytes) →
      headerSize * request (units nbytes) < 2 ^ 31 ∧ obtained s.heap + request (units nbytes) < 2 ^ 32) :
    ∃ fuel s' list', exec base fuel s (.malloc nbytes sbrk) = some s' ∧ Inv base s' list' ∧ s.heap.brk ≤ s'.heap.brk := by
  have brk : (begun base s.heap).brk = s.heap.brk := by
    rw [begun]
    split_ifs <;> rfl
  have got : obtained (begun base s.heap) = obtained s.heap := by
    rw [begun]
    split_ifs <;> rfl
  have room : 0 < units nbytes ∧ headerSize + nbytes ≤ headerSize * units nbytes := units_pos
  obtain ⟨fuel, h', ap, ran, outcome⟩ := mallocLoop_ends positive inv.shape (got.trans_lt small)
    room.1 (by rw [brk]; exact fresh) (by rw [brk, got]; exact limit)
  have done : exec base fuel s (.malloc nbytes sbrk) =
      some ⟨h', if ap = 0 then s.live else (ap, nbytes) :: s.live⟩ := by
    rw [exec, Umalloc.malloc]
    exact Option.bind_eq_some_iff.mpr ⟨(h', ap), ran, rfl⟩
  rcases outcome with ⟨rfl, rfl⟩ | ⟨q, rfl, taken⟩
  · exact ⟨fuel, _, list, done, inv, brk.ge⟩
  · obtain ⟨list', shape⟩ := taken.shape
    rw [if_neg (by rw [headerSize]; omega)] at done
    refine ⟨fuel, _, list', done, ⟨?_, ?_, ?_, ?_⟩, brk.ge.trans taken.room⟩
    · have same : (headers ⟨h', (q + headerSize, nbytes) :: s.live⟩).toFinset = insert q (headers s).toFinset := by
        simp [headers]
      rw [same]
      exact shape
    · exact forall_mem_cons.mpr ⟨Nat.le_add_left _ _, inv.address⟩
    · refine nodup_cons.mpr ⟨fun among => taken.new ?_, inv.nodup⟩
      obtain ⟨b, member, equal⟩ := mem_map.mp among
      have header := mem_headers (s := s) member
      rwa [equal, Nat.add_sub_cancel] at header
    · refine forall_mem_cons.mpr ⟨?_, fun b member => ?_⟩
      · show q + headerSize + nbytes ≤ h'.stop (q + headerSize - headerSize)
        rw [Nat.add_sub_cancel, Heap.stop, taken.size]
        omega
      · show b.1 + b.2 ≤ h'.stop (b.1 - headerSize)
        rw [Heap.stop, taken.keeps _ (mem_headers member)]
        exact inv.usable b member

def Steps (base : Nat) (s s' : State) : Prop := ∃ e fuel, Permitted base s e ∧ exec base fuel s e = some s'

/-- A step after which sbrk has given less than 2 ^ 32 units. -/
def ModestSteps (base : Nat) (s s' : State) : Prop := Steps base s s' ∧ obtained s'.heap < 2 ^ 32

/-- What sbrk would give to the call leaves it with less than 2 ^ 32 units. -/
def Modest (s : State) : Event → Prop
  | .malloc nbytes sbrk => ∀ a, sbrk (argument (request (units nbytes))) s.heap.brk = some a →
      obtained s.heap + request (units nbytes) < 2 ^ 32
  | _ => True

theorem Held.exec (positive : 0 < base) (held : Held base s) (small : obtained s.heap < 2 ^ 32) (permitted : Permitted base s e)
    (modest : Modest s e) : ∃ fuel s', exec base fuel s e = some s' ∧ Held base s' := by
  cases e with
  | malloc nbytes sbrk =>
    obtain ⟨list, inv, -⟩ := held.begun positive
    obtain ⟨fuel, s', list', done, inv', -⟩ := inv.malloc positive small (fun a asked => (permitted.2 _ a asked).2)
      fun a asked _ => ⟨(permitted.2 _ a asked).1, modest a asked⟩
    exact ⟨fuel, s', done, .inr ⟨list', inv'⟩⟩
  | free ap =>
    rcases held with init | ⟨list, inv⟩
    · obtain ⟨n, member⟩ := permitted
      rw [init.live] at member
      cases member
    · obtain ⟨s', list', done, inv'⟩ := inv.free small permitted
      exact ⟨_, s', done, .inr ⟨list', inv'⟩⟩
  | write hdr =>
    rcases held with init | ⟨list, inv⟩
    · exact ⟨0, _, rfl, .inl ⟨init.freep, init.got, init.live, init.room⟩⟩
    · exact ⟨0, _, rfl, .inr ⟨list, inv.write permitted⟩⟩

theorem Held.next (positive : 0 < base) (held : Held base s) (small : obtained s.heap < 2 ^ 32) (next : ModestSteps base s s') :
    Held base s' := by
  obtain ⟨⟨e, fuel, permitted, done⟩, limit⟩ := next
  have same : ∀ {fuel' s''}, Umalloc.exec base fuel' s e = some s'' → s'' = s' := by
    intro fuel' s'' other
    have first := exec_mono (Nat.le_add_right fuel fuel') done
    have second := exec_mono (Nat.le_add_left fuel' fuel) other
    exact Option.some.inj (second.symm.trans first)
  cases e with
  | malloc nbytes sbrk =>
    obtain ⟨list, inv, -⟩ := held.begun positive
    obtain ⟨⟨h', ap⟩, ran, made⟩ := Option.bind_eq_some_iff.mp done
    have after : s'.heap = h' := by rw [← Option.some.inj made]
    have brk : (Malloc.begun base s.heap).brk = s.heap.brk := by
      rw [Malloc.begun]
      split_ifs <;> rfl
    have got : obtained (Malloc.begun base s.heap) = obtained s.heap := by
      rw [Malloc.begun]
      split_ifs <;> rfl
    obtain ⟨fuel', s'', list', done', inv', -⟩ := inv.malloc positive small (fun a asked => (permitted.2 _ a asked).2) fun a asked short => by
      obtain ⟨b, grows⟩ := mallocLoop_grows inv.shape short (brk.symm ▸ asked) ran
      have fits := (permitted.2 _ a asked).1
      have grown := obtained_grows fits grows
      rw [got, ← after] at grown
      exact ⟨fits, grown.trans_lt limit⟩
    exact same done' ▸ .inr ⟨list', inv'⟩
  | free ap | write hdr =>
    obtain ⟨fuel', s'', done', held'⟩ := held.exec positive small permitted trivial
    exact same done' ▸ held'

/-- The free list is a cycle from base in the order of addresses, with a gap between any two of its blocks. The blocks of
the list and those in use are disjoint, and their units are those obtained from sbrk. A block in use has the bytes the
program asked for. -/
structure Sound (base : Nat) (s : State) (ring : List Nat) : Prop where
  cycle : Links s.heap.ptr (base :: ring) base
  ordered : (base :: ring).Pairwise (· < ·)
  freep : s.heap.freep ∈ base :: ring
  separate : ring.Pairwise fun a b => s.heap.stop a < b
  nonempty : ∀ a ∈ ring ++ headers s, 0 < s.heap.size a
  disjoint : (ring ++ headers s).Pairwise fun a b => s.heap.stop a ≤ b ∨ s.heap.stop b ≤ a
  usable : ∀ b ∈ s.live, headerSize ≤ b.1 ∧ b.1 + b.2 ≤ s.heap.stop (b.1 - headerSize)
  within : ∀ a ∈ headers s, ∀ u, HasUnit a (s.heap.size a) u → ∃ g ∈ s.heap.got, HasUnit g.address g.units u
  tiled : ∀ g ∈ s.heap.got, ∀ u, HasUnit g.address g.units u → ∃! a, a ∈ ring ++ headers s ∧ HasUnit a (s.heap.size a) u

theorem unit_bounds {u : Nat} (unit : HasUnit a (h.size a) u) : a ≤ u ∧ u < h.stop a := by
  obtain ⟨i, inside, rfl⟩ := unit
  rw [Heap.stop, headerSize]
  omega

theorem Inv.sound (inv : Inv base s list) : ∃ ring, Sound base s ring := by
  obtain ⟨ring, rfl⟩ := inv.shape.exists_ring
  have sorted := inv.shape.sorted
  obtain ⟨above, ascending⟩ := pairwise_cons.mp sorted
  have block : ∀ a, a ∈ ring ++ headers s ↔ a ∈ (base :: ring).toFinset.erase base ∪ (headers s).toFinset := by
    intro a
    simp only [mem_append, Finset.mem_union, Finset.mem_erase, mem_toFinset, mem_cons]
    refine or_congr_left ⟨fun free => ⟨(above a free).ne', .inr free⟩, ?_⟩
    rintro ⟨other, same | free⟩
    · exact absurd same other
    · exact free
  have tiling := inv.shape.tiling
  have apart : ∀ a ∈ ring ++ headers s, ∀ b ∈ ring ++ headers s, a ≠ b → s.heap.stop a ≤ b ∨ s.heap.stop b ≤ a := by
    intro a first b second other
    rcases lt_or_gt_of_ne other with less | more
    · exact .inl (tiling.apart a ((block a).mp first) b ((block b).mp second) less)
    · exact .inr (tiling.apart b ((block b).mp second) a ((block a).mp first) more)
  have nodup : (ring ++ headers s).Nodup := by
    refine nodup_append'.mpr ⟨ascending.imp ne_of_lt, ?_, fun a free used => ?_⟩
    · refine pairwise_map.mpr ((pairwise_map.mp inv.nodup).imp_of_mem fun {b c} first second other equal => ?_)
      have := inv.address b first
      have := inv.address c second
      omega
    · exact inv.shape.used a (mem_cons_of_mem base free) (mem_toFinset.mpr used)
  refine ⟨ring, inv.shape.links, sorted, inv.shape.freep, (pairwise_cons.mp inv.shape.gaps).2,
    fun a member => tiling.nonempty a ((block a).mp member), nodup.pairwise_of_forall_ne apart,
    fun b member => ⟨inv.address b member, inv.usable b member⟩, fun a used u unit => ?_, fun g got u unit => ?_⟩
  · exact (tiling.cover u).mpr ⟨a, (block a).mp (mem_append_right ring used), unit⟩
  · obtain ⟨a, member, inside⟩ := (tiling.cover u).mp ⟨g, got, unit⟩
    refine ⟨a, ⟨(block a).mpr member, inside⟩, fun b ⟨other, also⟩ => by_contra fun differs => ?_⟩
    have first := unit_bounds inside
    have second := unit_bounds also
    have := apart b other a ((block a).mpr member) differs
    omega

theorem Held.of_reachable (positive : 0 < base) (reachable : Reachable (Init base) (ModestSteps base) s) :
    Held base s ∧ obtained s.heap < 2 ^ 32 := by
  refine reachable.invariant (fun s => Held base s ∧ obtained s.heap < 2 ^ 32) (fun s init => ⟨.inl init, ?_⟩) ?_
  · rw [obtained, init.got]
    decide
  · rintro s s' ⟨held, small⟩ next
    exact ⟨held.next positive small next, next.2⟩

/-- While sbrk has given less than 2 ^ 32 units, malloc and free keep the list and the blocks, and their loops end. -/
theorem heap_blocks_disjoint (base : Nat) (positive : 0 < base) (s : State)
    (reachable : Reachable (Init base) (ModestSteps base) s) :
    (s.heap.freep = 0 → s.live = [] ∧ s.heap.got = []) ∧ (s.heap.freep ≠ 0 → ∃ ring, Sound base s ring) ∧
      ∀ e, Permitted base s e → Modest s e → ∃ enough, ∀ fuel ≥ enough, ∃ s', exec base fuel s e = some s' := by
  obtain ⟨held, small⟩ := Held.of_reachable positive reachable
  refine ⟨fun null => ?_, fun started => ?_, fun e permitted modest => ?_⟩
  · rcases held with init | ⟨list, inv⟩
    · exact ⟨init.live, init.got⟩
    · exact absurd null (freep_pos inv.shape positive)
  · rcases held with init | ⟨list, inv⟩
    · exact absurd init.freep started
    · exact inv.sound
  · obtain ⟨enough, s', done, -⟩ := held.exec positive small permitted modest
    exact ⟨enough, fun fuel more => ⟨s', exec_mono more done⟩⟩

end Runs

def contiguous : Int → Nat → Option Nat := fun _ => some

def fresh : State := { heap := { hdr := fun _ => ⟨0, 0⟩, freep := 0, brk := 8192, got := [] }, live := [] }

theorem fresh_init : Init 4096 fresh := ⟨rfl, rfl, rfl, by decide⟩

theorem heap_blocks_disjoint_first : ∃ s, Reachable (Init 4096) (ModestSteps 4096) s ∧ s.live = [(73616, 100)] ∧
    ∃ ring, Sound 4096 s ring := by
  have played : (exec 4096 5 fresh (.malloc 100 contiguous)).any (fun s =>
      s.live == [(73616, 100)] && s.heap.freep == 4096 && decide (obtained s.heap < 2 ^ 32)) = true := by
    decide +kernel
  obtain ⟨s, ran, facts⟩ := (Option.any_eq_true _ _).mp played
  simp only [Bool.and_eq_true, beq_iff_eq, decide_eq_true_eq] at facts
  have permitted : Permitted 4096 fresh (.malloc 100 contiguous) :=
    ⟨by decide, fun brk a asked => ⟨by decide, (Option.some.inj asked).le⟩⟩
  have reachable : Reachable (Init 4096) (ModestSteps 4096) s :=
    .step fresh s (.init fresh fresh_init) ⟨⟨_, 5, permitted, ran⟩, facts.2⟩
  refine ⟨s, reachable, facts.1.1, ?_⟩
  exact (heap_blocks_disjoint 4096 (by decide) s reachable).2.1 (by rw [facts.1.2]; decide)

section Sizes

/-- The byte is in the process, in memory that sbrk gave. -/
def Owned (h : Heap) (x : Nat) : Prop :=
  x < h.brk ∧ ∃ g ∈ h.got, g.address ≤ x ∧ x < g.address + headerSize * g.units

/-- Whatever sbrk answers, malloc returns. Then no argument of sbrk was negative, each was the number of bytes that the new
header said, the process did not shrink, and a block that malloc returns has nbytes bytes of memory from sbrk. -/
def Honoured (base : Nat) (s : State) (nbytes : Nat) : Prop :=
  ∀ sbrk : Int → Nat → Option Nat, (∀ n a, sbrk n s.heap.brk = some a → s.heap.brk ≤ a) →
    ∃ enough h ap, (∀ fuel ≥ enough, malloc base sbrk fuel s.heap nbytes = some (h, ap)) ∧
      (∀ g ∈ h.got, 0 ≤ g.argument ∧ g.argument = (headerSize * g.recorded : Nat)) ∧ s.heap.brk ≤ h.brk ∧
      (ap ≠ 0 → ∀ x < nbytes, Owned h (ap + x))

theorem request_fits {nbytes : Nat} (small : nbytes ≤ 2 ^ 31 - 32) : headerSize * request (units nbytes) < 2 ^ 31 := by
  unfold request units headerSize
  split_ifs <;> omega

theorem Sound.inside {s : State} {ring : List Nat} {ap nbytes : Nat} (sound : Sound base s ring) (member : (ap, nbytes) ∈ s.live) :
    ∀ x < nbytes, ∃ g ∈ s.heap.got, g.address ≤ ap + x ∧ ap + x < g.address + headerSize * g.units := by
  intro x inside
  obtain ⟨above, usable⟩ : headerSize ≤ ap ∧ ap + nbytes ≤ s.heap.stop (ap - headerSize) := sound.usable _ member
  have header : ap - headerSize ∈ headers s := mem_map.mpr ⟨_, member, rfl⟩
  rw [Heap.stop] at usable
  -- the unit of the block that the byte is in
  have unit : HasUnit (ap - headerSize) (s.heap.size (ap - headerSize)) (ap - headerSize + headerSize * ((x + headerSize) / headerSize)) :=
    ⟨_, by unfold headerSize at *; omega, rfl⟩
  obtain ⟨g, got, i, low, same⟩ := sound.within _ header _ unit
  refine ⟨g, got, ?_⟩
  generalize g.units = count at low ⊢
  unfold headerSize at *
  omega

theorem Inv.owned {s : State} {ap nbytes : Nat} (inv : Inv base s list) (member : (ap, nbytes) ∈ s.live) :
    ∀ x < nbytes, Owned s.heap (ap + x) := by
  intro x inside
  obtain ⟨ring, sound⟩ := inv.sound
  have usable : ap + nbytes ≤ s.heap.stop (ap - headerSize) := inv.usable (ap, nbytes) member
  have header : ap - headerSize ∈ (headers s).toFinset := mem_headers (b := (ap, nbytes)) member
  have below : s.heap.stop (ap - headerSize) ≤ s.heap.brk := inv.shape.tiling.below _ (Finset.mem_union_right _ header)
  exact ⟨((Nat.add_lt_add_left inside ap).trans_le usable).trans_le below, sound.inside member x inside⟩

theorem argument_huge {nbytes : Nat} (large : ¬nbytes ≤ 2 ^ 31 - 32) :
    argument (request (units nbytes)) ≠ (headerSize * request (units nbytes) : Nat) := by
  intro same
  have limit : argument (request (units nbytes)) < 2 ^ 31 := BitVec.toInt_lt
  have enough := (request_pos (n := units nbytes)).2
  unfold units headerSize at *
  omega

/-- malloc honours a request exactly if it is small enough for the int that sbrk takes, or if the free list has a block for
it. -/
theorem malloc_honours_iff (base : Nat) (positive : 0 < base) (s : State) (reachable : Reachable (Init base) (ModestSteps base) s)
    (nbytes : Nat) (modest : HasBlock base s.heap (units nbytes) ∨ obtained s.heap + request (units nbytes) < 2 ^ 32) :
    Honoured base s nbytes ↔ nbytes ≤ 2 ^ 31 - 32 ∨ HasBlock base s.heap (units nbytes) := by
  obtain ⟨held, small⟩ := Held.of_reachable positive reachable
  obtain ⟨list, inv, block⟩ := held.begun positive
  have has := block (units nbytes) units_pos.1
  constructor
  · intro honoured
    by_contra neither
    obtain ⟨large, none⟩ := not_or.mp neither
    rw [has] at none
    push Not at none
    obtain ⟨enough, h, ap, ran, exact, -⟩ := honoured contiguous fun n a asked => (Option.some.inj asked).le
    obtain ⟨a, grows⟩ := mallocLoop_grows inv.shape none rfl (ran enough le_rfl)
    exact argument_huge large (exact _ (grows.subset mem_cons_self)).2
  · intro fits sbrk answers
    obtain ⟨fuel, s', list', done, inv', room⟩ := inv.malloc positive small (answers _) fun a _ short => by
      have lacks : ¬HasBlock base s.heap (units nbytes) := fun some => by
        obtain ⟨b, member, enough⟩ := has.mp some
        exact absurd (short b member) enough.not_gt
      exact ⟨request_fits (fits.resolve_right lacks), modest.resolve_left lacks⟩
    obtain ⟨⟨h, ap⟩, ran, made⟩ := Option.bind_eq_some_iff.mp done
    cases made
    refine ⟨fuel, h, ap, fun more enough => mallocLoop_mono enough ran, fun g got => ?_, room, fun some => inv'.owned ?_⟩
    · have same := inv'.shape.tiling.recorded g got
      exact ⟨same ▸ Int.natCast_nonneg _, same⟩
    · rw [if_neg some]
      exact mem_cons_self

theorem malloc_honours_first : Honoured 4096 fresh 100 :=
  (malloc_honours_iff 4096 (by decide) fresh (.init fresh fresh_init) 100 (.inr (by decide))).mpr (.inl (by decide))

theorem not_honoured {nbytes brk : Nat} {g : Grant} (differs : g.argument ≠ (headerSize * g.recorded : Nat))
    (ran : (malloc 4096 contiguous fuel fresh.heap nbytes).map (fun r => (r.1.got, r.1.brk, r.2)) = some ([g], brk, p)) :
    ¬Honoured 4096 fresh nbytes := by
  intro honoured
  obtain ⟨enough, h, ap, returns, exact, -⟩ := honoured contiguous fun n a asked => (Option.some.inj asked).le
  obtain ⟨r, done, facts⟩ := Option.map_eq_some_iff.mp ran
  have same : r = (h, ap) := Option.some.inj ((mallocLoop_mono (Nat.le_add_left fuel enough) done).symm.trans
    (returns (enough + fuel) (Nat.le_add_right _ _)))
  have got : h.got = [g] := by
    rw [same] at facts
    exact congrArg Prod.fst facts
  exact differs (exact g (got ▸ mem_cons_self)).2

/-- For almost 2 GiB sbrk is asked for a negative number of bytes and nothing is added, and for almost 4 GiB it is asked for
16 bytes. Both times the header says what was needed, and malloc returns the address after it. -/
theorem huge_requests_wrap : ¬Honoured 4096 fresh (2 ^ 31 - 31) ∧ ¬Honoured 4096 fresh (2 ^ 32 - 1) ∧
    (malloc 4096 contiguous 5 fresh.heap (2 ^ 31 - 31)).map (fun r => (r.1.got, r.1.brk, r.2)) =
      some ([⟨8192, -2 ^ 31, 2 ^ 27⟩], 8192, 8208) ∧
    (malloc 4096 contiguous 5 fresh.heap (2 ^ 32 - 1)).map (fun r => (r.1.got, r.1.brk, r.2)) =
      some ([⟨8192, 16, 2 ^ 28 + 1⟩], 8208, 8208) := by
  have first : (malloc 4096 contiguous 5 fresh.heap (2 ^ 31 - 31)).map (fun r => (r.1.got, r.1.brk, r.2)) =
      some ([⟨8192, -2 ^ 31, 2 ^ 27⟩], 8192, 8208) := by decide +kernel
  have second : (malloc 4096 contiguous 5 fresh.heap (2 ^ 32 - 1)).map (fun r => (r.1.got, r.1.brk, r.2)) =
      some ([⟨8192, 16, 2 ^ 28 + 1⟩], 8208, 8208) := by decide +kernel
  exact ⟨not_honoured (by decide) first, not_honoured (by decide) second, first, second⟩

end Sizes

def fill (nbytes : Nat) : Nat → State → Option State
  | 0, s => some s
  | count + 1, s => do
    let s ← exec 4096 5 s (.malloc nbytes contiguous)
    fill nbytes count s

def drain : Nat → State → Option State
  | 0, s => some s
  | count + 1, s => do
    let b ← s.live.getLast?
    let s ← exec 4096 5 s (.free b.1)
    drain count s

theorem fill_reachable {nbytes : Nat} (permitted : ∀ s, Permitted 4096 s (.malloc nbytes contiguous)) (count : Nat) {s s' : State}
    (reachable : Reachable (Init 4096) (Steps 4096) s) (filled : fill nbytes count s = some s') :
    Reachable (Init 4096) (Steps 4096) s' := by
  induction count generalizing s with
  | zero => exact Option.some.inj filled ▸ reachable
  | succ count ih =>
    obtain ⟨next, ran, rest⟩ := Option.bind_eq_some_iff.mp filled
    exact ih (.step s next reachable ⟨_, 5, permitted s, ran⟩) rest

theorem drain_reachable (count : Nat) {s s' : State} (reachable : Reachable (Init 4096) (Steps 4096) s)
    (drained : drain count s = some s') : Reachable (Init 4096) (Steps 4096) s' := by
  induction count generalizing s with
  | zero => exact Option.some.inj drained ▸ reachable
  | succ count ih =>
    obtain ⟨b, last, drained⟩ := Option.bind_eq_some_iff.mp drained
    obtain ⟨next, ran, rest⟩ := Option.bind_eq_some_iff.mp drained
    exact ih (.step s next reachable ⟨.free b.1, 5, ⟨b.2, mem_of_getLast? last⟩, ran⟩) rest

/-- Past 2 ^ 32 units the size of a joined block wraps, and the units behind it are in no block. -/
theorem joined_size_wraps : ∃ s, Reachable (Init 4096) (Steps 4096) s ∧ s.heap.freep ≠ 0 ∧ ∀ ring, ¬Sound 4096 s ring := by
  have played : ((fill (2 ^ 31 - 64) 33 fresh).bind (drain 33)).any (fun s =>
      s.live.isEmpty && s.heap.freep == 8192 && s.heap.ptr 4096 == 8192 && s.heap.ptr 8192 == 4096 &&
      s.heap.size 8192 == 134217629 && s.heap.got.contains ⟨8192, 2 ^ 31 - 48, 134217725⟩) = true := by
    decide +kernel
  obtain ⟨s, ran, facts⟩ := (Option.any_eq_true _ _).mp played
  simp only [Bool.and_eq_true, beq_iff_eq, List.isEmpty_iff, contains_iff_mem] at facts
  obtain ⟨⟨⟨⟨⟨live, freep⟩, leads⟩, back⟩, size⟩, got⟩ := facts
  obtain ⟨full, filled, drained⟩ := Option.bind_eq_some_iff.mp ran
  have permitted : ∀ s, Permitted 4096 s (.malloc (2 ^ 31 - 64) contiguous) := fun s =>
    ⟨by decide, fun brk a asked => ⟨by decide, (Option.some.inj asked).le⟩⟩
  have reachable := drain_reachable 33 (fill_reachable permitted 33 (.init fresh fresh_init) filled) drained
  refine ⟨s, reachable, by rw [freep]; decide, fun ring sound => ?_⟩
  -- the list is base and the one block at 8192
  have only : ∀ a ∈ ring, a = 8192 := by
    intro a member
    obtain ⟨above, -⟩ := pairwise_cons.mp sound.ordered
    have cycle := sound.cycle
    cases ring with
    | nil => cases member
    | cons c rest =>
      obtain rfl : 8192 = c := leads.symm.trans cycle.1
      cases rest with
      | nil => exact mem_singleton.mp member
      | cons d rest =>
        have next : s.heap.ptr 8192 = d := cycle.2.1
        have := above d (by simp)
        omega
  obtain ⟨a, ⟨member, i, inside, place⟩, -⟩ := sound.tiled _ got (8192 + headerSize * 134217629) ⟨134217629, by decide, rfl⟩
  rw [headers, live, map_nil, append_nil] at member
  rw [only a member] at inside place
  rw [size] at inside
  rw [headerSize] at place
  omega

end Xv6.User.Malloc
