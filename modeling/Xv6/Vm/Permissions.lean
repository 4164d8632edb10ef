import Xv6.Vm.Transfers

/-! The pages that copyout stores into, and what their entries permit. -/

namespace Xv6.Vm.Permissions
open Lib.Exec Lib.Bytes Memory Pagetable Entry Space UserMem Transfers List Option

def Writable (pte : Nat) : Prop := Valid pte ∧ User pte ∧ pte &&& PTE_W ≠ 0

instance (pte : Nat) : Decidable (Writable pte) := by unfold Writable; infer_instance

/-- A page that copyout stores into: its address, the entry that led there, and whether a byte of it changed. -/
structure Visit where
  va : Nat
  pte : Nat
  changed : Bool

/-- The loop of copyout with the pages it stores into. -/
def copyoutVisitsLoop (pagetable : Nat) : Nat → Nat → List Byte → VM (Bool × List Visit)
  | 0, _, _ => pure (true, [])
  | fuel + 1, dstva, src =>
      if src.isEmpty then pure (true, [])
      else do
        let va0 := PGROUNDDOWN dstva
        match ← walkaddr pagetable va0 with
        | none => pure (false, [])
        | some x => do
            let n := min (PGSIZE - (dstva - va0)) src.length
            let s ← get
            let page := Page.write (s.page x) (dstva - va0) (src.take n)
            let visit := ⟨va0, (leafAt s pagetable (vpn va0)).getD 0, decide (page ≠ s.page x)⟩
            modify fun s => s.setPage x page
            let (ok, visits) ← copyoutVisitsLoop pagetable fuel ((va0 + PGSIZE) % 2 ^ 64) (src.drop n)
            pure (ok, visit :: visits)

def copyoutVisits (pagetable dstva : Nat) (src : List Byte) : VM (Bool × List Visit) :=
  copyoutVisitsLoop pagetable src.length dstva src

/-- Only pages that the user may write were changed, and 0 was returned only if every page is one. -/
def Respectful (out : Bool × List Visit) : Prop :=
  (∀ visit ∈ out.2, visit.changed = true → Writable visit.pte) ∧ (out.1 = true → ∀ visit ∈ out.2, Writable visit.pte)

theorem respectful_nil (ok : Bool) : Respectful (ok, []) := by simp [Respectful]

theorem respectful_cons (ok : Bool) (visit : Visit) (visits : List Visit) : Respectful (ok, visit :: visits) ↔
    (Writable visit.pte ∨ visit.changed = false ∧ ok = false) ∧ Respectful (ok, visits) := by
  unfold Respectful
  simp only [forall_mem_cons]
  cases ok <;> cases visit.changed <;> simp <;> tauto

def room (va : Nat) : Nat := PGSIZE - va % PGSIZE

def patched (s : Mem) (x dst : Nat) (src : List Byte) : Page :=
  Page.write (s.page x) (dst % PGSIZE) (src.take (room dst))

/-- Page by page: either the user may write the page, or it holds the bytes already and the copy fails later. -/
def Permitted (r : Nat) : Nat → Nat → List Byte → Mem → Prop
  | 0, _, _, _ => True
  | fuel + 1, dst, src, s =>
      if src.isEmpty then True
      else match translate s r dst with
        | none => True
        | some x =>
            (Writable ((leafAt s r (vpn dst)).getD 0) ∨ patched s x dst src = s.page x ∧
              ∃ s', copyoutLoop r fuel (dst + room dst) (src.drop (room dst)) (s.setPage x (patched s x dst src)) = .ok false s') ∧
            Permitted r fuel (dst + room dst) (src.drop (room dst)) (s.setPage x (patched s x dst src))

section Turn
variable {s : Mem} {r dst : Nat} {src : List Byte}

theorem vpn_rounddown (low : dst < MAXVA) : vpn (PGROUNDDOWN dst) = vpn dst := by
  unfold MAXVA at low
  rw [vpn_eq_iff dst (by omega), page_vpn _ (by unfold PGROUNDDOWN PGSIZE; omega)]
  unfold PGROUNDDOWN PGSIZE
  omega

theorem copyoutLoop_none (fuel : Nat) (more : src ≠ []) (absent : translate s r dst = none) :
    copyoutLoop r (fuel + 1) dst src s = .ok false s := by
  rw [copyoutLoop, if_neg (by simpa using more), bind_ok (walkaddr_run s r (PGROUNDDOWN dst)),
    translate_rounddown, absent]
  rfl

theorem copyoutLoop_turn (fuel : Nat) {x : Nat} (more : src ≠ []) (found : translate s r dst = some x) :
    copyoutLoop r (fuel + 1) dst src s =
      copyoutLoop r fuel (dst + room dst) (src.drop (room dst)) (s.setPage x (patched s x dst src)) := by
  rw [copyoutLoop, if_neg (by simpa using more), bind_ok (walkaddr_run s r (PGROUNDDOWN dst)),
    translate_rounddown, found]
  simp only [offset_eq, next_page (translate_low found), ← take_eq_take_min, ← drop_eq_drop_min]
  rfl

theorem visits_none (fuel : Nat) (more : src ≠ []) (absent : translate s r dst = none) :
    copyoutVisitsLoop r (fuel + 1) dst src s = .ok (false, []) s := by
  rw [copyoutVisitsLoop, if_neg (by simpa using more), bind_ok (walkaddr_run s r (PGROUNDDOWN dst)),
    translate_rounddown, absent]
  rfl

theorem visits_turn (fuel : Nat) {x : Nat} {out : Bool × List Visit} {s' : Mem} (more : src ≠ [])
    (found : translate s r dst = some x)
    (rest : copyoutVisitsLoop r fuel (dst + room dst) (src.drop (room dst)) (s.setPage x (patched s x dst src)) = .ok out s') :
    copyoutVisitsLoop r (fuel + 1) dst src s = .ok (out.1, ⟨PGROUNDDOWN dst, (leafAt s r (vpn dst)).getD 0,
      decide (patched s x dst src ≠ s.page x)⟩ :: out.2) s' := by
  rw [copyoutVisitsLoop, if_neg (by simpa using more), bind_ok (walkaddr_run s r (PGROUNDDOWN dst)),
    translate_rounddown, found]
  have low := translate_low found
  simp only [offset_eq, next_page low, vpn_rounddown low, ← take_eq_take_min, ← drop_eq_drop_min]
  rw [bind_ok (get_ok s), bind_ok (modify_ok _ s)]
  exact bind_ok rest

end Turn

theorem visits_permitted (r fuel dst : Nat) (src : List Byte) (s : Mem) : ∃ out s',
    copyoutVisitsLoop r fuel dst src s = .ok out s' ∧ copyoutLoop r fuel dst src s = .ok out.1 s' ∧
      (Respectful out ↔ Permitted r fuel dst src s) := by
  induction fuel generalizing dst src s with
  | zero => exact ⟨(true, []), s, rfl, rfl, iff_of_true (respectful_nil true) trivial⟩
  | succ fuel ih =>
    by_cases empty : src = []
    · subst empty
      exact ⟨(true, []), s, rfl, rfl, iff_of_true (respectful_nil true) trivial⟩
    · rw [Permitted, if_neg (by simpa using empty)]
      cases found : translate s r dst with
      | none =>
        exact ⟨(false, []), s, visits_none fuel empty found, copyoutLoop_none fuel empty found,
          iff_of_true (respectful_nil false) trivial⟩
      | some x =>
        obtain ⟨⟨ok, visits⟩, s', traced, ran, same⟩ := ih (dst + room dst) (src.drop (room dst)) (s.setPage x (patched s x dst src))
        refine ⟨_, s', visits_turn fuel empty found traced, (copyoutLoop_turn fuel empty found).trans ran, ?_⟩
        rw [respectful_cons, same]
        have failed : ok = false ↔ ∃ s', copyoutLoop r fuel (dst + room dst) (src.drop (room dst))
            (s.setPage x (patched s x dst src)) = .ok false s' := by
          rw [ran]
          cases ok <;> simp
        simp only [decide_eq_false_iff_not, ne_eq, not_not, failed]

def WritableAt (s : Mem) (r va : Nat) : Prop := ∃ pte, leafAt s r (vpn va) = some pte ∧ Writable pte

section Static
variable {s : Mem} {r : Nat}

/-- In terms of the table: where the user may not write, the bytes are there already, and a range that can be reached
throughout can be written throughout. -/
def Harmless (s : Mem) (r dst : Nat) (src : List Byte) : Prop :=
  (∀ k < src.length, Reached s r dst (dst + k) → ¬WritableAt s r (dst + k) → userByte s r (dst + k) = src[k]?) ∧
    ((∀ k < src.length, translate s r (dst + k) ≠ none) → ∀ k < src.length, WritableAt s r (dst + k))

theorem writableAt_page {va va' : Nat} (low : va < MAXVA) (same : va' / PGSIZE = va / PGSIZE) :
    WritableAt s r va' ↔ WritableAt s r va := by
  have here : vpn va' = vpn va := by
    unfold MAXVA at low
    unfold PGSIZE at same
    rw [vpn_eq_iff va (by omega), page_vpn va' (by omega)]
    exact same
  rw [WritableAt, WritableAt, here]

theorem writableAt_iff {va x : Nat} (found : translate s r va = some x) :
    WritableAt s r va ↔ Writable ((leafAt s r (vpn va)).getD 0) := by
  obtain ⟨_, pte, leaf, _⟩ := translate_leaf found
  simp [WritableAt, leaf]

theorem patched_eq_iff {dst x : Nat} (src : List Byte) (found : translate s r dst = some x) :
    patched s x dst src = s.page x ↔ ∀ k < room dst, k < src.length → userByte s r (dst + k) = src[k]? := by
  have offset := Nat.mod_lt dst (show 0 < PGSIZE by decide)
  have byte : ∀ k < room dst, userByte s r (dst + k) = some (byteAt (s.page x) (dst % PGSIZE + k)) :=
    fun k inside => userByte_of_translate s r dst x k found (by unfold room at inside; omega)
  constructor
  · intro same k inside bound
    rw [byte k inside, ← same, patched, byteAt_write _ _ _ _ (by unfold room at inside; omega), if_pos (by
      rw [length_take]
      omega), Nat.add_sub_cancel_left, getD_eq_getElem?_getD, List.getElem?_take, if_pos inside,
      List.getElem?_eq_getElem bound, getD_some]
  · intro all
    funext i
    have here := byteAt_write (s.page x) (dst % PGSIZE) (src.take (room dst)) i.val i.isLt
    unfold byteAt at here
    rw [dif_pos i.isLt, dif_pos i.isLt] at here
    refine here.trans ?_
    split_ifs with range
    · rw [length_take] at range
      have value := all (i.val - dst % PGSIZE) (by omega) (by omega)
      rw [byte _ (by omega), Nat.add_sub_cancel' range.1, List.getElem?_eq_getElem (by omega)] at value
      rw [getD_eq_getElem?_getD, List.getElem?_take, if_pos (by omega), List.getElem?_eq_getElem (by omega),
        getD_some, ← Option.some.inj value]
      unfold byteAt
      rw [dif_pos i.isLt]
    · rfl

theorem near {dst k : Nat} (inside : k < room dst) : (dst + k) / PGSIZE = dst / PGSIZE := by
  unfold room PGSIZE at *
  omega

theorem harmless_after {s₁ : Mem} {dst : Nat} {src : List Byte} (first : Wrote s r dst (src.take (room dst)) true s₁)
    {x : Nat} (found : translate s r dst = some x) : Harmless s₁ r (dst + room dst) (src.drop (room dst)) ↔
      (∀ k < src.length, room dst ≤ k → Reached s r dst (dst + k) → ¬WritableAt s r (dst + k) →
        userByte s r (dst + k) = src[k]?) ∧
      ((∀ k < src.length, room dst ≤ k → translate s r (dst + k) ≠ none) →
        ∀ k < src.length, room dst ≤ k → WritableAt s r (dst + k)) := by
  have same : ∀ va, translate s₁ r va = translate s r va := fun va => translate_congr first.tables
  have writable : ∀ va, WritableAt s₁ r va ↔ WritableAt s r va := by
    intro va
    rw [WritableAt, WritableAt, leafAt_congr first.tables]
  have byte : ∀ k, room dst ≤ k → userByte s₁ r (dst + k) = userByte s r (dst + k) := by
    intro k beyond
    refine first.kept _ fun range => ?_
    have bound := range.2.1
    rw [length_take] at bound
    omega
  have reached : ∀ va, Reached s₁ r (dst + room dst) va ↔ Reached s r (dst + room dst) va := by
    intro va
    unfold Reached
    simp only [same]
  have earlier : ∀ k, room dst ≤ k → (Reached s r (dst + room dst) (dst + k) ↔ Reached s r dst (dst + k)) := by
    intro k beyond
    refine ⟨fun later a lower upper => ?_, fun all a lower upper => all a (by omega) upper⟩
    by_cases before : a < dst + room dst
    · rw [← Nat.add_sub_cancel' lower, translate_page s r _ dst (near (by omega)), found]
      exact some_ne_none _
    · exact later a (by omega) upper
  have shift : ∀ k, room dst ≤ k → dst + room dst + (k - room dst) = dst + k := fun k beyond => by omega
  unfold Harmless
  simp only [length_drop, same, writable, reached, List.getElem?_drop]
  constructor
  · rintro ⟨held, all⟩
    refine ⟨fun k inside beyond reach closed => ?_, fun open' k inside beyond => ?_⟩
    · have value := held (k - room dst) (by omega)
      rw [shift k beyond, earlier k beyond, byte k beyond, Nat.add_sub_cancel' beyond] at value
      exact value reach closed
    · rw [← shift k beyond]
      refine all (fun j inner => ?_) _ (by omega)
      rw [Nat.add_assoc]
      exact open' (room dst + j) (by omega) (by omega)
  · rintro ⟨held, all⟩
    refine ⟨fun j inner reach closed => ?_, fun open' j inner => ?_⟩
    · rw [Nat.add_assoc] at reach closed ⊢
      rw [byte _ (by omega)]
      exact held (room dst + j) (by omega) (by omega) ((earlier _ (by omega)).mp reach) closed
    · rw [Nat.add_assoc]
      refine all (fun k inside beyond => ?_) _ (by omega) (by omega)
      rw [← shift k beyond]
      exact open' (k - room dst) (by omega)

theorem harmless_turn {dst x : Nat} {src : List Byte} (more : src ≠ []) (found : translate s r dst = some x) :
    Harmless s r dst src ↔
      (WritableAt s r dst ∨ patched s x dst src = s.page x ∧
        ¬∀ k < src.length, room dst ≤ k → translate s r (dst + k) ≠ none) ∧
      (∀ k < src.length, room dst ≤ k → Reached s r dst (dst + k) → ¬WritableAt s r (dst + k) →
        userByte s r (dst + k) = src[k]?) ∧
      ((∀ k < src.length, room dst ≤ k → translate s r (dst + k) ≠ none) →
        ∀ k < src.length, room dst ≤ k → WritableAt s r (dst + k)) := by
  have positive := length_pos_iff.mpr more
  have low := translate_low found
  have here : ∀ k < room dst, translate s r (dst + k) ≠ none := by
    intro k inside
    rw [translate_page s r _ dst (near inside), found]
    exact some_ne_none _
  have writable : ∀ k < room dst, (WritableAt s r (dst + k) ↔ WritableAt s r dst) :=
    fun k inside => writableAt_page low (near inside)
  rw [patched_eq_iff src found]
  constructor
  · rintro ⟨held, all⟩
    refine ⟨?_, fun k inside _ => held k inside, fun later k inside _ => ?_⟩
    · by_cases closed : WritableAt s r dst
      · exact .inl closed
      · refine .inr ⟨fun k inner inside => held k inside (fun a lower upper => ?_) ?_, fun later => closed ?_⟩
        · rw [← Nat.add_sub_cancel' lower]
          exact here _ (by omega)
        · rwa [writable k inner]
        · refine all (fun k inside => ?_) 0 positive
          by_cases inner : k < room dst
          · exact here k inner
          · exact later k inside (by omega)
    · refine all (fun j bound => ?_) k inside
      by_cases inner : j < room dst
      · exact here j inner
      · exact later j bound (by omega)
  · rintro ⟨first, held, all⟩
    refine ⟨fun k inside reach closed => ?_, fun every k inside => ?_⟩
    · by_cases inner : k < room dst
      · rw [writable k inner] at closed
        exact (first.resolve_left closed).1 k inner inside
      · exact held k inside (by omega) reach closed
    · have later : ∀ k < src.length, room dst ≤ k → translate s r (dst + k) ≠ none := fun k inside _ => every k inside
      by_cases inner : k < room dst
      · rw [writable k inner]
        exact first.resolve_right fun failing => failing.2 later
      · exact all later k inside (by omega)

/-- In a table that maps each page once, whether each turn is permitted can be read off before the copy. -/
theorem permitted_iff_harmless (user : UserPages s r) (fuel dst : Nat) (src : List Byte) (enough : src.length ≤ fuel) :
    Permitted r fuel dst src s ↔ Harmless s r dst src := by
  induction fuel generalizing dst src s with
  | zero =>
    have empty : src = [] := length_eq_zero_iff.mp (by omega)
    subst empty
    simp [Permitted, Harmless]
  | succ fuel ih =>
    by_cases empty : src = []
    · subst empty
      simp [Permitted, Harmless]
    · have positive := length_pos_iff.mpr empty
      rw [Permitted, if_neg (by simpa using empty)]
      cases found : translate s r dst with
      | none =>
        refine iff_of_true trivial ⟨fun k _ reached => absurd found (reached dst le_rfl (by omega)), fun all => ?_⟩
        exact absurd found (all 0 positive)
      | some x =>
        have low := translate_low found
        have offset := Nat.mod_lt dst (show 0 < PGSIZE by decide)
        have positive' : 0 < room dst := by unfold room; omega
        have first : Wrote s r dst (src.take (room dst)) true (s.setPage x (patched s x dst src)) :=
          write_page user dst x _ found (by rw [length_take]; unfold room; omega)
        simp only
        have fits : (src.drop (room dst)).length ≤ fuel := by
          rw [length_drop]
          omega
        rw [ih (user.congr first.tables) _ _ fits, harmless_after first found, harmless_turn empty found, writableAt_iff found]
        obtain ⟨ok, s', ran, wrote⟩ := copyoutLoop_wrote (user.congr first.tables) fuel (dst + room dst) _ fits
        have failed : (∃ s', copyoutLoop r fuel (dst + room dst) (src.drop (room dst))
            (s.setPage x (patched s x dst src)) = .ok false s') ↔
            ¬∀ k < src.length, room dst ≤ k → translate s r (dst + k) ≠ none := by
          have complete : ok = true ↔ ∀ k < src.length, room dst ≤ k → translate s r (dst + k) ≠ none := by
            rw [wrote.complete, length_drop]
            simp only [translate_congr first.tables]
            refine ⟨fun all k inside beyond => all _ (by omega) (by omega), fun all va lower upper => ?_⟩
            rw [← Nat.add_sub_cancel' (show dst ≤ va by omega)]
            exact all (va - dst) (by omega) (by omega)
          rw [ran, ← complete]
          cases ok <;> simp
        rw [failed]

end Static

theorem visits_cover {r fuel dst : Nat} {src : List Byte} {s s' : Mem} {visits : List Visit}
    (enough : src.length ≤ fuel) (ran : copyoutVisitsLoop r fuel dst src s = .ok (true, visits) s') :
    ∀ k < src.length, ∃ visit ∈ visits, visit.va = PGROUNDDOWN (dst + k) := by
  induction fuel generalizing dst src s visits with
  | zero => exact fun k inside => absurd inside (by omega)
  | succ fuel ih =>
    intro k inside
    have more : src ≠ [] := length_pos_iff.mp (by omega)
    cases found : translate s r dst with
    | none =>
      rw [visits_none fuel more found] at ran
      cases ran
    | some x =>
      obtain ⟨⟨ok, rest⟩, after, traced, _⟩ :=
        visits_permitted r fuel (dst + room dst) (src.drop (room dst)) (s.setPage x (patched s x dst src))
      rw [visits_turn fuel more found traced] at ran
      cases ran
      by_cases inner : k < room dst
      · refine ⟨_, mem_cons_self, ?_⟩
        rw [PGROUNDDOWN, PGROUNDDOWN, near inner]
      · have positive : 0 < room dst := Nat.sub_pos_of_lt (Nat.mod_lt _ (by decide))
        obtain ⟨visit, member, page⟩ := ih (by rw [length_drop]; omega) traced (k - room dst) (by
          rw [length_drop]
          omega)
        refine ⟨visit, mem_cons_of_mem _ member, ?_⟩
        rw [page, show dst + room dst + (k - room dst) = dst + k by omega]

/-- copyout changes only pages that the user may write, and returns 0 only if it stored into every page of the range and
the user may write all of them. -/
def Respects (s : Mem) (r dst : Nat) (src : List Byte) : Prop :=
  Ends (copyoutVisits r dst src) s fun out _ => Respectful out ∧
    (out.1 = true → ∀ k < src.length, ∃ visit ∈ out.2, visit.va = PGROUNDDOWN (dst + k))

theorem respects_iff_permitted (s : Mem) (r dst : Nat) (src : List Byte) :
    Respects s r dst src ↔ Permitted r src.length dst src s := by
  obtain ⟨out, s', traced, _, same⟩ := visits_permitted r src.length dst src s
  rw [← same]
  constructor
  · rintro ⟨out', _, ran, respectful, _⟩
    rw [copyoutVisits, traced] at ran
    cases ran
    exact respectful
  · intro respectful
    refine ⟨out, s', traced, respectful, fun done => ?_⟩
    obtain ⟨ok, visits⟩ := out
    subst done
    exact visits_cover le_rfl traced

/-- Whatever the page table, copyout respects the permissions exactly if it is permitted page by page; for a table that
maps each page once and none of its own, exactly if the range is harmless. -/
theorem copyout_respects_iff (s : Mem) (r dst : Nat) (src : List Byte) :
    (Respects s r dst src ↔ Permitted r src.length dst src s) ∧
      (UserPages s r → (Respects s r dst src ↔ Harmless s r dst src)) :=
  ⟨respects_iff_permitted s r dst src,
    fun user => (respects_iff_permitted s r dst src).trans (permitted_iff_harmless user src.length dst src le_rfl)⟩

theorem copyout_respects_single : Respects (single 22) 0x87000 0 [1] := by
  let _ := sample
  have pages : RamPages (single 22) 0x87000 := single_pages (by decide) (by decide) (by decide)
  have writable : WritableAt (single 22) 0x87000 0 := ⟨_, rfl, by decide +kernel⟩
  refine ((copyout_respects_iff _ _ _ _).2 pages.userPages).mpr ⟨fun k inside _ closed => ?_, fun _ k inside => ?_⟩
  · obtain rfl : k = 0 := by simpa using inside
    exact absurd writable closed
  · obtain rfl : k = 0 := by simpa using inside
    exact writable

/-- A byte stored into a page that is mapped for reading and executing only. -/
theorem text_overwritten : ¬Respects (single 26) 0x87000 0 [1] ∧
    ∃ s', copyout 0x87000 0 [1] (single 26) = .ok true s' ∧
      userByte (single 26) 0x87000 0 = some 0 ∧ userByte s' 0x87000 0 = some 1 := by
  let _ := sample
  have pages : RamPages (single 26) 0x87000 := single_pages (by decide) (by decide) (by decide)
  have here : translate (single 26) 0x87000 0 = some 0x87003 := by decide +kernel
  have closed : ¬WritableAt (single 26) 0x87000 0 := by
    rw [writableAt_iff here]
    decide +kernel
  constructor
  · rw [respects_iff_permitted, permitted_iff_harmless pages.userPages _ _ _ le_rfl]
    rintro ⟨_, all⟩
    refine closed (all (fun k inside => ?_) 0 (by decide))
    obtain rfl : k = 0 := by simpa using inside
    rw [here]
    exact some_ne_none _
  · obtain ⟨ok, s', ran, wrote⟩ := copyout_wrote pages.userPages 0 [1]
    have reached : Reached (single 26) 0x87000 0 0 := by
      intro a _ upper
      obtain rfl : a = 0 := by omega
      rw [here]
      exact some_ne_none _
    have done : ok = true := wrote.complete.mpr fun va _ upper => reached va (by omega) (by simpa using upper)
    subst done
    exact ⟨s', ran, by decide +kernel, wrote.written 0 le_rfl (by decide) reached⟩

end Xv6.Vm.Permissions
