import Xv6.Vm.Free

/-! The page table as a map: walk looks an entry up, mappages and uvmunmap change the entries of their pages and no
others, and freewalk gives the tables back. -/

namespace Xv6.Vm.Map
open Lib.Ownership Lib.Exec Memory Pagetable Entry Space Writes Moves Walk Unmap Free List Option

def lookup (s : Mem) (r va : Nat) : Option Nat := leafAt s r (vpn va)

def pa2pte (pa : BitVec 64) : BitVec 64 := (pa >>> 12) <<< 10
def pte2pa (pte : BitVec 64) : BitVec 64 := (pte >>> 10) <<< 12

theorem pte2pa_pa2pte (pa : BitVec 64) (aligned : pa.toNat % PGSIZE = 0) (bound : pa.toNat < 2 ^ 56) :
    pte2pa (pa2pte pa) = pa := by
  apply BitVec.eq_of_toNat_eq
  simp only [pte2pa, pa2pte, BitVec.toNat_shiftLeft, BitVec.toNat_ushiftRight, Nat.shiftRight_eq_div_pow,
    Nat.shiftLeft_eq]
  unfold PGSIZE at aligned
  omega

section
variable [Layout] {s s' : Mem} {r : Nat}

/-- A page table with the pages that kalloc has for it: no page is a table in two places, and no free page is one. -/
structure Tree (s : Mem) (r : Nat) : Prop where
  distinct : Distinct s r
  branches : Branches s r
  nodup : s.freelist.Nodup
  free : ∀ x ∈ s.freelist, ∀ p, tableAt s r p ≠ some x
  ram : ∀ x, x ∈ s.freelist ∨ (∃ p, tableAt s r p = some x) → InRam x

structure Grows (s : Mem) (r : Nat) (s' : Mem) : Prop where
  tree : Tree s' r
  leaves : ∀ v, leafAt s' r v = leafAt s r v
  tables : ∀ p x, tableAt s r p = some x → tableAt s' r p = some x

theorem Grows.refl (tree : Tree s r) : Grows s r s := ⟨tree, fun _ => rfl, fun _ _ found => found⟩

theorem Grows.trans {s'' : Mem} (first : Grows s r s') (second : Grows s' r s'') : Grows s r s'' where
  tree := second.tree
  leaves v := (second.leaves v).trans (first.leaves v)
  tables p x found := second.tables p x (first.tables p x found)

theorem Tree.link (tree : Tree s r) {x : Nat} {rest : List Nat} (taken : s.freelist = x :: rest) {p : Path}
    (upper : Upper p) (i : Fin 512) {t : Nat} (here : tableAt s r p = some t) (invalid : ¬Valid (s.pte t i)) :
    Grows s r (((⟨Function.update s.page x (fun _ => 5), rest⟩ : Mem).setPage x (fun _ => 0)).setPte t i
      (PA2PTE x ||| PTE_V)) ∧
      tableAt (((⟨Function.update s.page x (fun _ => 5), rest⟩ : Mem).setPage x (fun _ => 0)).setPte t i
        (PA2PTE x ||| PTE_V)) r (below p i) = some x := by
  have member : x ∈ s.freelist := by rw [taken]; exact mem_cons_self
  have fresh := tree.free x member
  set s₁ : Mem := (⟨Function.update s.page x (fun _ => 5), rest⟩ : Mem).setPage x (fun _ => 0)
  have others : ∀ y, y ≠ x → s₁.page y = s.page y := by
    intro y different
    rw [page_setPage_other different]
    exact Function.update_of_ne different _ _
  have same : SameTables s s₁ r := by
    intro q y found
    exact others y fun equal => fresh q (equal ▸ found)
  have tables := tableAt_congr same
  have link : Link s₁ r p i t x := by
    refine ⟨fun a b y first second => ?_, upper, ?_, ?_, fun q found => ?_, pte_zeroPage _ x, ?_⟩
    · rw [tables] at first second
      exact tree.distinct a b y first second
    · rw [tables, here]
    · rw [pte_congr (same p t here)]
      exact invalid
    · rw [tables] at found
      exact fresh q found
    · exact lt_trans (inRam_bound x (tree.ram x (.inl member))) (by decide)
  have branches : Branches s₁ r := by
    refine ⟨fun j => ?_, fun a table found j => ?_⟩
    · rw [pte_congr (same .root r rfl)]
      exact tree.branches.top j
    · rw [tables] at found
      rw [pte_congr (same _ table found)]
      exact tree.branches.mid a table found j
  have split : x ∉ rest ∧ rest.Nodup := by
    have all := tree.nodup
    rw [taken] at all
    exact nodup_cons.mp all
  have position : ∀ q y, Space.tableAt (s₁.setPte t i (PA2PTE x ||| PTE_V)) r q = some y →
      (q = below p i ∧ y = x) ∨ (q ≠ below p i ∧ Space.tableAt s r q = some y) := by
    intro q y found
    rw [link.tableAt, tables] at found
    split_ifs at found with new
    · exact .inl ⟨new, (Option.some.inj found).symm⟩
    · exact .inr ⟨new, found⟩
  refine ⟨⟨⟨fun a b y first second => ?_, link.rewrite.branches branches, split.2, fun y inRest q found => ?_, fun y known => ?_⟩,
    fun v => ?_, fun q y found => ?_⟩, ?_⟩
  · rcases position a y first with ⟨rfl, rfl⟩ | ⟨_, old⟩ <;> rcases position b y second with ⟨rfl, same'⟩ | ⟨_, old'⟩
    · rfl
    · exact absurd old' (fresh b)
    · exact absurd (same' ▸ old) (fresh a)
    · exact tree.distinct a b y old old'
  · rcases position q y found with ⟨_, rfl⟩ | ⟨_, old⟩
    · exact split.1 inRest
    · exact tree.free y (by rw [taken]; exact mem_cons_of_mem x inRest) q old
  · rcases known with inRest | ⟨q, found⟩
    · exact tree.ram y (.inl (by rw [taken]; exact mem_cons_of_mem x inRest))
    · rcases position q y found with ⟨_, rfl⟩ | ⟨_, old⟩
      · exact tree.ram y (.inl member)
      · exact tree.ram y (.inr ⟨q, old⟩)
  · rw [link.rewrite.leafAt, leafAt_congr same]
  · rw [link.tableAt, tables, found]
    split_ifs with new
    · rw [new, tableAt_below p upper i t here] at found
      unfold child at found
      rw [if_neg invalid] at found
      cases found
    · rfl
  · rw [link.tableAt, if_pos rfl]

theorem walkLevel_grows (tree : Tree s r) (p : Path) (upper : Upper p) (i : Fin 512) (t : Nat)
    (here : tableAt s r p = some t) :
    Ends (walkLevel t i true) s (fun result s' =>
      Grows s r s' ∧ ∀ x, result = some x → tableAt s' r (below p i) = some x) := by
  unfold walkLevel
  apply Ends.after (getPte_run s t i)
  by_cases valid : Valid (s.pte t i)
  · rw [if_pos valid]
    refine Ends.pure ⟨Grows.refl tree, fun x same => ?_⟩
    rw [tableAt_below p upper i t here, ← same]
    unfold child
    rw [if_pos valid]
  · rw [if_neg valid, if_pos rfl]
    cases free : s.freelist with
    | nil =>
      apply Ends.after (kalloc_none s free)
      exact Ends.pure ⟨Grows.refl tree, fun x same => nomatch same⟩
    | cons x rest =>
      apply Ends.after (kalloc_some s x rest free)
      obtain ⟨grows, found⟩ := tree.link free upper i here valid
      refine ⟨some x, _, rfl, grows, fun y same => ?_⟩
      rw [← Option.some.inj same]
      exact found

theorem walk_grows (tree : Tree s r) (va : Nat) (bound : va < MAXVA) :
    Ends (walk r va true) s (fun result s' => Grows s r s' ∧ ∀ found, result = some found →
      found.2 = (vpn va).low ∧ tableAt s' r (.low (vpn va).top (vpn va).mid) = some found.1) := by
  refine walk_of_levels (fun s => Tree s r) (fun s s' => Grows s r s') Grows.trans (fun s p upper i t tree here => ?_)
    va bound tree
  apply Ends.weaken (walkLevel_grows tree p upper i t here)
  exact fun result s' ⟨grows, found⟩ => ⟨⟨grows.tree, grows⟩, found⟩

theorem Tree.write (tree : Tree s r) (v : Vpn) (t pte : Nat) (here : tableAt s r (.low v.top v.mid) = some t) :
    Tree (s.setPte t v.low pte) r := by
  have tables := tableAt_setLow tree.distinct v.top v.mid v.low t pte here
  refine ⟨fun p q x first second => ?_, branches_setLow tree.distinct tree.branches v t pte here, tree.nodup,
    fun x free p => ?_, fun x known => tree.ram x ?_⟩
  · rw [tables] at first second
    exact tree.distinct p q x first second
  · rw [tables]
    exact tree.free x free p
  · simpa only [tables, freelist_setPte] using known

/-- What mappages leaves: outside the pages from lo to lo + more every entry as it was, and inside, if it could map
them all, the entries it was asked for. -/
structure Maps (s : Mem) (r lo more x perm : Nat) (ok : Bool) (s' : Mem) : Prop where
  tree : Tree s' r
  outside : ∀ w : Vpn, ¬(lo ≤ w.page ∧ w.page ≤ lo + more) → leafAt s' r w = leafAt s r w
  inside : ok = true → ∀ w : Vpn, lo ≤ w.page → w.page ≤ lo + more →
    leafAt s' r w = some (PA2PTE (x + (w.page - lo)) ||| perm ||| PTE_V)

theorem mapOne (tree : Tree s r) (perm : Nat) (small : perm < 2 ^ 10) (lo x : Nat) (bound : lo < 2 ^ 26)
    (page : x < 2 ^ 52) (absent : ∀ v : Vpn, v.page = lo → leafAt s r v = none) {A : Type} (next : VM A) (failed : A)
    (post : A → Mem → Prop) (full : ∀ s', Grows s r s' → post failed s')
    (rest : ∀ s', Maps s r lo 0 x perm true s' → Ends next s' post) :
    Ends (do
      match ← walk r (lo * PGSIZE) true with
      | none => pure failed
      | some (table, i) => do
          let old ← getPte table i
          if Valid old then throw "mappages: remap"
          setPte table i (PA2PTE x ||| perm ||| PTE_V)
          next) s post := by
  have number := page_of_vpn lo (by omega)
  have reads := reads_entry x perm page small
  refine mapTurn_of_walk (lo * PGSIZE) _ (fun _ s' => Grows s r s') (fun s' grows => (grows.leaves _).trans (absent _ number))
    (walk_grows tree _ (by unfold PGSIZE MAXVA; omega)) next failed post full (fun s' t grows here => rest _ ?_)
  have leaves := leafAt_setLow grows.tree.distinct (vpn (lo * PGSIZE)) t _ reads.bound here
  refine ⟨grows.tree.write _ t _ here, fun w other => ?_, fun _ w lower upper => ?_⟩
  · have different : w ≠ vpn (lo * PGSIZE) := by
      rintro rfl
      omega
    rw [leaves, if_neg different, grows.leaves]
  · have same : w = vpn (lo * PGSIZE) := (vpn_eq_range lo (by omega) w).mpr ⟨lower, by omega⟩
    rw [leaves, if_pos same, if_pos reads.valid, same, number, Nat.sub_self, Nat.add_zero]

theorem mappagesLoop_maps (tree : Tree s r) (perm : Nat) (small : perm < 2 ^ 10) (more lo x : Nat)
    (bound : lo + more < 2 ^ 26) (page : x + more < 2 ^ 52)
    (absent : ∀ v : Vpn, lo ≤ v.page → v.page ≤ lo + more → leafAt s r v = none) :
    Ends (mappagesLoop r perm more (lo * PGSIZE) x) s (fun ok s' => Maps s r lo more x perm ok s') := by
  induction more generalizing s lo x with
  | zero =>
    unfold mappagesLoop
    refine mapOne tree perm small lo x (by omega) (by omega) (fun v same => absent v (by omega) (by omega)) (pure true) false
      _ (fun s' grows => ⟨grows.tree, fun w _ => grows.leaves w, by rintro ⟨⟩⟩) (fun s' maps => Ends.pure maps)
  | succ more ih =>
    unfold mappagesLoop
    refine mapOne tree perm small lo x (by omega) (by omega) (fun v same => absent v (by omega) (by omega)) _ false
      _ (fun s' grows => ⟨grows.tree, fun w _ => grows.leaves w, by rintro ⟨⟩⟩) (fun s₁ first => ?_)
    rw [show lo * PGSIZE + PGSIZE = (lo + 1) * PGSIZE by ring]
    apply Ends.weaken (ih first.tree (lo + 1) (x + 1) (by omega) (by omega) (fun v low high => ?_))
    · intro ok s₂ rest
      refine ⟨rest.tree, fun w other => ?_, fun done w lower upper => ?_⟩
      · rw [rest.outside w (by omega), first.outside w (by omega)]
      · by_cases here : w.page = lo
        · rw [rest.outside w (by omega), first.inside rfl w lower (by omega)]
        · rw [rest.inside done w (by omega) (by omega), show x + 1 + (w.page - (lo + 1)) = x + (w.page - lo) by omega]
    · rw [first.outside v (by omega)]
      exact absent v (by omega) (by omega)

omit [Layout] in
theorem mappages_loop (r va size x perm : Nat) (nonempty : 0 < size) :
    mappages r va size x perm =
      mappagesLoop r perm ((va + size - 1) / PGSIZE - va / PGSIZE) (va / PGSIZE * PGSIZE) x := by
  unfold mappages PGROUNDDOWN
  rw [if_neg (by omega), ← Nat.sub_mul, Nat.mul_div_cancel _ (by decide)]

theorem Tree.freed (tree : Tree s r) (x : Nat) (ram : InRam x) (used : x ∉ s.freelist)
    (other : ∀ p, tableAt s r p ≠ some x) :
    Tree (s.freed x) r ∧ (∀ p, tableAt (s.freed x) r p = tableAt s r p) ∧ ∀ v, leafAt (s.freed x) r v = leafAt s r v := by
  have same : SameTables s (s.freed x) r := sameTables_setPage other
  have tables := tableAt_congr same
  refine ⟨⟨fun p q y first second => ?_, ⟨fun i => ?_, fun i table found j => ?_⟩, ?_, fun y free p => ?_, fun y known => ?_⟩,
    tables, leafAt_congr same⟩
  · rw [tables] at first second
    exact tree.distinct p q y first second
  · rw [pte_congr (same .root r rfl)]
    exact tree.branches.top i
  · rw [tables] at found
    rw [pte_congr (same _ table found)]
    exact tree.branches.mid i table found j
  · exact nodup_cons.mpr ⟨used, tree.nodup⟩
  · rw [tables]
    rcases mem_cons.mp free with rfl | old
    · exact other p
    · exact tree.free y old p
  · rcases known with free | ⟨p, found⟩
    · rcases mem_cons.mp free with rfl | old
      · exact ram
      · exact tree.ram y (.inl old)
    · rw [tables] at found
      exact tree.ram y (.inr ⟨p, found⟩)

/-- The pages that uvmunmap may free: none is free already, a table, or mapped twice. -/
structure Releasable (s : Mem) (r lo npages : Nat) : Prop where
  ram : ∀ (w : Vpn) pte, lo ≤ w.page → w.page < lo + npages → leafAt s r w = some pte → InRam (PTE2PA pte)
  used : ∀ (w : Vpn) pte, lo ≤ w.page → w.page < lo + npages → leafAt s r w = some pte → PTE2PA pte ∉ s.freelist
  other : ∀ (w : Vpn) pte, lo ≤ w.page → w.page < lo + npages → leafAt s r w = some pte →
    ∀ p, tableAt s r p ≠ some (PTE2PA pte)
  once : ∀ (v w : Vpn) first second, lo ≤ v.page → v.page < lo + npages → lo ≤ w.page → w.page < lo + npages →
    leafAt s r v = some first → leafAt s r w = some second → PTE2PA first = PTE2PA second → v = w

/-- The entries of npages pages from lo on are gone, and nothing else has changed. -/
structure Unmaps (s : Mem) (r lo npages : Nat) (s' : Mem) : Prop where
  tree : Tree s' r
  tables : ∀ p, tableAt s' r p = tableAt s r p
  leaves : ∀ w : Vpn, leafAt s' r w = if lo ≤ w.page ∧ w.page < lo + npages then none else leafAt s r w

theorem unmapOne (tree : Tree s r) (doFree : Bool) (lo npages pte : Nat) (bound : lo < 2 ^ 26)
    (found : leafAt s r (vpn (lo * PGSIZE)) = some pte) (flags : PTE_FLAGS pte ≠ PTE_V)
    (releasable : doFree = true → InRam (PTE2PA pte) ∧ PTE2PA pte ∉ s.freelist ∧ ∀ p, tableAt s r p ≠ some (PTE2PA pte)) :
    ∃ s₁, uvmunmapLoop r doFree (npages + 1) (lo * PGSIZE) s = uvmunmapLoop r doFree npages ((lo + 1) * PGSIZE) s₁ ∧
      Unmaps s r lo 1 s₁ ∧ s₁.freelist = if doFree then PTE2PA pte :: s.freelist else s.freelist := by
  obtain ⟨t, here, valid, entry⟩ := leafAt_table found
  have walked := walk_reads s r (lo * PGSIZE) (by unfold PGSIZE MAXVA; omega)
  rw [here] at walked
  have next : lo * PGSIZE + PGSIZE = (lo + 1) * PGSIZE := by ring
  have turn : uvmunmapLoop r doFree (npages + 1) (lo * PGSIZE) s = (do
      if doFree then kfree (PTE2PA pte)
      setPte t (vpn (lo * PGSIZE)).low 0
      uvmunmapLoop r doFree npages ((lo + 1) * PGSIZE)) s := by
    rw [uvmunmapLoop, bind_ok walked]
    simp only [map_some]
    rw [bind_ok (getPte_run s t (vpn (lo * PGSIZE)).low), entry]
    rw [entry] at valid
    rw [if_neg (not_not.mpr valid), if_neg flags, next]
  have written := tree.write (vpn (lo * PGSIZE)) t 0 here
  have tables := tableAt_setLow tree.distinct (vpn (lo * PGSIZE)).top (vpn (lo * PGSIZE)).mid (vpn (lo * PGSIZE)).low t 0 here
  have leaves : ∀ w : Vpn, leafAt (s.setPte t (vpn (lo * PGSIZE)).low 0) r w =
      if lo ≤ w.page ∧ w.page < lo + 1 then none else leafAt s r w := by
    intro w
    rw [leafAt_setLow tree.distinct _ t 0 (by decide) here, if_neg not_valid_zero]
    simp only [vpn_eq_range lo (by omega) w]
  cases doFree with
  | false => exact ⟨s.setPte t (vpn (lo * PGSIZE)).low 0, turn, ⟨written, tables, leaves⟩, rfl⟩
  | true =>
    obtain ⟨ram, used, other⟩ := releasable rfl
    have apart : t ≠ PTE2PA pte := fun same => other _ (same ▸ here)
    obtain ⟨freed, tables', leaves'⟩ := written.freed (PTE2PA pte) ram used (fun p => by rw [tables]; exact other p)
    refine ⟨(s.setPte t (vpn (lo * PGSIZE)).low 0).freed (PTE2PA pte), ?_,
      ⟨freed, fun p => (tables' p).trans (tables p), fun w => (leaves' w).trans (leaves w)⟩, rfl⟩
    have freedFirst : kfree (PTE2PA pte) s = .ok () (s.freed (PTE2PA pte)) := by
      simp only [kfree, if_pos ram]
      rfl
    rw [turn, if_pos rfl, ← freed_setPte s _ t _ _ apart]
    exact (bind_ok freedFirst).trans (bind_ok (setPte_run _ t _ 0))

theorem uvmunmapLoop_unmaps (tree : Tree s r) (doFree : Bool) (npages lo : Nat) (bound : lo + npages ≤ 2 ^ 26)
    (mapped : ∀ w : Vpn, lo ≤ w.page → w.page < lo + npages → ∃ pte, leafAt s r w = some pte ∧ PTE_FLAGS pte ≠ PTE_V)
    (releasable : doFree = true → Releasable s r lo npages) :
    Ends (uvmunmapLoop r doFree npages (lo * PGSIZE)) s (fun _ s' => Unmaps s r lo npages s') := by
  induction npages generalizing lo s with
  | zero => exact Ends.pure ⟨tree, fun _ => rfl, fun w => by rw [if_neg (by omega)]⟩
  | succ npages ih =>
    have number := page_of_vpn lo (by omega)
    obtain ⟨pte, found, flags⟩ := mapped (vpn (lo * PGSIZE)) (by omega) (by omega)
    obtain ⟨s₁, turn, first, freelist⟩ := unmapOne tree doFree lo npages pte (by omega) found flags fun free =>
      have all := releasable free
      ⟨all.ram _ pte (by omega) (by omega) found, all.used _ pte (by omega) (by omega) found,
        all.other _ pte (by omega) (by omega) found⟩
    have old : ∀ w : Vpn, lo + 1 ≤ w.page → leafAt s₁ r w = leafAt s r w := fun w above => by
      rw [first.leaves, if_neg (by omega)]
    have later : Ends (uvmunmapLoop r doFree npages ((lo + 1) * PGSIZE)) s₁ (fun _ s' => Unmaps s₁ r (lo + 1) npages s') := by
      refine ih first.tree (lo + 1) (by omega) (fun w lower upper => ?_) fun free => ?_
      · rw [old w lower]
        exact mapped w (by omega) (by omega)
      have all := releasable free
      refine ⟨fun w pte lower upper entry => ?_, fun w other lower upper entry => ?_, fun w pte lower upper entry p => ?_,
        fun v w one two lower upper lower' upper' entry entry' same => ?_⟩
      · rw [old w lower] at entry
        exact all.ram w pte (by omega) (by omega) entry
      · rw [old w lower] at entry
        rw [freelist, free, if_pos rfl, mem_cons, not_or]
        refine ⟨fun same => ?_, all.used w other (by omega) (by omega) entry⟩
        have equal := all.once w (vpn (lo * PGSIZE)) other pte (by omega) (by omega) (by omega) (by omega) entry found same
        rw [equal] at lower
        omega
      · rw [old w lower] at entry
        rw [first.tables]
        exact all.other w pte (by omega) (by omega) entry p
      · rw [old v lower] at entry
        rw [old w lower'] at entry'
        exact all.once v w one two (by omega) (by omega) (by omega) (by omega) entry entry' same

    obtain ⟨result, s', ran, rest⟩ := later
    refine ⟨result, s', turn.trans ran, rest.tree, fun p => (rest.tables p).trans (first.tables p), fun w => ?_⟩
    rw [rest.leaves, first.leaves]
    split_ifs <;> first | rfl | omega

omit [Layout] in
theorem lookup_slot (t : Nat) {va : Nat} (here : tableAt s r (.low (vpn va).top (vpn va).mid) = some t) :
    lookup s r va = if Valid (s.pte t (vpn va).low) then some (s.pte t (vpn va).low) else none := by
  rw [lookup, leafAt, here, bind_some]

omit [Layout] in
theorem walk_lookup (s : Mem) (r va : Nat) (bound : va < MAXVA) :
    ∃ slot, walk r va false s = .ok slot s ∧
      lookup s r va = slot.bind fun e => if Valid (s.pte e.1 e.2) then some (s.pte e.1 e.2) else none := by
  refine ⟨_, walk_reads s r va bound, ?_⟩
  rw [lookup, leafAt]
  cases tableAt s r (.low (vpn va).top (vpn va).mid) <;> rfl

omit [Layout] in
theorem walkaddr_lookup (s : Mem) (r va : Nat) (bound : va < MAXVA) :
    walkaddr r va s = .ok ((lookup s r va).bind fun pte =>
      if User pte ∧ PTE2PA pte ≠ 0 then some (PTE2PA pte) else none) s := by
  obtain ⟨slot, ran, found⟩ := walk_lookup s r va bound
  unfold walkaddr
  rw [if_neg (Nat.not_le.mpr bound), bind_ok ran, found]
  cases slot with
  | none => rfl
  | some e =>
    simp only [bind_some]
    rw [bind_ok (getPte_run s e.1 e.2)]
    by_cases valid : Valid (s.pte e.1 e.2)
    · by_cases allowed : User (s.pte e.1 e.2) ∧ PTE2PA (s.pte e.1 e.2) ≠ 0
      · rw [if_pos ⟨valid, allowed⟩, if_pos valid, bind_some, if_pos allowed]
        rfl
      · rw [if_neg fun all => allowed all.2, if_pos valid, bind_some, if_neg allowed]
        rfl
    · rw [if_neg fun all => valid all.1, if_neg valid]
      rfl

/-- The page of a touches the size bytes from va on. -/
def Touches (va size a : Nat) : Prop := va / PGSIZE ≤ a / PGSIZE ∧ a / PGSIZE ≤ (va + size - 1) / PGSIZE

theorem mappages_lookup (tree : Tree s r) (va size x perm : Nat) (nonempty : 0 < size) (bound : va + size ≤ MAXVA)
    (small : perm < 2 ^ 10) (pages : x + ((va + size - 1) / PGSIZE - va / PGSIZE) < 2 ^ 52)
    (absent : ∀ a < MAXVA, Touches va size a → lookup s r a = none) :
    Ends (mappages r va size x perm) s (fun ok s' => Tree s' r ∧
      (∀ a < MAXVA, ¬Touches va size a → lookup s' r a = lookup s r a) ∧
      (ok = true → ∀ a < MAXVA, Touches va size a → ∃ pte, lookup s' r a = some pte ∧
        PTE2PA pte = x + (a / PGSIZE - va / PGSIZE) ∧ PTE_FLAGS pte = perm ||| PTE_V)) := by
  have limit : ∀ a, a < MAXVA → (vpn a).page = a / PGSIZE := fun a low => page_vpn a (by unfold MAXVA at low; omega)
  have ordered : va / PGSIZE ≤ (va + size - 1) / PGSIZE := Nat.div_le_div_right (by omega)
  have top : (va + size - 1) / PGSIZE < 2 ^ 26 := by
    unfold MAXVA at bound
    unfold PGSIZE
    omega
  rw [mappages_loop r va size x perm nonempty]
  apply Ends.weaken (mappagesLoop_maps tree perm small ((va + size - 1) / PGSIZE - va / PGSIZE) (va / PGSIZE) x
    (by omega) pages fun v lower upper => ?_)
  · intro ok s' maps
    refine ⟨maps.tree, fun a low other => maps.outside _ ?_, fun done a low inside => ?_⟩
    · rw [limit a low]
      unfold Touches at other
      omega
    · obtain ⟨lower, upper⟩ := inside
      have entry := maps.inside done (vpn a) (by rw [limit a low]; exact lower) (by rw [limit a low]; omega)
      rw [limit a low] at entry
      have reads := reads_entry (x + (a / PGSIZE - va / PGSIZE)) perm (by omega) small
      exact ⟨_, entry, reads.page, reads.flags⟩
  · have low : v.page * PGSIZE < MAXVA := by
      unfold PGSIZE MAXVA
      omega
    have same : v = vpn (v.page * PGSIZE) := (vpn_eq_range v.page (by omega) v).mpr ⟨le_rfl, by omega⟩
    rw [same]
    refine absent (v.page * PGSIZE) low ?_
    rw [Touches, Nat.mul_div_cancel _ (by decide)]
    exact ⟨lower, by omega⟩

theorem uvmunmap_lookup (tree : Tree s r) (doFree : Bool) (lo npages : Nat) (bound : lo + npages ≤ 2 ^ 26)
    (mapped : ∀ k < npages, ∃ pte, lookup s r ((lo + k) * PGSIZE) = some pte ∧ PTE_FLAGS pte ≠ PTE_V)
    (releasable : doFree = true → Releasable s r lo npages) :
    Ends (uvmunmap r (lo * PGSIZE) npages doFree) s (fun _ s' => Tree s' r ∧ ∀ a < MAXVA,
      lookup s' r a = if lo ≤ a / PGSIZE ∧ a / PGSIZE < lo + npages then none else lookup s r a) := by
  unfold uvmunmap
  rw [if_neg (by rw [Nat.mul_mod_left]; exact fun h => h rfl)]
  apply Ends.weaken (uvmunmapLoop_unmaps tree doFree npages lo bound (fun w lower upper => ?_) releasable)
  · intro _ s' unmaps
    refine ⟨unmaps.tree, fun a low => ?_⟩
    rw [lookup, unmaps.leaves, page_vpn a (by unfold MAXVA at low; omega)]
    rfl
  · obtain ⟨pte, found, flags⟩ := mapped (w.page - lo) (by omega)
    rw [show lo + (w.page - lo) = w.page by omega] at found
    have same : w = vpn (w.page * PGSIZE) := (vpn_eq_range w.page (by omega) w).mpr ⟨le_rfl, by omega⟩
    rw [same]
    exact ⟨pte, found, flags⟩

theorem freewalk_frees (tree : Tree s r) (bare : ∀ v, leafAt s r v = none) :
    Ends (freewalk 3 r) s (fun _ s' => s'.freelist.Nodup ∧
      ∀ x, x ∈ s'.freelist ↔ x ∈ s.freelist ∨ ∃ p, tableAt s r p = some x) := by
  have known : ∀ x, Owned (Owns (fun _ => False) s (some r) []) x ↔ x ∈ s.freelist ∨ ∃ p, tableAt s r p = some x := by
    intro x
    constructor
    · rintro ⟨role, own⟩
      cases own with
      | free _ member => exact .inl member
      | hand _ member => cases member
      | table r' _ p here found =>
        obtain rfl := Option.some.inj here
        exact .inr ⟨p, found⟩
      | leaf r' pte v here inside found => exact inside.elim
    · rintro (member | ⟨p, found⟩)
      · exact ⟨.free, Owns.free x member⟩
      · exact ⟨.table p, Owns.table r x p rfl found⟩
  have before : Local (fun _ => False) s (some r) [] := by
    refine ⟨?_, ?_, ⟨tree.nodup, nodup_nil⟩, fun x own => tree.ram x ((known x).mp own)⟩
    · intro r' here
      obtain rfl := Option.some.inj here
      refine ⟨tree.branches.top, tree.branches.mid, fun v pte found => ?_⟩
      rw [bare v] at found
      cases found
    · intro role role' x own own'
      have cases' : ∀ role, Owns (fun _ => False) s (some r) [] role x →
          (role = .free ∧ x ∈ s.freelist) ∨ ∃ p, role = .table p ∧ tableAt s r p = some x := by
        intro role own
        cases own with
        | free _ member => exact .inl ⟨rfl, member⟩
        | hand _ member => cases member
        | table r' _ p here found =>
          obtain rfl := Option.some.inj here
          exact .inr ⟨p, rfl, found⟩
        | leaf r' pte v here inside found => exact inside.elim
      rcases cases' role own with ⟨rfl, free⟩ | ⟨p, rfl, found⟩ <;>
        rcases cases' role' own' with ⟨rfl, free'⟩ | ⟨p', rfl, found'⟩
      · rfl
      · exact absurd found' (tree.free x free p')
      · exact absurd found (tree.free x free' p)
      · rw [tree.distinct p p' x found found']
  apply Ends.weaken (freewalk_ends before bare)
  rintro _ s' ⟨safe, step, _⟩
  refine ⟨safe.nodup.1, fun x => ?_⟩
  rw [← known, ← step.owned]
  constructor
  · exact fun member => ⟨.free, Owns.free x member⟩
  · rintro ⟨role, own⟩
    cases own with
    | free _ member => exact member
    | hand _ member => cases member
    | table r' _ p here found | leaf r' pte v here inside found => cases here

/-- The page table of a tree is a map from pages to entries: walk and walkaddr look an entry up, mappages enters the
entries of its range and uvmunmap removes those of its pages, each without touching another; freewalk of a tree
without entries puts every table on the free list once; and PTE2PA undoes PA2PTE. -/
theorem page_table_is_map (s : Mem) (r : Nat) (tree : Tree s r) :
    (∀ va < MAXVA, (∃ slot, walk r va false s = .ok slot s ∧
        lookup s r va = slot.bind fun e => if Valid (s.pte e.1 e.2) then some (s.pte e.1 e.2) else none) ∧
      Ends (walk r va true) s (fun slot s' => (∀ a, lookup s' r a = lookup s r a) ∧ ∀ e, slot = some e →
        lookup s' r va = if Valid (s'.pte e.1 e.2) then some (s'.pte e.1 e.2) else none) ∧
      walkaddr r va s = .ok ((lookup s r va).bind fun pte =>
        if User pte ∧ PTE2PA pte ≠ 0 then some (PTE2PA pte) else none) s) ∧
    (∀ va size x perm, 0 < size → va + size ≤ MAXVA → perm < 2 ^ 10 →
      x + ((va + size - 1) / PGSIZE - va / PGSIZE) < 2 ^ 52 → (∀ a < MAXVA, Touches va size a → lookup s r a = none) →
      Ends (mappages r va size x perm) s (fun ok s' => Tree s' r ∧
        (∀ a < MAXVA, ¬Touches va size a → lookup s' r a = lookup s r a) ∧
        (ok = true → ∀ a < MAXVA, Touches va size a → ∃ pte, lookup s' r a = some pte ∧
          PTE2PA pte = x + (a / PGSIZE - va / PGSIZE) ∧ PTE_FLAGS pte = perm ||| PTE_V))) ∧
    (∀ doFree lo npages, lo + npages ≤ 2 ^ 26 →
      (∀ k < npages, ∃ pte, lookup s r ((lo + k) * PGSIZE) = some pte ∧ PTE_FLAGS pte ≠ PTE_V) →
      (doFree = true → Releasable s r lo npages) →
      Ends (uvmunmap r (lo * PGSIZE) npages doFree) s (fun _ s' => Tree s' r ∧ ∀ a < MAXVA,
        lookup s' r a = if lo ≤ a / PGSIZE ∧ a / PGSIZE < lo + npages then none else lookup s r a)) ∧
    ((∀ v, leafAt s r v = none) → Ends (freewalk 3 r) s (fun _ s' => s'.freelist.Nodup ∧
      ∀ x, x ∈ s'.freelist ↔ x ∈ s.freelist ∨ ∃ p, tableAt s r p = some x)) ∧
    ∀ pa : BitVec 64, pa.toNat % PGSIZE = 0 → pa.toNat < 2 ^ 56 → pte2pa (pa2pte pa) = pa := by
  refine ⟨fun va bound => ⟨walk_lookup s r va bound, ?_, walkaddr_lookup s r va bound⟩,
    fun va size x perm => mappages_lookup tree va size x perm, fun doFree lo npages => uvmunmap_lookup tree doFree lo npages,
    freewalk_frees tree, pte2pa_pa2pte⟩
  apply Ends.weaken (walk_grows tree va bound)
  rintro slot s' ⟨grows, found⟩
  refine ⟨fun a => grows.leaves (vpn a), fun e same => ?_⟩
  obtain ⟨index, here⟩ := found e same
  rw [index]
  exact lookup_slot e.1 here

end

def blank : Mem := ⟨fun _ _ => 0, [0x80023, 0x80024]⟩

theorem blank_empty (k : Fin 512) : ¬Valid (blank.pte 0x80022 k) := by
  have zeroed : blank.setPage 0x80022 (fun _ => 0) = blank := by
    simp [Mem.setPage, blank]
  rw [← zeroed, pte_zeroPage]
  exact not_valid_zero

theorem blank_tree : @Tree linked blank 0x80022 := by
  let _ := linked
  have empty := blank_empty
  have tables := tableAt_empty blank 0x80022 empty
  refine ⟨fun p q x first second => ?_, ⟨fun i valid => absurd valid (empty i), fun i table found => ?_⟩, by decide,
    fun x member p => ?_, fun x known => ?_⟩
  · rw [tables] at first second
    split_ifs at first second with one two
    rw [one, two]
  · rw [tables] at found
    cases found
  · rw [tables]
    split_ifs
    · rintro ⟨⟩
      exact absurd member (by decide)
    · simp
  · rcases known with member | ⟨p, found⟩
    · fin_cases member <;> decide
    · rw [tables] at found
      split_ifs at found
      rw [← Option.some.inj found]
      decide

/-- Three pages are mapped, for which the two free pages become tables, and then the second of them is unmapped. -/
theorem page_table_is_map_unmapped : ∃ s s', mappages 0x80022 0 (3 * PGSIZE) 7 (PTE_R ||| PTE_U) blank = .ok true s ∧
    @uvmunmap linked 0x80022 (1 * PGSIZE) 1 false s = .ok () s' ∧ @Tree linked s' 0x80022 ∧ lookup s' 0x80022 PGSIZE = none ∧
    ∀ n ∈ [0, 2], ∃ pte, lookup s' 0x80022 (n * PGSIZE) = some pte ∧ PTE2PA pte = 7 + n ∧
      PTE_FLAGS pte = (PTE_R ||| PTE_U) ||| PTE_V := by
  let _ := linked
  have absent : ∀ a, lookup blank 0x80022 a = none := fun a => leafAt_empty blank 0x80022 blank_empty (vpn a)
  obtain ⟨ok, s, ran, tree, -, entered⟩ := (page_table_is_map blank 0x80022 blank_tree).2.1 0 (3 * PGSIZE) 7 (PTE_R ||| PTE_U)
    (by decide) (by decide) (by decide) (by decide) fun a _ _ => absent a
  have enough : (match mappages 0x80022 0 (3 * PGSIZE) 7 (PTE_R ||| PTE_U) blank with
      | .ok ok _ => ok | .error _ _ => false) = true := by decide +kernel
  rw [ran] at enough
  obtain rfl : ok = true := enough
  have mapped : ∀ n < 3, ∃ pte, lookup s 0x80022 (n * PGSIZE) = some pte ∧ PTE2PA pte = 7 + n ∧
      PTE_FLAGS pte = (PTE_R ||| PTE_U) ||| PTE_V := by
    intro n below
    have inside : n * PGSIZE < MAXVA ∧ Touches 0 (3 * PGSIZE) (n * PGSIZE) ∧ n * PGSIZE / PGSIZE = n := by
      unfold MAXVA Touches PGSIZE
      omega
    obtain ⟨pte, found, target, flags⟩ := entered rfl (n * PGSIZE) inside.1 inside.2.1
    exact ⟨pte, found, by simpa [inside.2.2] using target, flags⟩
  obtain ⟨⟨⟩, s', undone, tree', others⟩ := (page_table_is_map s 0x80022 tree).2.2.1 false 1 1 (by decide) (fun k below => by
    obtain rfl : k = 0 := by omega
    obtain ⟨pte, found, -, flags⟩ := mapped 1 (by decide)
    exact ⟨pte, found, by rw [flags]; decide⟩) nofun
  refine ⟨s, s', ran, undone, tree', others PGSIZE (by decide), fun n member => ?_⟩
  have inside : n < 3 ∧ n ≠ 1 ∧ n * PGSIZE < MAXVA ∧ n * PGSIZE / PGSIZE = n := by
    fin_cases member <;> decide
  rw [others _ inside.2.2.1, if_neg (by omega)]
  exact mapped n inside.1

end Xv6.Vm.Map
