import Xv6.Vm.Moves

/-! walk and mappages: the tree only grows, and one entry is written. -/

namespace Xv6.Vm.Walk
open Lib.Ownership Lib.Exec Memory Pagetable Entry Space Writes Moves

variable (s : Mem)

theorem getPte_run (table : Nat) (i : Fin 512) : getPte table i s = .ok (s.pte table i) s := rfl

theorem setPte_run (table : Nat) (i : Fin 512) (pte : Nat) : setPte table i pte s = .ok () (s.setPte table i pte) := rfl

theorem walkLevel_reads (table : Nat) (i : Fin 512) : walkLevel table i false s = .ok (child s table i) s := by
  unfold walkLevel child
  rw [bind_ok (getPte_run s table i)]
  by_cases valid : Valid (s.pte table i)
  · simp only [if_pos valid]
    rfl
  · simp only [if_neg valid]
    rfl

theorem walkLoop_none (va : Nat) (alloc : Bool) (level table : Nat) (s s' : Mem)
    (first : walkLevel table (PX (level + 1) va) alloc s = .ok none s') :
    walkLoop va alloc (level + 1) table s = .ok none s' := by
  rw [walkLoop, bind_ok first]
  rfl

theorem walkLoop_some (va : Nat) (alloc : Bool) (level table next : Nat) (s s' : Mem)
    (first : walkLevel table (PX (level + 1) va) alloc s = .ok (some next) s') :
    walkLoop va alloc (level + 1) table s = walkLoop va alloc level next s' := by
  rw [walkLoop, bind_ok first]

theorem walkLoop_reads (r va : Nat) :
    walkLoop va false 2 r s = .ok (tableAt s r (.low (vpn va).top (vpn va).mid)) s := by
  simp only [tableAt, vpn]
  cases top : child s r (PX 2 va) with
  | none =>
    rw [walkLoop_none va false 1 r s s (by rw [walkLevel_reads, top])]
    rfl
  | some mid =>
    rw [walkLoop_some va false 1 r mid s s (by rw [walkLevel_reads, top]), Option.bind_some]
    cases low : child s mid (PX 1 va) with
    | none => exact walkLoop_none va false 0 mid s s (by rw [walkLevel_reads, low])
    | some table =>
      rw [walkLoop_some va false 0 mid table s s (by rw [walkLevel_reads, low])]
      rfl

theorem walk_reads (r va : Nat) (bound : va < MAXVA) :
    walk r va false s =
      .ok ((tableAt s r (.low (vpn va).top (vpn va).mid)).map fun table => (table, (vpn va).low)) s := by
  unfold walk
  rw [if_neg (Nat.not_le.mpr bound), bind_ok (walkLoop_reads s r va)]
  cases tableAt s r (.low (vpn va).top (vpn va).mid) with
  | none | some table => rfl

theorem walk_of_levels {r : Nat} {s : Mem} (good : Mem → Prop) (keeps : Mem → Mem → Prop)
    (trans : ∀ {a b c : Mem}, keeps a b → keeps b c → keeps a c)
    (level : ∀ s p, Upper p → ∀ i t, good s → tableAt s r p = some t → Ends (walkLevel t i true) s (fun result s' =>
      (good s' ∧ keeps s s') ∧ ∀ x, result = some x → tableAt s' r (below p i) = some x))
    (va : Nat) (bound : va < MAXVA) (start : good s) :
    Ends (walk r va true) s (fun result s' => keeps s s' ∧ ∀ found, result = some found →
      found.2 = (vpn va).low ∧ tableAt s' r (.low (vpn va).top (vpn va).mid) = some found.1) := by
  obtain ⟨first, s₁, ran₁, ⟨good₁, keeps₁⟩, found₁⟩ := level s .root trivial (PX 2 va) r start rfl
  unfold walk
  rw [if_neg (Nat.not_le.mpr bound)]
  cases first with
  | none =>
    refine ⟨none, s₁, ?_, keeps₁, fun _ same => nomatch same⟩
    rw [bind_ok (walkLoop_none va true 1 r s s₁ ran₁)]
    rfl
  | some mid =>
    obtain ⟨second, s₂, ran₂, ⟨_, keeps₂⟩, found₂⟩ :=
      level s₁ (.mid (PX 2 va)) trivial (PX 1 va) mid good₁ (found₁ mid rfl)
    have loop := walkLoop_some va true 1 r mid s s₁ ran₁
    cases second with
    | none =>
      refine ⟨none, s₂, ?_, trans keeps₁ keeps₂, fun _ same => nomatch same⟩
      rw [bind_ok (loop.trans (walkLoop_none va true 0 mid s₁ s₂ ran₂))]
      rfl
    | some table =>
      refine ⟨some (table, PX 0 va), s₂, ?_, trans keeps₁ keeps₂, fun pair same => ?_⟩
      · rw [bind_ok (loop.trans (walkLoop_some va true 0 mid table s₁ s₂ ran₂))]
        rfl
      · obtain rfl := Option.some.inj same
        exact ⟨rfl, found₂ table rfl⟩

theorem mapTurn_of_walk {s : Mem} {r : Nat} (va pte : Nat) (after : Bool → Mem → Prop)
    (absent : ∀ s', after true s' → leafAt s' r (vpn va) = none)
    (walked : Ends (walk r va true) s (fun result s' => after result.isSome s' ∧ ∀ found, result = some found →
      found.2 = (vpn va).low ∧ tableAt s' r (.low (vpn va).top (vpn va).mid) = some found.1))
    {A : Type} (next : VM A) (failed : A) (post : A → Mem → Prop) (full : ∀ s', after false s' → post failed s')
    (written : ∀ s' t, after true s' → tableAt s' r (.low (vpn va).top (vpn va).mid) = some t →
      Ends next (s'.setPte t (vpn va).low pte) post) :
    Ends (do
      match ← walk r va true with
      | none => pure failed
      | some (table, i) => do
          let old ← getPte table i
          if Valid old then throw "mappages: remap"
          setPte table i pte
          next) s post := by
  obtain ⟨result, s', ran, holds, found⟩ := walked
  apply Ends.after ran
  cases result with
  | none => exact Ends.pure (full s' holds)
  | some pair =>
    obtain ⟨t, i⟩ := pair
    obtain ⟨index, here⟩ := found (t, i) rfl
    simp only at index here
    have invalid : ¬Valid (s'.pte t (vpn va).low) := by
      intro valid
      have leaf := absent s' holds
      unfold leafAt at leaf
      rw [here, Option.bind_some, if_pos valid] at leaf
      cases leaf
    subst index
    apply Ends.after (getPte_run s' t _)
    rw [if_neg invalid]
    exact Ends.after (setPte_run s' t _ pte) (written s' t holds here)

theorem mappages_page (r va x perm : Nat) (aligned : va % PGSIZE = 0) :
    mappages r va PGSIZE x perm = mappagesLoop r perm 0 va x := by
  have page : va = va / 4096 * 4096 := (Nat.div_mul_cancel (Nat.dvd_of_mod_eq_zero aligned)).symm
  have start : PGROUNDDOWN va = va := page.symm
  have last : PGROUNDDOWN (va + PGSIZE - 1) = va := by
    change (va + 4096 - 1) / 4096 * 4096 = va
    omega
  unfold mappages
  rw [if_neg (by decide), start, last, Nat.sub_self, Nat.zero_div]

variable [Layout] {user : Vpn → Prop} {s : Mem} {r : Nat} {hand : List Nat}

/-- The tree has gained tables at most; pages with data are as they were. -/
structure Grown (user : Vpn → Prop) (s : Mem) (r : Nat) (hand : List Nat) (s' : Mem) : Prop where
  safe : Local user s' (some r) hand
  step : Step user s (some r) hand s' (some r) hand
  leaves : ∀ v, leafAt s' r v = leafAt s r v
  tables : ∀ p x, tableAt s r p = some x → tableAt s' r p = some x
  data : ∀ role x, Owns user s (some r) hand role x → role ≠ .free → (∀ p, role ≠ .table p) → s'.page x = s.page x

theorem Grown.refl (before : Local user s (some r) hand) : Grown user s r hand s where
  safe := before
  step := Step.refl s (some r) hand
  leaves _ := rfl
  tables _ _ found := found
  data _ _ _ _ _ := rfl

theorem Grown.owns {s' : Mem} (grown : Grown user s r hand s') (role : Role) (x : Nat)
    (own : Owns user s (some r) hand role x) (used : role ≠ .free) : Owns user s' (some r) hand role x := by
  cases role with
  | free => exact absurd rfl used
  | hand => simpa using own
  | table p => exact (owns_table_some r p x).mpr (grown.tables p x ((owns_table_some r p x).mp own))
  | leaf v =>
    rw [owns_leaf_some, grown.leaves]
    exact (owns_leaf_some r v x).mp own

theorem Grown.trans {s' s'' : Mem} (first : Grown user s r hand s') (second : Grown user s' r hand s'') :
    Grown user s r hand s'' where
  safe := second.safe
  step := first.step.trans second.step
  leaves v := (second.leaves v).trans (first.leaves v)
  tables p x found := second.tables p x (first.tables p x found)
  data role x own used other :=
    (second.data role x (first.owns role x own used) used other).trans (first.data role x own used other)

section
variable (before : Local user s (some r) hand)
include before

theorem allocated_links {s₁ : Mem} {x : Nat}
    (alloc : Allocated user s (some r) hand x s₁) (p : Path) (upper : Upper p) (i : Fin 512) (t : Nat)
    (here : tableAt s r p = some t) (invalid : ¬Valid (s.pte t i)) :
    Grown user s r hand ((s₁.setPage x (fun _ => 0)).setPte t i (PA2PTE x ||| PTE_V)) ∧
      tableAt ((s₁.setPage x (fun _ => 0)).setPte t i (PA2PTE x ||| PTE_V)) r (below p i) = some x := by
  have free : Owns user s (some r) hand .free x := Owns.free x (by rw [alloc.taken]; exact List.mem_cons_self)
  have held : Owns user s₁ (some r) (x :: hand) .hand x := Owns.hand x List.mem_cons_self
  have ownTable : Owns user s (some r) hand (.table p) t := Owns.table r t p rfl here
  obtain ⟨safe, zeroed, tables⟩ := setPage_keeps alloc.safe .hand x (fun _ => 0) held nofun
  have same : SameTables s (s₁.setPage x (fun _ => 0)) r := by
    intro q y found
    rw [tables r rfl q y (by rw [tableAt_congr (alloc.tables r rfl)]; exact found),
      alloc.tables r rfl q y found]
  have link : Link (s₁.setPage x (fun _ => 0)) r p i t x :=
    link_of_hand safe p upper i t (by rw [tableAt_congr same]; exact here)
      (by rw [pte_congr (same p t here)]; exact invalid) (pte_zeroPage s₁ x)
  obtain ⟨safe', linked⟩ := link_moves safe link
  refine ⟨⟨safe', (alloc.step.trans zeroed).trans linked, fun v => ?_, fun q y found => ?_, ?_⟩, ?_⟩
  · rw [link.rewrite.leafAt, leafAt_congr same]
  · rw [link.tableAt, tableAt_congr same, found]
    by_cases new : q = below p i
    · rw [new, tableAt_below p upper i t here] at found
      unfold child at found
      rw [if_neg invalid] at found
      cases found
    · rw [if_neg new]
  · intro role y own used other
    have notNew : y ≠ x := before.exclusive.ne own free used
    have notTable : y ≠ t := before.exclusive.ne own ownTable (other p)
    unfold Mem.setPte
    rw [page_setPage_other notTable, page_setPage_other notNew, alloc.others y notNew]
  · rw [link.tableAt, if_pos rfl]

theorem walkLevel_ends (p : Path) (upper : Upper p) (i : Fin 512) (t : Nat) (here : tableAt s r p = some t) :
    Ends (walkLevel t i true) s (fun result s' =>
      Grown user s r hand s' ∧ ∀ x, result = some x → tableAt s' r (below p i) = some x) := by
  unfold walkLevel
  apply Ends.after (getPte_run s t i)
  by_cases valid : Valid (s.pte t i)
  · rw [if_pos valid]
    refine Ends.pure ⟨Grown.refl before, fun x same => ?_⟩
    rw [tableAt_below p upper i t here, ← same]
    unfold child
    rw [if_pos valid]
  · rw [if_neg valid, if_pos rfl]
    refine Ends.bind (kalloc_ends before) ?_
    rintro result s₁ (⟨rfl, rfl, _⟩ | ⟨x, rfl, alloc⟩)
    · exact Ends.pure ⟨Grown.refl before, fun x same => nomatch same⟩
    · obtain ⟨grown, found⟩ := allocated_links before alloc p upper i t here valid
      refine ⟨some x, _, rfl, grown, fun y same => ?_⟩
      rw [← Option.some.inj same]
      exact found

theorem walk_ends (va : Nat) (bound : va < MAXVA) : Ends (walk r va true) s (fun result s' => Grown user s r hand s' ∧
      ∀ found, result = some found →
        found.2 = (vpn va).low ∧ tableAt s' r (.low (vpn va).top (vpn va).mid) = some found.1) := by
  refine walk_of_levels (fun s => Local user s (some r) hand) (fun s s' => Grown user s r hand s') Grown.trans
    (fun s p upper i t safe here => ?_) va bound before
  apply Ends.weaken (walkLevel_ends safe p upper i t here)
  exact fun result s' ⟨grown, found⟩ => ⟨⟨grown.safe, grown⟩, found⟩

theorem mapTurn_ends (va : Nat) (bound : va < MAXVA)
    (absent : leafAt s r (vpn va) = none) (pte : Nat) {A : Type} (next : VM A) (failed : A) (post : A → Mem → Prop)
    (full : ∀ s', Grown user s r hand s' → post failed s')
    (written : ∀ s' t, Grown user s r hand s' → tableAt s' r (.low (vpn va).top (vpn va).mid) = some t →
      Ends next (s'.setPte t (vpn va).low pte) post) :
    Ends (do
      match ← walk r va true with
      | none => pure failed
      | some (table, i) => do
          let old ← getPte table i
          if Valid old then throw "mappages: remap"
          setPte table i pte
          next) s post :=
  mapTurn_of_walk va pte (fun _ s' => Grown user s r hand s') (fun _ grown => (grown.leaves _).trans absent)
    (walk_ends before va bound) next failed post full written

end

/-- One virtual page has a new entry; hand' is what the operation still holds. -/
structure Mapped (user : Vpn → Prop) (s : Mem) (r : Nat) (hand hand' : List Nat) (v : Vpn) (pte : Nat) (s' : Mem) :
    Prop where
  safe : Local user s' (some r) hand'
  step : Step user s (some r) hand s' (some r) hand'
  leaves : ∀ w, leafAt s' r w = if w = v then some pte else leafAt s r w
  tables : ∀ p x, tableAt s r p = some x → tableAt s' r p = some x
  data : ∀ role x, Owns user s (some r) hand role x → role ≠ .free → (∀ p, role ≠ .table p) → s'.page x = s.page x

theorem Grown.mapped {s₁ : Mem} {hand' : List Nat} {v : Vpn} {t pte : Nat} (grown : Grown user s r hand s₁)
    (here : tableAt s₁ r (.low v.top v.mid) = some t) (bound : pte < 2 ^ 64) (valid : Valid pte)
    (moved : Local user (s₁.setPte t v.low pte) (some r) hand' ∧
      Step user s₁ (some r) hand (s₁.setPte t v.low pte) (some r) hand') :
    Mapped user s r hand hand' v pte (s₁.setPte t v.low pte) where
  safe := moved.1
  step := grown.step.trans moved.2
  leaves w := by
    rw [leafAt_setLow (local_distinct grown.safe) v t pte bound here, if_pos valid, grown.leaves]
  tables p x found := by
    rw [tableAt_setLow (local_distinct grown.safe) v.top v.mid v.low t pte here]
    exact grown.tables p x found
  data role x own used other := by
    have notTable : x ≠ t := grown.safe.exclusive.ne (grown.owns role x own used) (Owns.table r t _ rfl here) (other _)
    unfold Mem.setPte
    rw [page_setPage_other notTable, grown.data role x own used other]

theorem mappages_user {x : Nat} (before : Local user s (some r) (x :: hand)) (va perm : Nat) (bound : va < MAXVA)
    (aligned : va % PGSIZE = 0) (inside : user (vpn va)) (absent : leafAt s r (vpn va) = none) (small : perm < 2 ^ 10)
    (leaf : Leaf perm) :
    Ends (mappages r va PGSIZE x perm) s (fun ok s' =>
      (ok = false ∧ Grown user s r (x :: hand) s') ∨
        (ok = true ∧ Mapped user s r (x :: hand) hand (vpn va) (PA2PTE x ||| perm ||| PTE_V) s')) := by
  have reads := reads_entry x perm
    (lt_trans (inRam_bound x (before.ram x ⟨.hand, Owns.hand x List.mem_cons_self⟩)) (by decide)) small
  rw [mappages_page r va x perm aligned]
  unfold mappagesLoop
  apply mapTurn_ends before va bound absent _ (pure true) false
  · intro s' grown
    exact Or.inl ⟨rfl, grown⟩
  · intro s' t grown here
    have absent' : leafAt s' r (vpn va) = none := (grown.leaves _).trans absent
    exact Ends.pure (Or.inr ⟨rfl, grown.mapped here reads.bound reads.valid
      (map_moves grown.safe here absent' inside small leaf)⟩)

theorem mappages_other (before : Local user s (some r) hand) (va x perm : Nat) (bound : va < MAXVA)
    (aligned : va % PGSIZE = 0) (outside : ¬user (vpn va)) (absent : leafAt s r (vpn va) = none)
    (page : x < 2 ^ 52) (small : perm < 2 ^ 10) (leaf : Leaf perm) :
    Ends (mappages r va PGSIZE x perm) s (fun ok s' =>
      (ok = false ∧ Grown user s r hand s') ∨
        (ok = true ∧ Mapped user s r hand hand (vpn va) (PA2PTE x ||| perm ||| PTE_V) s')) := by
  have reads := reads_entry x perm page small
  rw [mappages_page r va x perm aligned]
  unfold mappagesLoop
  apply mapTurn_ends before va bound absent _ (pure true) false
  · intro s' grown
    exact Or.inl ⟨rfl, grown⟩
  · intro s' t grown here
    exact Ends.pure (Or.inr ⟨rfl, grown.mapped here reads.bound reads.valid
      (setLow_keeps grown.safe here _ reads.bound (fun _ => reads.leaf.mpr leaf) (fun inside => absurd inside outside))⟩)

end Xv6.Vm.Walk
