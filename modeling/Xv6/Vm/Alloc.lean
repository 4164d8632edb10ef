import Xv6.Vm.Unmap

/-! uvmalloc and uvmdealloc: user pages are added and removed at the end of a filled range. -/

namespace Xv6.Vm.Alloc
open Lib.Ownership Lib.Exec Memory Pagetable Entry Space Writes Moves Walk Unmap List Option

def userVpn (v : Vpn) : Prop := v.page < TRAPFRAME / PGSIZE

theorem userVpn_iff (v : Vpn) : userVpn v ↔ v.page < 2 ^ 26 - 2 := Iff.rfl

def pages (sz : Nat) : Nat := (sz + PGSIZE - 1) / PGSIZE

theorem pgroundup_eq (sz : Nat) (bound : sz < 2 ^ 63) : PGROUNDUP sz = pages sz * PGSIZE := by
  unfold PGROUNDUP pages
  rw [Nat.mod_eq_of_lt (by unfold PGSIZE; omega)]

theorem pages_mul (n : Nat) : pages (n * PGSIZE) = n := by
  unfold pages PGSIZE
  omega

/-- The user pages of the tree are those below n. -/
structure Filled (s : Mem) (r n : Nat) : Prop where
  below : ∀ w : Vpn, w.page < n → leafAt s r w ≠ none
  above : ∀ w : Vpn, userVpn w → n ≤ w.page → leafAt s r w = none
  bound : n ≤ 2 ^ 26 - 2

theorem Filled.grown {s s' : Mem} {r n : Nat} (filled : Filled s r n) (leaves : ∀ v, leafAt s' r v = leafAt s r v) :
    Filled s' r n where
  below w low := by rw [leaves]; exact filled.below w low
  above w inside high := by rw [leaves]; exact filled.above w inside high
  bound := filled.bound

variable [Layout]

theorem inRam_mem (x : Nat) (ram : InRam x) : x ∈ Finset.Ico (2 ^ 19) (2 ^ 19 + 2 ^ 15) := by
  have start := Layout.text.trans_le Layout.data
  obtain ⟨low, high⟩ := ram
  rw [Finset.mem_Ico]
  unfold PHYSTOP KERNBASE PGSIZE at *
  omega

variable {s : Mem} {r : Nat} {hand : List Nat}

theorem mapped_bound (before : Local userVpn s (some r) hand) (n : Nat) (low : n ≤ 2 ^ 26 - 2)
    (mapped : ∀ w : Vpn, w.page < n → leafAt s r w ≠ none) : n + hand.length ≤ 2 ^ 15 := by
  have entry : ∀ k : Fin n, ∃ x, Owns userVpn s (some r) hand (.leaf (vpn (k.val * PGSIZE))) x := by
    intro k
    have page := page_of_vpn k.val (by omega)
    obtain ⟨pte, found⟩ := ne_none_iff_exists'.mp (mapped (vpn (k.val * PGSIZE)) (by omega))
    refine ⟨PTE2PA pte, Owns.leaf r pte _ rfl ?_ found⟩
    rw [userVpn_iff]
    omega
  choose frame owned using entry
  have injective : Function.Injective frame := by
    intro k k' same
    have roles := before.exclusive _ _ _ (owned k) (same ▸ owned k')
    have pagesEq := congrArg Vpn.page (by simpa using roles : vpn (k.val * PGSIZE) = vpn (k'.val * PGSIZE))
    rw [page_of_vpn k.val (by omega), page_of_vpn k'.val (by omega)] at pagesEq
    exact Fin.ext pagesEq
  have apart : Disjoint (Finset.univ.image frame) hand.toFinset := by
    rw [Finset.disjoint_left]
    intro x inImage inHand
    obtain ⟨k, _, rfl⟩ := Finset.mem_image.mp inImage
    nomatch before.exclusive _ _ _ (owned k) (Owns.hand _ (mem_toFinset.mp inHand))
  have inside : Finset.univ.image frame ∪ hand.toFinset ⊆ Finset.Ico (2 ^ 19) (2 ^ 19 + 2 ^ 15) := by
    intro x member
    rcases Finset.mem_union.mp member with inImage | inHand
    · obtain ⟨k, _, rfl⟩ := Finset.mem_image.mp inImage
      exact inRam_mem _ (before.ram _ ⟨_, owned k⟩)
    · exact inRam_mem _ (before.ram _ ⟨_, Owns.hand _ (mem_toFinset.mp inHand)⟩)
  have count := Finset.card_le_card inside
  rw [Finset.card_union_of_disjoint apart, Finset.card_image_of_injective _ injective, Finset.card_univ, Fintype.card_fin,
    toFinset_card_of_nodup before.nodup.2, Nat.card_Ico] at count
  omega

theorem uvmdealloc_ends (before : Local userVpn s (some r) hand) (oldsz newsz : Nat) (bound : pages oldsz ≤ 2 ^ 26 - 2)
    (mapped : ∀ w : Vpn, pages newsz ≤ w.page → w.page < pages oldsz → leafAt s r w ≠ none) :
    Ends (uvmdealloc r oldsz newsz) s (fun result s' =>
      result = min oldsz newsz ∧ Unmapped userVpn s r hand (pages newsz) (pages oldsz) s') := by
  unfold uvmdealloc
  by_cases grows : oldsz ≤ newsz
  · rw [if_pos grows]
    have order : pages oldsz ≤ pages newsz := Nat.div_le_div_right (by omega)
    exact Ends.pure ⟨(min_eq_left grows).symm, Unmapped.refl before _ _ order⟩
  · have small : oldsz < 2 ^ 63 := by
      unfold pages PGSIZE at bound
      omega
    rw [if_neg grows, pgroundup_eq oldsz small, pgroundup_eq newsz (by omega)]
    have least : newsz = min oldsz newsz := (min_eq_right (by omega)).symm
    by_cases whole : pages newsz * PGSIZE < pages oldsz * PGSIZE
    · have order : pages newsz < pages oldsz := Nat.lt_of_mul_lt_mul_right whole
      have count : (pages oldsz * PGSIZE - pages newsz * PGSIZE) / PGSIZE = pages oldsz - pages newsz := by
        rw [← Nat.sub_mul, Nat.mul_div_cancel _ (by decide)]
      rw [if_pos whole, count]
      refine Ends.bind (uvmunmap_free before (pages oldsz - pages newsz) (pages newsz) (by omega)
        (fun w lower upper => ⟨(userVpn_iff w).mpr (by omega), mapped w lower (by omega)⟩)) ?_
      intro _ s' done
      rw [show pages newsz + (pages oldsz - pages newsz) = pages oldsz by omega] at done
      exact Ends.pure ⟨least, done⟩
    · rw [if_neg whole]
      have order : pages oldsz ≤ pages newsz := Nat.le_of_mul_le_mul_right (Nat.le_of_not_lt whole) (by decide)
      exact Ends.pure ⟨least, Unmapped.refl before _ _ order⟩

theorem grown_unmapped {s' s'' : Mem} {lo hi : Nat} (grown : Grown userVpn s r hand s')
    (done : Unmapped userVpn s' r hand lo hi s'') : Unmapped userVpn s r hand lo hi s'' where
  safe := done.safe
  step := grown.step.trans done.step
  leaves w := by rw [done.leaves, grown.leaves]
  tables p x found := done.tables p x (grown.tables p x found)
  data role x own used other outside := by
    rw [done.data role x (grown.owns role x own used) used other outside, grown.data role x own used other]

theorem allocated_grown_freed {x : Nat} {s₁ s₂ s₃ : Mem} (before : Local userVpn s (some r) hand)
    (alloc : Allocated userVpn s (some r) hand x s₁) (grown : Grown userVpn s₁ r (x :: hand) s₂)
    (freed : Freed userVpn s₂ (some r) hand x s₃) : Grown userVpn s r hand s₃ where
  safe := freed.safe
  step := (alloc.step.trans grown.step).trans freed.step
  leaves v := by
    rw [leafAt_congr (freed.tables r rfl), grown.leaves, leafAt_congr (alloc.tables r rfl)]
  tables p y found := by
    rw [tableAt_congr (freed.tables r rfl)]
    exact grown.tables p y (by rw [tableAt_congr (alloc.tables r rfl)]; exact found)
  data role y own used other := by
    have different : y ≠ x := before.exclusive.ne own alloc.free used
    rw [freed.others y different, grown.data role y (alloc.owns role y own used) used other, alloc.others y different]

/-- Pages have been added to the tree from lo up to hi, each with the flags and the content that entry allows. -/
structure Extended (entry : Vpn → Nat → Page → Prop) (s : Mem) (r : Nat) (hand : List Nat) (lo hi : Nat) (s' : Mem) :
    Prop where
  safe : Local userVpn s' (some r) hand
  step : Step userVpn s (some r) hand s' (some r) hand
  leaves : ∀ w : Vpn, ¬(lo ≤ w.page ∧ w.page < hi) → leafAt s' r w = leafAt s r w
  fresh : ∀ w : Vpn, lo ≤ w.page → w.page < hi →
    ∃ pte x perm, leafAt s' r w = some pte ∧ Reads pte x perm ∧ entry w perm (s'.page x)
  tables : ∀ p x, tableAt s r p = some x → tableAt s' r p = some x
  data : ∀ role x, Owns userVpn s (some r) hand role x → role ≠ .free → (∀ p, role ≠ .table p) → s'.page x = s.page x

def ZeroPage (perm : Nat) (_ : Vpn) (perm' : Nat) (content : Page) : Prop := perm' = perm ∧ content = fun _ => 0

variable {entry : Vpn → Nat → Page → Prop}

theorem Extended.refl (before : Local userVpn s (some r) hand) (lo : Nat) : Extended entry s r hand lo lo s where
  safe := before
  step := Step.refl s (some r) hand
  leaves _ _ := rfl
  fresh w lower upper := by omega
  tables _ _ found := found
  data _ _ _ _ _ := rfl

variable {s' : Mem}

theorem Extended.owns {lo hi : Nat} (extended : Extended entry s r hand lo hi s')
    (empty : ∀ w : Vpn, userVpn w → lo ≤ w.page → leafAt s r w = none) (role : Role) (x : Nat)
    (own : Owns userVpn s (some r) hand role x) (used : role ≠ .free) : Owns userVpn s' (some r) hand role x := by
  cases role with
  | free => exact absurd rfl used
  | hand => simpa using own
  | table p => exact (owns_table_some r p x).mpr (extended.tables p x ((owns_table_some r p x).mp own))
  | leaf v =>
    obtain ⟨inside, pte, found, page⟩ := (owns_leaf_some r v x).mp own
    rw [owns_leaf_some, extended.leaves v (fun range => by rw [empty v inside range.1] at found; cases found)]
    exact ⟨inside, pte, found, page⟩

theorem Extended.trans {s' s'' : Mem} {lo mid hi : Nat} (first : Extended entry s r hand lo mid s')
    (second : Extended entry s' r hand mid hi s'') (lower : lo ≤ mid) (upper : mid ≤ hi) (top : mid ≤ 2 ^ 26 - 2)
    (empty : ∀ w : Vpn, userVpn w → lo ≤ w.page → leafAt s r w = none) : Extended entry s r hand lo hi s'' where
  safe := second.safe
  step := first.step.trans second.step
  leaves w outside := by
    rw [second.leaves w (fun range => outside ⟨by omega, range.2⟩),
      first.leaves w (fun range => outside ⟨range.1, by omega⟩)]
  fresh w low high := by
    by_cases early : w.page < mid
    · obtain ⟨pte, x, perm, found, reads, content⟩ := first.fresh w low early
      refine ⟨pte, x, perm, ?_, reads, ?_⟩
      · rw [second.leaves w (fun range => by omega), found]
      · have own : Owns userVpn s' (some r) hand (.leaf w) x :=
          (owns_leaf_some r w x).mpr ⟨(userVpn_iff w).mpr (by omega), _, found, reads.page⟩
        rw [second.data (.leaf w) x own nofun nofun]
        exact content
    · exact second.fresh w (by omega) high
  tables p x found := second.tables p x (first.tables p x found)
  data role x own used other := by
    rw [second.data role x (first.owns empty role x own used) used other, first.data role x own used other]

theorem Extended.unmapped {s' s'' : Mem} {start lo hi : Nat} (extended : Extended entry s r hand lo hi s')
    (done : Unmapped userVpn s' r hand start hi s'') (order : start ≤ lo) (low : lo ≤ hi) (top : hi ≤ 2 ^ 26 - 2)
    (empty : ∀ w : Vpn, userVpn w → lo ≤ w.page → leafAt s r w = none) : Unmapped userVpn s r hand start lo s'' where
  safe := done.safe
  step := extended.step.trans done.step
  leaves w := by
    rw [done.leaves w]
    by_cases added : lo ≤ w.page ∧ w.page < hi
    · rw [if_pos ⟨by omega, added.2⟩, if_neg (by omega), empty w ((userVpn_iff w).mpr (by omega)) added.1]
    · rw [extended.leaves w added]
      have same : (start ≤ w.page ∧ w.page < hi) ↔ (start ≤ w.page ∧ w.page < lo) := by omega
      simp only [same]
  tables p x found := done.tables p x (extended.tables p x found)
  data role x own used other outside := by
    rw [done.data role x (extended.owns empty role x own used) used other (fun w same range => ?_),
      extended.data role x own used other]
    subst same
    obtain ⟨inside, pte, found, _⟩ := (owns_leaf_some r w x).mp own
    by_cases added : lo ≤ w.page
    · rw [empty w inside added] at found
      cases found
    · exact outside w rfl ⟨range.1, by omega⟩

theorem allocated_mapped {x m perm : Nat} {s₁ s₂ : Mem} (before : Local userVpn s (some r) hand)
    (alloc : Allocated userVpn s (some r) hand x s₁) (content : entry (vpn (m * PGSIZE)) perm (s₁.page x))
    (bound : m < 2 ^ 26)
    (mapped : Mapped userVpn s₁ r (x :: hand) hand (vpn (m * PGSIZE)) (PA2PTE x ||| perm ||| PTE_V) s₂)
    (reads : Reads (PA2PTE x ||| perm ||| PTE_V) x perm) : Extended entry s r hand m (m + 1) s₂ where
  safe := mapped.safe
  step := alloc.step.trans mapped.step
  leaves w outside := by
    rw [mapped.leaves w, if_neg (fun same => outside ((vpn_eq_range m (by omega) w).mp same)),
      leafAt_congr (alloc.tables r rfl)]
  fresh w low high := by
    obtain rfl := (vpn_eq_range m (by omega) w).mpr ⟨low, high⟩
    refine ⟨_, x, perm, ?_, reads, ?_⟩
    · rw [mapped.leaves, if_pos rfl]
    · rw [mapped.data .hand x (Owns.hand x mem_cons_self) nofun nofun]
      exact content
  tables p y found := mapped.tables p y (by rw [tableAt_congr (alloc.tables r rfl)]; exact found)
  data role y own used other := by
    have different : y ≠ x := before.exclusive.ne own alloc.free used
    rw [mapped.data role y (alloc.owns role y own used) used other, alloc.others y different]

/-- One turn of uvmalloc or uvmcopy: a page is allocated, filled and mapped, or whatever stopped it is undone. -/
theorem addPage_ends (entry : Vpn → Nat → Page → Prop) (before : Local userVpn s (some r) hand) (m perm : Nat) (bound : m ≤ 2 ^ 26 - 2)
    (filled : ∀ w : Vpn, w.page < m → leafAt s r w ≠ none)
    (empty : ∀ w : Vpn, userVpn w → m ≤ w.page → leafAt s r w = none) (small : perm < 2 ^ 10) (leaf : Leaf perm)
    (content : Mem → Page)
    (meets : ∀ x s₁, Allocated userVpn s (some r) hand x s₁ → entry (vpn (m * PGSIZE)) perm (content s₁))
    {A : Type} (failed next : VM A) (post : A → Mem → Prop)
    (full : ∀ s', Grown userVpn s r hand s' → Ends failed s' post)
    (more : ∀ s', Extended entry s r hand m (m + 1) s' → m + 1 ≤ 2 ^ 26 - 2 → Ends next s' post) :
    Ends (do
      match ← kalloc with
      | none => failed
      | some mem => do
          modify fun s => s.setPage mem (content s)
          if ← mappages r (m * PGSIZE) PGSIZE mem perm then next
          else do
            kfree mem
            failed) s post := by
  refine Ends.bind (kalloc_ends before) ?_
  rintro result s₁ (⟨rfl, rfl, _⟩ | ⟨x, rfl, alloc⟩)
  · exact full _ (Grown.refl before)
  · have fill := alloc.fill (content s₁)
    have room := mapped_bound fill.safe m bound (fun w low => by
      rw [leafAt_congr (fill.tables r rfl)]
      exact filled w low)
    have low : m < 2 ^ 15 := by
      simp only [length_cons] at room
      omega
    have page := page_of_vpn m (by omega)
    have inside : userVpn (vpn (m * PGSIZE)) := (userVpn_iff _).mpr (by omega)
    have ram := fill.safe.ram x ⟨.hand, Owns.hand x mem_cons_self⟩
    have reads := reads_entry x perm (lt_trans (inRam_bound x ram) (by decide)) small
    apply Ends.after rfl
    refine Ends.bind (mappages_user fill.safe (m * PGSIZE) perm
      (by unfold PGSIZE MAXVA; omega) (Nat.mul_mod_left m PGSIZE) inside ?_ small leaf) ?_
    · rw [leafAt_congr (fill.tables r rfl)]
      exact empty _ inside (by omega)
    · rintro ok s₂ (⟨rfl, grown⟩ | ⟨rfl, mapped⟩)
      · simp only [Bool.false_eq_true, ↓reduceIte]
        obtain ⟨_, s₃, ran, _, freed⟩ := kfree_ends x grown.safe
        exact Ends.after ran (full s₃ (allocated_grown_freed before fill grown freed))
      · simp only [↓reduceIte]
        refine more s₂ (allocated_mapped before fill ?_ (by omega) mapped reads) (by omega)
        rw [page_setPage_same]
        exact meets x s₁ alloc

theorem Extended.filled {m : Nat} (one : Extended entry s r hand m (m + 1) s')
    (filled : ∀ w : Vpn, w.page < m → leafAt s r w ≠ none) (w : Vpn) (low : w.page < m + 1) : leafAt s' r w ≠ none := by
  by_cases old : w.page < m
  · rw [one.leaves w (by omega)]
    exact filled w old
  · obtain ⟨pte, _, _, found, _⟩ := one.fresh w (by omega) low
    rw [found]
    exact some_ne_none _

theorem uvmallocLoop_ends (before : Local userVpn s (some r) hand) (start xperm npages m : Nat) (order : start ≤ m)
    (bound : m ≤ 2 ^ 26 - 2) (filled : ∀ w : Vpn, w.page < m → leafAt s r w ≠ none)
    (empty : ∀ w : Vpn, userVpn w → m ≤ w.page → leafAt s r w = none) (small : PTE_R ||| PTE_U ||| xperm < 2 ^ 10)
    (leaf : Leaf (PTE_R ||| PTE_U ||| xperm)) :
    Ends (uvmallocLoop r (start * PGSIZE) xperm npages (m * PGSIZE)) s (fun ok s' =>
      (ok = true ∧ Extended (ZeroPage (PTE_R ||| PTE_U ||| xperm)) s r hand m (m + npages) s') ∨
        (ok = false ∧ Unmapped userVpn s r hand start m s')) := by
  induction npages generalizing m s with
  | zero => exact Ends.pure (Or.inl ⟨rfl, Extended.refl before m⟩)
  | succ npages ih =>
    unfold uvmallocLoop
    refine addPage_ends (ZeroPage _) before m _ bound filled empty small leaf (fun _ _ => 0) (fun x s₁ _ => ⟨rfl, rfl⟩) _ _ _ ?_ ?_
    · intro s' grown
      refine Ends.bind (uvmdealloc_ends grown.safe (m * PGSIZE) (start * PGSIZE)
        (by rw [pages_mul]; exact bound) (fun w lower upper => ?_)) ?_
      · rw [pages_mul] at upper
        rw [grown.leaves]
        exact filled w upper
      · rintro _ s'' ⟨_, done⟩
        rw [pages_mul, pages_mul] at done
        exact Ends.pure (Or.inr ⟨rfl, grown_unmapped grown done⟩)
    · intro s' one top
      rw [show m * PGSIZE + PGSIZE = (m + 1) * PGSIZE by ring]
      apply Ends.weaken (ih one.safe (m + 1) (by omega) top (one.filled filled) (fun w inside high => ?_))
      · rintro ok s₃ (⟨rfl, rest⟩ | ⟨rfl, done⟩)
        · have all := one.trans rest (by omega) (by omega) (by omega) empty
          rw [show m + 1 + npages = m + (npages + 1) by ring] at all
          exact Or.inl ⟨rfl, all⟩
        · exact Or.inr ⟨rfl, one.unmapped done order (by omega) (by omega) empty⟩
      · rw [one.leaves w (by omega)]
        exact empty w inside (by omega)

theorem unmapped_grown {m : Nat} (done : Unmapped userVpn s r hand m m s') : Grown userVpn s r hand s' where
  safe := done.safe
  step := done.step
  leaves v := by rw [done.leaves, if_neg (by omega)]
  tables := done.tables
  data role x own used other := done.data role x own used other (fun w _ => by omega)

theorem Filled.small {n : Nat} (filled : Filled s r n) (before : Local userVpn s (some r) hand) : n ≤ 2 ^ 15 := by
  have all := mapped_bound before n filled.bound filled.below
  omega

theorem Filled.extended {n m : Nat} (filled : Filled s r n) (extended : Extended entry s r hand n m s')
    (order : n ≤ m) (bound : m ≤ 2 ^ 26 - 2) : Filled s' r m where
  below w low := by
    by_cases old : w.page < n
    · rw [extended.leaves w (by omega)]
      exact filled.below w old
    · obtain ⟨_, _, _, found, _⟩ := extended.fresh w (by omega) low
      rw [found]
      exact some_ne_none _
  above w inside high := by
    rw [extended.leaves w (by omega)]
    exact filled.above w inside (by omega)
  bound := bound

theorem Filled.unmapped {n m : Nat} (filled : Filled s r n) (done : Unmapped userVpn s r hand m n s') :
    Filled s' r (min m n) where
  below w low := by
    rw [done.leaves w, if_neg (by omega)]
    exact filled.below w (by omega)
  above w inside high := by
    rw [done.leaves w]
    by_cases range : m ≤ w.page ∧ w.page < n
    · rw [if_pos range]
    · rw [if_neg range]
      exact filled.above w inside (by omega)
  bound := le_trans (min_le_right m n) filled.bound

theorem Extended.bound {lo hi : Nat} (filled : Filled s r lo) (extended : Extended entry s r hand lo hi s') :
    hi ≤ 2 ^ 26 - 2 := by
  by_contra large
  have below : ∀ w : Vpn, w.page < 2 ^ 26 - 2 → leafAt s' r w ≠ none := by
    intro w low
    by_cases old : w.page < lo
    · rw [extended.leaves w (by omega)]
      exact filled.below w old
    · obtain ⟨_, _, _, found, _⟩ := extended.fresh w (by omega) (by omega)
      rw [found]
      exact some_ne_none _
  have count := mapped_bound extended.safe (2 ^ 26 - 2) le_rfl below
  omega

theorem uvmalloc_ends (before : Local userVpn s (some r) hand) (oldsz newsz xperm : Nat)
    (filled : Filled s r (pages oldsz)) (small : PTE_R ||| PTE_U ||| xperm < 2 ^ 10)
    (leaf : Leaf (PTE_R ||| PTE_U ||| xperm)) :
    Ends (uvmalloc r oldsz newsz xperm) s (fun result s' =>
      (result = max oldsz newsz ∧
        Extended (ZeroPage (PTE_R ||| PTE_U ||| xperm)) s r hand (pages oldsz) (pages (max oldsz newsz)) s') ∨
        (result = 0 ∧ Grown userVpn s r hand s')) := by
  have top := filled.bound
  have oldBound : oldsz < 2 ^ 63 := by
    unfold pages PGSIZE at top
    omega
  unfold uvmalloc
  by_cases shrinks : newsz < oldsz
  · rw [if_pos shrinks, max_eq_left (by omega)]
    exact Ends.pure (Or.inl ⟨rfl, Extended.refl before _⟩)
  · rw [if_neg shrinks, pgroundup_eq oldsz oldBound, max_eq_right (by omega)]
    have count : (newsz - pages oldsz * PGSIZE + PGSIZE - 1) / PGSIZE = pages newsz - pages oldsz := by
      unfold pages PGSIZE
      omega
    have order : pages oldsz ≤ pages newsz := Nat.div_le_div_right (by omega)
    simp only [count]
    refine Ends.bind (uvmallocLoop_ends before (pages oldsz) xperm _ (pages oldsz) le_rfl filled.bound
      filled.below filled.above small leaf) ?_
    rintro ok s' (⟨rfl, extended⟩ | ⟨rfl, done⟩)
    · rw [Nat.add_sub_cancel' order] at extended
      exact Ends.pure (Or.inl ⟨rfl, extended⟩)
    · exact Ends.pure (Or.inr ⟨rfl, unmapped_grown done⟩)

end Xv6.Vm.Alloc
