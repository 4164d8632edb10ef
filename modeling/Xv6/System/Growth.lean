import Xv6.System.Stats

/-! sbrk: what growproc reports of the size and the memory of its caller. -/

namespace Xv6.System.Growth
open Lib.Ownership Lib.Exec Sched.Table Finset
open Vm Vm.Memory Vm.Pagetable Vm.Space Vm.Walk Vm.Unmap Vm.Alloc Vm.Shape Vm.UserMem Vm.Pages
open Vm.Cost (free)
open Calls Safe Processes Spaces Boot Stats

def missing (s : Mem) (r lo hi : Nat) : Finset Path :=
  ((Finset.Ico lo hi).biUnion fun m =>
    {.mid (vpn (m * PGSIZE)).top, .low (vpn (m * PGSIZE)).top (vpn (m * PGSIZE)).mid}).filter fun q => tableAt s r q = none

/-- The pages that mapping the virtual pages from lo to hi takes: the frames and the tables. -/
def need (s : Mem) (r lo hi : Nat) : Nat := hi - lo + (missing s r lo hi).card

section
variable [Layout] {s s' : Mem} {r lo hi : Nat} {entry : Vpn → Nat → Page → Prop}

theorem Extended.taken (extended : Extended entry s r [] lo hi s')
    (empty : ∀ w : Vpn, userVpn w → lo ≤ w.page → leafAt s r w = none) (role : Role) (x : Nat)
    (own : Owns userVpn s' (some r) [] role x) (fresh : ¬Owns userVpn s (some r) [] role x) : x ∈ s.freelist := by
  obtain ⟨role', own'⟩ := (extended.step.owned x).mp ⟨role, own⟩
  by_cases free : role' = .free
  · subst free
    exact (owns_free x).mp own'
  · have same := extended.safe.exclusive role' role x (extended.owns empty role' x own' free) own
    exact absurd (same ▸ own') fresh

theorem frame_taken (extended : Extended entry s r [] lo hi s') (top : hi ≤ 2 ^ 26 - 2)
    (empty : ∀ w : Vpn, userVpn w → lo ≤ w.page → leafAt s r w = none) (m : Nat) (low : lo ≤ m) (high : m < hi) :
    ∃ x, Owns userVpn s' (some r) [] (.leaf (vpn (m * PGSIZE))) x ∧ x ∈ s.freelist := by
  have page := page_of_vpn m (by omega)
  have user : userVpn (vpn (m * PGSIZE)) := (userVpn_iff _).mpr (by omega)
  obtain ⟨pte, _, _, leaf, _⟩ := extended.fresh (vpn (m * PGSIZE)) (by omega) (by omega)
  have own : Owns userVpn s' (some r) [] (.leaf (vpn (m * PGSIZE))) (PTE2PA pte) := Owns.leaf r pte _ rfl user leaf
  exact ⟨_, own, Extended.taken extended empty _ _ own (not_owns_leaf r _ (empty _ user (by omega)) _)⟩

theorem table_taken (extended : Extended entry s r [] lo hi s') (top : hi ≤ 2 ^ 26 - 2)
    (empty : ∀ w : Vpn, userVpn w → lo ≤ w.page → leafAt s r w = none) (q : Path) (missed : q ∈ missing s r lo hi) :
    ∃ x, Owns userVpn s' (some r) [] (.table q) x ∧ x ∈ s.freelist := by
  obtain ⟨onWay, absent⟩ := mem_filter.mp missed
  obtain ⟨m, inside, either⟩ := mem_biUnion.mp onWay
  obtain ⟨low, high⟩ := mem_Ico.mp inside
  have page := page_of_vpn m (by omega)
  obtain ⟨pte, _, _, leaf, _⟩ := extended.fresh (vpn (m * PGSIZE)) (by omega) (by omega)
  obtain ⟨last, there, _, _⟩ := leafAt_table leaf
  obtain ⟨x, found⟩ : ∃ x, tableAt s' r q = some x := by
    simp only [mem_insert, mem_singleton] at either
    rcases either with rfl | rfl
    · obtain ⟨mid, here, _⟩ := Option.bind_eq_some_iff.mp there
      exact ⟨mid, here⟩
    · exact ⟨last, there⟩
  have own : Owns userVpn s' (some r) [] (.table q) x := (owns_table_some r q x).mpr found
  refine ⟨x, own, Extended.taken extended empty _ _ own fun before => ?_⟩
  rw [owns_table_some, absent] at before
  cases before

theorem need_le_free (extended : Extended entry s r [] lo hi s') (top : hi ≤ 2 ^ 26 - 2)
    (empty : ∀ w : Vpn, userVpn w → lo ≤ w.page → leafAt s r w = none) : need s r lo hi ≤ free s := by
  let frames : Finset Role := (Finset.Ico lo hi).image fun m => .leaf (vpn (m * PGSIZE))
  let tables : Finset Role := (missing s r lo hi).image .table
  -- Each of these roles is played after the call by a page that was free before it.
  have played : ∀ role ∈ frames ∪ tables, ∃ x, Owns userVpn s' (some r) [] role x ∧ x ∈ s.freelist := by
    intro role member
    rcases mem_union.mp member with frame | table
    · obtain ⟨m, inside, rfl⟩ := mem_image.mp frame
      obtain ⟨low, high⟩ := mem_Ico.mp inside
      exact frame_taken extended top empty m low high
    · obtain ⟨q, missed, rfl⟩ := mem_image.mp table
      exact table_taken extended top empty q missed
  choose! player owns listed using played
  have injective : Set.InjOn player (frames ∪ tables : Finset Role) := by
    intro role member role' member' same
    exact extended.safe.exclusive role role' _ (owns role member) (same ▸ owns role' member')
  have apart : Disjoint frames tables := by
    rw [disjoint_left]
    intro role frame table
    obtain ⟨m, _, rfl⟩ := mem_image.mp frame
    obtain ⟨q, _, impossible⟩ := mem_image.mp table
    cases impossible
  have frameCount : frames.card = hi - lo := by
    rw [card_image_of_injOn, Nat.card_Ico]
    intro m member m' member' same
    simp only [coe_Ico, Set.mem_Ico] at member member'
    rw [← page_of_vpn m (by omega), ← page_of_vpn m' (by omega), Role.leaf.inj same]
  have tableCount : tables.card = (missing s r lo hi).card :=
    card_image_of_injective _ fun _ _ same => Role.table.inj same
  calc need s r lo hi = (frames ∪ tables).card := by rw [card_union_of_disjoint apart, frameCount, tableCount]; rfl
    _ ≤ s.freelist.toFinset.card :=
      card_le_card_of_injOn player (fun role member => List.mem_toFinset.mpr (listed role member)) injective
    _ ≤ free s := List.toFinset_card_le _

end

/-- The frames and tables that a growth by n bytes takes are more than there are free pages. -/
def Insufficient (w : World) (p : Slot) (n : Int) : Prop :=
  ∃ r, (w.task p).pagetable = some r ∧
    free w.mem < need w.mem r (pages (w.task p).sz) (pages ((w.task p).sz + n.toNat))

/-- What sbrk should report: 0 with the exact new size and the memory below it as it was, and -1 with the old size
when the new one would be negative or too much. -/
structure Truthful (w : World) (p : Slot) (n : Int) (result : Bool) (w' : World) : Prop where
  done : result = true → ((w'.task p).sz : Int) = (w.task p).sz + n ∧
    ∀ va, va < min (w.task p).sz (w'.task p).sz → memoryOf w' p va = memoryOf w p va
  refused : (w.task p).sz + n < 0 ∨ Insufficient w p n → result = false ∧ (w'.task p).sz = (w.task p).sz

theorem page_below (va sz : Nat) (low : va < sz) (small : sz ≤ 2 ^ 27) :
    (vpn va).page < pages sz ∧ userVpn (vpn va) := by
  rw [userVpn_iff, page_vpn va (by omega)]
  unfold pages PGSIZE
  omega

theorem not_insufficient (w : World) (p : Slot) (n : Int) (less : n ≤ 0) : ¬Insufficient w p n := by
  rintro ⟨r, _, little⟩
  rw [Int.toNat_of_nonpos less, Nat.add_zero] at little
  simp [need, missing] at little

section
variable [Layout] {w w' : World} {p : Slot} {r : Nat} {n : Int} {result : Bool}

theorem Resized.truthful (resized : Resized w p r n result w') (inv : Inv w) (here : (w.task p).pagetable = some r)
    (size : 0 ≤ (w.task p).sz + n) : Truthful w p n result w' := by
  have bound := size_bound inv p r here
  obtain ⟨_, _, shaped⟩ := inv.sound.spaces p r here
  cases resized with
  | grown s more extended =>
    have top := Extended.bound shaped.filled extended
    refine ⟨fun _ => ⟨?_, fun va low => ?_⟩, fun refused => ?_⟩
    · simp only [World.setTask, Function.update_self]
      omega
    · have below := page_below va (w.task p).sz (lt_of_lt_of_le low (min_le_left _ _)) bound
      rw [memoryOf_some here, @memoryOf_some _ p r (by simp [World.setTask, here])]
      exact userByte_extended extended va below.2 below.1
    · rcases refused with negative | ⟨r', here', little⟩
      · omega
      · obtain rfl := Option.some.inj (here.symm.trans here')
        exact absurd (need_le_free extended top shaped.filled.above) (Nat.not_le.mpr little)
  | full s more grown => exact ⟨by rintro ⟨⟩, fun _ => ⟨rfl, rfl⟩⟩
  | shrunk s newsz less exact done =>
    have value : (newsz : Int) = (w.task p).sz + n := by omega
    refine ⟨fun _ => ⟨?_, fun va low => ?_⟩, fun refused => ?_⟩
    · simp only [World.setTask, Function.update_self]
      omega
    · simp only [World.setTask, Function.update_self] at low
      have below := page_below va newsz (by omega) (by omega)
      rw [memoryOf_some here, @memoryOf_some _ p r (by simp [World.setTask, here])]
      exact userByte_shrunk done va below.2 below.1
    · rcases refused with negative | little
      · omega
      · exact absurd little (not_insufficient w p n (by omega))
  | same none =>
    refine ⟨fun _ => ⟨by omega, fun _ _ => rfl⟩, fun refused => ?_⟩
    rcases refused with negative | little
    · omega
    · exact absurd little (not_insufficient w p n (by omega))

/-- A size below zero wraps and is taken for one that is large enough: the call changes nothing and returns 0. -/
theorem Resized.negative (resized : Resized w p r n result w') (inv : Inv w) (here : (w.task p).pagetable = some r)
    (low : -2 ^ 31 ≤ n) (size : (w.task p).sz + n < 0) : result = true ∧ (w'.task p).sz = (w.task p).sz := by
  have bound := size_bound inv p r here
  cases resized with
  | grown s more extended | full s more grown | same none => omega
  | shrunk s newsz less exact done =>
    refine ⟨rfl, ?_⟩
    simp only [World.setTask, Function.update_self]
    omega

/-- growproc reports the truth exactly when the new size would not be negative. -/
theorem growproc_truthful_iff (w : World) (reachable : Reachable w) (p : Slot) (running : (w.table.proc p).state = .running)
    (n : BitVec 32) : ∃ result w', growproc p n.toInt w = .ok result w' ∧
      (Truthful w p n.toInt result w' ↔ 0 ≤ (w.task p).sz + n.toInt) := by
  obtain ⟨inv, _⟩ := reachable_inv w reachable
  obtain ⟨r, _, here, _, _⟩ := Inv.running inv p running
  have least := BitVec.le_toInt n
  have most := BitVec.toInt_lt (x := n)
  obtain ⟨result, w', ran, resized⟩ := growproc_resizes inv p r here n.toInt (by omega)
  refine ⟨result, w', ran, fun truthful => ?_, fun size => Resized.truthful resized inv here size⟩
  by_contra negative
  obtain ⟨returned, _⟩ := Resized.negative resized inv here (by omega) (by omega)
  obtain ⟨refused, _⟩ := truthful.refused (Or.inl (by omega))
  cases returned.symm.trans refused

end

theorem growproc_truthful_init : ∃ w, @Reachable linked w ∧ ∃ result w',
    @growproc linked 0 (BitVec.toInt 1#32) w = .ok result w' ∧
      (Truthful w 0 (BitVec.toInt 1#32) result w' ↔ 0 ≤ (w.task 0).sz + BitVec.toInt 1#32) := by
  let _ := linked
  obtain ⟨w, started⟩ := init_starts
  exact ⟨w, started.reachable, growproc_truthful_iff w started.reachable 0 started.running 1#32⟩

/-- init has one page and gives back two: the call returns 0 and the page is still there. -/
theorem sbrk_below_zero : ∃ w, @Reachable linked w ∧ (w.table.proc 0).state = .running ∧ (w.task 0).sz = 4096 ∧
    ∃ w', @growproc linked 0 (-8192) w = .ok true w' ∧ (w'.task 0).sz = 4096 ∧ ¬Truthful w 0 (-8192) true w' := by
  let _ := linked
  obtain ⟨w, started⟩ := init_starts
  obtain ⟨inv, _⟩ := reachable_inv w started.reachable
  obtain ⟨r, _, here, _, _⟩ := Inv.running inv 0 started.running
  have size := started.size
  have negative : (w.task 0).sz + (-8192 : Int) < 0 := by
    rw [size]
    decide
  obtain ⟨result, w', ran, resized⟩ := growproc_resizes inv 0 r here (-8192) (by decide)
  obtain ⟨rfl, same⟩ := Resized.negative resized inv here (by decide) negative
  refine ⟨w, started.reachable, started.running, size, w', ran, same.trans size, fun truthful => ?_⟩
  exact absurd (truthful.refused (Or.inl negative)).1 (by decide)

end Xv6.System.Growth
