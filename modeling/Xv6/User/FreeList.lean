import Xv6.User.Umalloc

/-! The blocks of the user heap tile the memory from sbrk, and the free list holds the free ones in the order of addresses. -/

namespace Xv6.User.FreeList

open Lib.Chain Umalloc Function List

variable {base : Nat} {h h' : Heap} {a b n : Nat} {blocks : Finset Nat}

section Fields
variable {p q x : Nat}

@[simp] theorem ptr_setPtr_self : (h.setPtr p q).ptr p = q := by
  simp [Heap.ptr, Heap.setPtr]

theorem ptr_setPtr_of_ne (other : x ≠ p) : (h.setPtr p q).ptr x = h.ptr x := by
  simp [Heap.ptr, Heap.setPtr, update_of_ne other]

@[simp] theorem size_setPtr : (h.setPtr p q).size x = h.size x := by
  simp only [Heap.size, Heap.setPtr]
  by_cases same : x = p
  · rw [same, update_self]
  · rw [update_of_ne same]

@[simp] theorem ptr_setSize : (h.setSize p n).ptr x = h.ptr x := by
  simp only [Heap.ptr, Heap.setSize]
  by_cases same : x = p
  · rw [same, update_self]
  · rw [update_of_ne same]

theorem size_setSize_self (fits : n < 2 ^ 32) : (h.setSize p n).size p = n := by
  simp only [Heap.size, Heap.setSize, update_self, Nat.mod_eq_of_lt fits]

theorem size_setSize_of_ne (other : x ≠ p) : (h.setSize p n).size x = h.size x := by
  simp [Heap.size, Heap.setSize, update_of_ne other]

@[simp] theorem stop_setPtr : (h.setPtr p q).stop x = h.stop x := by
  rw [Heap.stop, size_setPtr, Heap.stop]

theorem stop_setSize_of_ne (other : x ≠ p) : (h.setSize p n).stop x = h.stop x := by
  rw [Heap.stop, size_setSize_of_ne other, Heap.stop]

theorem stop_setSize_self (fits : n < 2 ^ 32) : (h.setSize p n).stop p = p + headerSize * n := by
  rw [Heap.stop, size_setSize_self fits]

end Fields

def obtained (h : Heap) : Nat := (h.got.map Grant.units).sum

def HasUnit (a n u : Nat) : Prop := ∃ i < n, u = a + headerSize * i

/-- The blocks are disjoint, and each unit obtained from sbrk is a unit of one of them. The headers said what sbrk gave. -/
structure Tiling (base : Nat) (h : Heap) (blocks : Finset Nat) : Prop where
  above : ∀ a ∈ blocks, base < a
  nonempty : ∀ a ∈ blocks, 0 < h.size a
  below : ∀ a ∈ blocks, h.stop a ≤ h.brk
  apart : ∀ a ∈ blocks, ∀ b ∈ blocks, a < b → h.stop a ≤ b
  total : ∑ a ∈ blocks, h.size a = obtained h
  cover : ∀ u, (∃ g ∈ h.got, HasUnit g.address g.units u) ↔ ∃ a ∈ blocks, HasUnit a (h.size a) u
  recorded : ∀ g ∈ h.got, g.argument = (headerSize * g.recorded : Nat)

section
variable (tiling : Tiling base h blocks)
include tiling

theorem Tiling.congr (sizes : ∀ a ∈ blocks, h'.size a = h.size a) (brk : h'.brk = h.brk)
    (got : h'.got = h.got) : Tiling base h' blocks := by
  have stops : ∀ a ∈ blocks, h'.stop a = h.stop a := fun a member => by rw [Heap.stop, Heap.stop, sizes a member]
  refine ⟨tiling.above, fun a member => ?_, fun a member => ?_, fun a member b other less => ?_, ?_, fun x => ?_,
    got ▸ tiling.recorded⟩
  · rw [sizes a member]
    exact tiling.nonempty a member
  · rw [stops a member, brk]
    exact tiling.below a member
  · rw [stops a member]
    exact tiling.apart a member b other less
  · rw [obtained, got, Finset.sum_congr rfl sizes]
    exact tiling.total
  · rw [got, tiling.cover]
    refine exists_congr fun a => and_congr_right fun member => ?_
    rw [sizes a member]

omit tiling in
theorem lt_stop (full : 0 < h.size a) : a < h.stop a := by
  rw [Heap.stop, headerSize]
  omega

theorem Tiling.sizes (left : a ∈ blocks) (right : b ∈ blocks) (other : a ≠ b) : h.size a + h.size b ≤ obtained h := by
  rw [← tiling.total, ← Finset.add_sum_erase blocks h.size left,
    ← Finset.add_sum_erase (blocks.erase a) h.size (Finset.mem_erase.mpr ⟨other.symm, right⟩)]
  omega

omit tiling in
theorem hasUnit_add {m u : Nat} : HasUnit a (m + n) u ↔ HasUnit a m u ∨ HasUnit (a + headerSize * m) n u := by
  constructor
  · rintro ⟨i, inside, rfl⟩
    by_cases half : i < m
    · exact .inl ⟨i, half, rfl⟩
    · refine .inr ⟨i - m, by omega, ?_⟩
      rw [Nat.add_assoc, ← Nat.mul_add, Nat.add_sub_cancel' (not_lt.mp half)]
  · rintro (⟨i, inside, rfl⟩ | ⟨i, inside, rfl⟩)
    · exact ⟨i, by omega, rfl⟩
    · exact ⟨m + i, by omega, by rw [Nat.mul_add, Nat.add_assoc]⟩

omit tiling in
theorem tiling_cut {rest : Finset Nat} (fresh : a ∉ rest) (fresh' : b ∉ rest) (first : 0 < h'.size a)
    (second : 0 < h'.size b) (adjacent : h'.stop a = b) (whole : h.size a = h'.size a + h'.size b)
    (keeps : ∀ x ∈ rest, h'.size x = h.size x) (brk : h'.brk = h.brk) (got : h'.got = h.got) :
    Tiling base h (insert a rest) ↔ Tiling base h' (insert a (insert b rest)) := by
  have less : a < b := adjacent ▸ lt_stop first
  have longer : b < h'.stop b := lt_stop second
  have stop : h.stop a = h'.stop b := by
    rw [Heap.stop, whole, Nat.mul_add, ← Nat.add_assoc]
    exact congrArg (· + headerSize * h'.size b) adjacent
  have stays : ∀ x ∈ rest, h'.stop x = h.stop x := fun x inside => by rw [Heap.stop, Heap.stop, keeps x inside]
  have total : ∑ x ∈ insert a rest, h.size x = ∑ x ∈ insert a (insert b rest), h'.size x := by
    rw [Finset.sum_insert fresh, Finset.sum_insert (by simp [less.ne, fresh]), Finset.sum_insert fresh', whole,
      Finset.sum_congr rfl keeps, Nat.add_assoc]
  have cover : ∀ u, (∃ c ∈ insert a rest, HasUnit c (h.size c) u) ↔
      ∃ c ∈ insert a (insert b rest), HasUnit c (h'.size c) u := by
    intro u
    have next : a + headerSize * h'.size a = b := adjacent
    simp only [Finset.exists_mem_insert, whole, hasUnit_add, or_assoc, next]
    refine or_congr_right (or_congr_right (exists_congr fun c => and_congr_right fun inside => ?_))
    rw [keeps c inside]
  constructor <;> rintro ⟨above, nonempty, below, apart, total', cover', recorded⟩
  all_goals simp only [Finset.forall_mem_insert, stop] at above nonempty below apart
  · refine ⟨?_, ?_, ?_, ?_, ?_, fun u => ?_, got ▸ recorded⟩
    · simp only [Finset.forall_mem_insert]
      exact ⟨above.1, above.1.trans less, above.2⟩
    · simp only [Finset.forall_mem_insert]
      exact ⟨first, second, fun x inside => keeps x inside ▸ nonempty.2 x inside⟩
    · simp only [Finset.forall_mem_insert, adjacent, brk]
      exact ⟨longer.le.trans below.1, below.1, fun x inside => stays x inside ▸ below.2 x inside⟩
    · simp only [Finset.forall_mem_insert, adjacent]
      refine ⟨⟨fun same => absurd same (lt_irrefl a), fun _ => le_rfl, fun y inside later => ?_⟩,
        ⟨fun back => absurd back less.not_gt, fun same => absurd same (lt_irrefl b), fun y inside later => ?_⟩,
        fun x inside => ⟨?_, ?_, fun y other => ?_⟩⟩
      · exact longer.le.trans (apart.1.2 y inside later)
      · exact apart.1.2 y inside (less.trans later)
      all_goals rw [stays x inside]
      · exact (apart.2 x inside).1
      · intro before
        rcases lt_trichotomy x a with earlier | same | later
        · exact ((apart.2 x inside).1 earlier).trans less.le
        · exact absurd inside (same ▸ fresh)
        · have := apart.1.2 x inside later
          omega
      · exact (apart.2 x inside).2 y other
    · rw [← total, total', obtained, obtained, got]
    · rw [got, cover', cover]
  · refine ⟨?_, ?_, ?_, ?_, ?_, fun u => ?_, got ▸ recorded⟩
    · simp only [Finset.forall_mem_insert]
      exact ⟨above.1, above.2.2⟩
    · simp only [Finset.forall_mem_insert, whole]
      exact ⟨Nat.add_pos_left first _, fun x inside => keeps x inside ▸ nonempty.2.2 x inside⟩
    · simp only [Finset.forall_mem_insert, stop, ← brk]
      exact ⟨below.2.1, fun x inside => stays x inside ▸ below.2.2 x inside⟩
    · simp only [Finset.forall_mem_insert, stop]
      refine ⟨⟨fun same => absurd same (lt_irrefl a), fun y inside later => ?_⟩, fun x inside => ⟨?_, fun y other => ?_⟩⟩
      · have beyond := apart.1.2.2 y inside later
        rw [adjacent] at beyond
        exact apart.2.1.2.2 y inside (lt_of_le_of_ne beyond fun same => fresh' (same ▸ inside))
      all_goals rw [← stays x inside]
      · exact (apart.2.2 x inside).1
      · exact (apart.2.2 x inside).2.2 y other
    · rw [total, total', obtained, obtained, got]
    · rw [← got, cover', cover]

theorem Tiling.join (small : obtained h < 2 ^ 32) (left : a ∈ blocks) (right : b ∈ blocks)
    (adjacent : h.stop a = b) : Tiling base (h.setSize a (h.size a + h.size b)) (blocks.erase b) := by
  have less : a < b := adjacent ▸ lt_stop (tiling.nonempty a left)
  have sizes := tiling.sizes left right less.ne
  have inside : a ∈ blocks.erase b := Finset.mem_erase.mpr ⟨less.ne, left⟩
  have parts : insert a (insert b ((blocks.erase b).erase a)) = blocks := by
    rw [Finset.insert_comm, Finset.insert_erase inside, Finset.insert_erase right]
  rw [← Finset.insert_erase inside]
  refine (tiling_cut (by simp) (by simp) (tiling.nonempty a left) (tiling.nonempty b right) adjacent
    (size_setSize_self (by omega)) (fun x member => ?_) rfl rfl).mpr (parts.symm ▸ tiling)
  exact (size_setSize_of_ne (Finset.ne_of_mem_erase member)).symm

theorem Tiling.size_le (member : a ∈ blocks) : h.size a ≤ obtained h :=
  tiling.total ▸ Finset.single_le_sum (fun _ _ => Nat.zero_le _) member

theorem Tiling.split (member : a ∈ blocks) (some : 0 < n)
    (less : n < h.size a) (cut : h'.size a = h.size a - n) (tail : h'.size (h'.stop a) = n)
    (keeps : ∀ x, x ≠ a → x ≠ h'.stop a → h'.size x = h.size x) (brk : h'.brk = h.brk) (got : h'.got = h.got) :
    h'.stop a ∉ blocks ∧ h'.stop (h'.stop a) = h.stop a ∧ Tiling base h' (insert (h'.stop a) blocks) := by
  obtain ⟨q, same⟩ : ∃ q, q = h'.stop a := ⟨_, rfl⟩
  rw [← same] at tail keeps ⊢
  have inner : a < q ∧ q < h.stop a := by
    rw [same, Heap.stop, Heap.stop, cut, headerSize]
    omega
  have ends : h'.stop q = h.stop a := by
    rw [Heap.stop, tail, same, Heap.stop, Heap.stop, cut, headerSize]
    omega
  have fresh : q ∉ blocks := fun inside => absurd (tiling.apart a member q inside inner.1) (by omega)
  have parts : insert a (insert q (blocks.erase a)) = insert q blocks := by
    rw [Finset.insert_comm, Finset.insert_erase member]
  rw [← Finset.insert_erase member] at tiling
  refine ⟨fresh, ends, parts ▸ (tiling_cut (by simp) (by simp [fresh]) (by omega) (by omega) same.symm (by omega)
    (fun x inside => ?_) brk got).mp tiling⟩
  obtain ⟨other, inside⟩ := Finset.mem_erase.mp inside
  exact keeps x other fun equal => fresh (equal ▸ inside)

theorem Tiling.grow (room : base < h.brk) (later : h.brk ≤ a) (some : 0 < n)
    (new : h'.size a = n) (keeps : ∀ x, x ≠ a → h'.size x = h.size x) (brk : h'.brk = a + headerSize * n)
    (got : h'.got = ⟨a, (headerSize * n : Nat), n⟩ :: h.got) : a ∉ blocks ∧ Tiling base h' (insert a blocks) := by
  have before : ∀ x ∈ blocks, x < a := fun x inside =>
    (lt_stop (tiling.nonempty x inside)).trans_le ((tiling.below x inside).trans later)
  have fresh : a ∉ blocks := fun inside => lt_irrefl a (before a inside)
  have sizes : ∀ x ∈ blocks, h'.size x = h.size x := fun x inside => keeps x (before x inside).ne
  have stays : ∀ x ∈ blocks, h'.stop x = h.stop x := fun x inside => by rw [Heap.stop, Heap.stop, sizes x inside]
  have ends : h'.stop a = a + headerSize * n := by rw [Heap.stop, new]
  have given : Grant.units ⟨a, (headerSize * n : Nat), n⟩ = n := Nat.mul_div_cancel_left n (by decide)
  refine ⟨fresh, fun x inside => ?_, fun x inside => ?_, fun x inside => ?_, fun x inside y other less => ?_, ?_, fun x => ?_,
    got ▸ forall_mem_cons.mpr ⟨rfl, tiling.recorded⟩⟩
  · rcases Finset.mem_insert.mp inside with rfl | inside
    · exact room.trans_le later
    · exact tiling.above x inside
  · rcases Finset.mem_insert.mp inside with rfl | inside
    · exact new.symm ▸ some
    · exact (sizes x inside).symm ▸ tiling.nonempty x inside
  · rw [brk]
    rcases Finset.mem_insert.mp inside with rfl | inside
    · exact ends.le
    · rw [stays x inside]
      exact ((tiling.below x inside).trans later).trans (Nat.le_add_right _ _)
  · rcases Finset.mem_insert.mp inside with rfl | old <;> rcases Finset.mem_insert.mp other with rfl | older
    · exact absurd less (lt_irrefl _)
    · exact absurd less (before y older).not_gt
    · rw [stays x old]
      exact (tiling.below x old).trans later
    · rw [stays x old]
      exact tiling.apart x old y older less
  · rw [Finset.sum_insert fresh, new, Finset.sum_congr rfl sizes, tiling.total, obtained, obtained, got, map_cons, sum_cons,
      given]
  · rw [got]
    simp only [exists_mem_cons_iff, tiling.cover, Finset.exists_mem_insert, new, given]
    refine or_congr_right (exists_congr fun c => and_congr_right fun inside => ?_)
    rw [sizes c inside]

end

variable {list before after : List Nat} {live : Finset Nat} {p bp : Nat}

/-- The list from base on and back to it, in the order of addresses and with a gap between any two of its blocks; with the
blocks in use these are the blocks of the heap. -/
structure Shape (base : Nat) (h : Heap) (list : List Nat) (live : Finset Nat) : Prop where
  starts : list.head? = some base
  links : Links h.ptr list base
  gaps : list.Pairwise fun a b => h.stop a < b
  empty : h.size base = 0
  freep : h.freep ∈ list
  room : base < h.brk
  used : ∀ a ∈ list, a ∉ live
  tiling : Tiling base h (list.toFinset.erase base ∪ live)

theorem le_stop : a ≤ h.stop a := Nat.le_add_right _ _

theorem Shape.sorted (shape : Shape base h list live) : list.Pairwise (· < ·) :=
  shape.gaps.imp fun gap => le_stop.trans_lt gap

theorem Shape.exists_ring (shape : Shape base h list live) : ∃ ring, list = base :: ring := by
  cases list with
  | nil => cases shape.starts
  | cons a ring => exact ⟨ring, by rw [Option.some.inj shape.starts]⟩

theorem Shape.base_mem (shape : Shape base h list live) : base ∈ list :=
  mem_of_mem_head? shape.starts

/-- Between the two parts of free: bp leads on, but nothing leads to it yet. -/
structure Loose (base : Nat) (h : Heap) (before : List Nat) (p bp : Nat) (after : List Nat) (live : Finset Nat) : Prop where
  starts : (before ++ [p]).head? = some base
  first : Links h.ptr before p
  links : Links h.ptr (bp :: after) base
  gaps : (before ++ p :: after).Pairwise fun a b => h.stop a < b
  below : p < bp
  beyond : ∀ c ∈ after, h.stop bp < c
  empty : h.size base = 0
  room : base < h.brk
  used : ∀ a ∈ before ++ p :: bp :: after, a ∉ live
  tiling : Tiling base h ((before ++ p :: bp :: after).toFinset.erase base ∪ live)

theorem head_append_cons : (before ++ p :: after).head? = (before ++ [p]).head? := by
  cases before <;> rfl

theorem Shape.outside (shape : Shape base h list live) (member : bp ∈ live) : ∀ a ∈ list, a ≠ bp :=
  fun a free equal => shape.used a free (equal ▸ member)

theorem Shape.stops (shape : Shape base h list live) (member : bp ∈ live) (free : a ∈ list) (beyond : bp < a) :
    a ∈ list.toFinset.erase base ∪ live ∧ h.stop bp ≤ a := by
  have inside : bp ∈ list.toFinset.erase base ∪ live := Finset.mem_union_right _ member
  have above := shape.tiling.above bp inside
  have block : a ∈ list.toFinset.erase base ∪ live :=
    Finset.mem_union_left _ (Finset.mem_erase.mpr ⟨by omega, mem_toFinset.mpr free⟩)
  exact ⟨block, shape.tiling.apart bp inside a block beyond⟩

theorem Shape.link (shape : Shape base h (before ++ p :: after) live) (member : bp ∈ live) (below : p < bp)
    (beyond : ∀ c ∈ after, bp < c) (apart : h.stop bp ≠ after.headD base) :
    Loose base (h.setPtr bp (after.headD base)) before p bp after (live.erase bp) := by
  have outside := shape.outside member
  obtain ⟨first, -, links⟩ := links_append.mp shape.links
  refine ⟨head_append_cons.symm.trans shape.starts, ?_, ⟨ptr_setPtr_self, ?_⟩, ?_, below, ?_, ?_, shape.room, ?_, ?_⟩
  · exact first.congr fun x free => ptr_setPtr_of_ne (outside x (by simp [free]))
  · exact links.congr fun x free => ptr_setPtr_of_ne (outside x (by simp [free]))
  · simpa only [stop_setPtr] using shape.gaps
  · intro c free
    rw [stop_setPtr]
    cases after with
    | nil => cases free
    | cons d after =>
      have stop := (shape.stops member (a := d) (by simp) (beyond d mem_cons_self)).2
      have least : d ≤ c := by
        rcases mem_cons.mp free with rfl | later
        · exact le_rfl
        · have sorted := (pairwise_append.mp shape.sorted).2.1
          exact (rel_of_pairwise_cons (pairwise_cons.mp sorted).2 later).le
      exact (lt_of_le_of_ne stop apart).trans_le least
  · rw [size_setPtr]
    exact shape.empty
  · intro a free inside
    obtain ⟨other, inside⟩ := Finset.mem_erase.mp inside
    refine shape.used a ?_ inside
    simpa [other] using free
  · have same : (before ++ p :: bp :: after).toFinset.erase base ∪ live.erase bp =
        (before ++ p :: after).toFinset.erase base ∪ live := by
      have above := shape.tiling.above bp (Finset.mem_union_right _ member)
      ext x
      by_cases this : x = bp
      · simp [this, member, above.ne']
      · simp [this]
    rw [same]
    exact shape.tiling.congr (fun _ _ => size_setPtr) rfl rfl

theorem Shape.merge {c : Nat} (shape : Shape base h (before ++ p :: c :: after) live) (small : obtained h < 2 ^ 32)
    (member : bp ∈ live) (below : p < bp) (adjacent : h.stop bp = c) :
    Loose base ((h.setSize bp (h.size bp + h.size c)).setPtr bp (h.ptr c)) before p bp after (live.erase bp) := by
  have outside := shape.outside member
  have inside : bp ∈ (before ++ p :: c :: after).toFinset.erase base ∪ live := Finset.mem_union_right _ member
  have above := shape.tiling.above bp inside
  have less : bp < c := adjacent ▸ lt_stop (shape.tiling.nonempty bp inside)
  have block := (shape.stops member (a := c) (by simp) less).1
  have fits : h.size bp + h.size c < 2 ^ 32 := (shape.tiling.sizes inside block less.ne).trans_lt small
  obtain ⟨first, -, follows, links⟩ := links_append.mp shape.links
  obtain ⟨-, later, -⟩ := pairwise_append.mp shape.gaps
  have beyond : ∀ d ∈ after, h.stop c < d := fun d free =>
    rel_of_pairwise_cons (pairwise_cons.mp later).2 free
  have keeps : ∀ x ∈ before ++ p :: c :: after,
      ((h.setSize bp (h.size bp + h.size c)).setPtr bp (h.ptr c)).stop x = h.stop x := by
    intro x free
    rw [stop_setPtr, stop_setSize_of_ne (outside x free)]
  have sub : (before ++ p :: after).Sublist (before ++ p :: c :: after) := by simp
  refine ⟨head_append_cons.symm.trans shape.starts, ?_, ⟨ptr_setPtr_self.trans follows, ?_⟩, ?_, below, ?_, ?_, shape.room, ?_, ?_⟩
  · exact first.congr fun x free => by rw [ptr_setPtr_of_ne (outside x (by simp [free])), ptr_setSize]
  · exact links.congr fun x free => by rw [ptr_setPtr_of_ne (outside x (by simp [free])), ptr_setSize]
  · refine (shape.gaps.sublist sub).imp_of_mem fun {x y} left _ gap => ?_
    rw [keeps x (sub.subset left)]
    exact gap
  · intro d free
    rw [stop_setPtr, stop_setSize_self fits, Nat.mul_add, ← Nat.add_assoc]
    exact (congrArg (· + headerSize * h.size c) adjacent).trans_lt (beyond d free)
  · rw [size_setPtr, size_setSize_of_ne above.ne]
    exact shape.empty
  · intro a free inside
    obtain ⟨other, inside⟩ := Finset.mem_erase.mp inside
    refine shape.used a (sub.subset ?_) inside
    simpa [other] using free
  · have same : (before ++ p :: bp :: after).toFinset.erase base ∪ live.erase bp =
        ((before ++ p :: c :: after).toFinset.erase base ∪ live).erase c := by
      have fresh : c ∉ before ++ p :: after := by
        have nodup : ((before ++ [p]) ++ c :: after).Nodup := by
          rw [append_assoc]
          exact shape.sorted.imp ne_of_lt
        simpa using (nodup_cons.mp (nodup_middle.mp nodup)).1
      have unused : c ∉ live := shape.used c (by simp)
      ext x
      by_cases this : x = bp
      · simp [this, member, above.ne', less.ne]
      · by_cases here : x = c
        · simp only [mem_append, mem_cons, not_or] at fresh
          simp [here, fresh, less.ne', unused]
        · simp [this, here]
    rw [same]
    exact (shape.tiling.join small inside block adjacent).congr (fun _ _ => size_setPtr) rfl rfl

section
variable (loose : Loose base h before p bp after live)
include loose

theorem Loose.base_le : base = p ∨ base < p := by
  have starts := loose.starts
  cases before with
  | nil => exact .inl (Option.some.inj starts).symm
  | cons a before =>
    obtain rfl : a = base := Option.some.inj starts
    exact .inr (le_stop.trans_lt (rel_of_pairwise_cons loose.gaps (by simp)))

omit loose in
theorem Loose.block (above : base < a) (free : a ∈ before ++ p :: bp :: after) :
    a ∈ (before ++ p :: bp :: after).toFinset.erase base ∪ live :=
  Finset.mem_union_left _ (Finset.mem_erase.mpr ⟨above.ne', mem_toFinset.mpr free⟩)

theorem Loose.stop_le : h.stop p ≤ bp := by
  rcases loose.base_le with same | above
  · rw [← same, Heap.stop, loose.empty]
    exact (same ▸ loose.below).le
  · exact loose.tiling.apart p (Loose.block above (by simp)) bp (Loose.block (above.trans loose.below) (by simp)) loose.below

theorem Loose.link (apart : h.stop p ≠ bp) :
    Shape base { h.setPtr p bp with freep := p } (before ++ p :: bp :: after) live := by
  obtain ⟨earlier, later, across⟩ := pairwise_append.mp loose.gaps
  obtain ⟨behind, rest⟩ := pairwise_cons.mp later
  have gap : h.stop p < bp := lt_of_le_of_ne loose.stop_le apart
  have first : ∀ x ∈ before, x ≠ p := fun x free => (le_stop.trans_lt (across x free p mem_cons_self)).ne
  have last : ∀ x ∈ bp :: after, x ≠ p := by
    intro x free
    rcases mem_cons.mp free with rfl | free
    · exact loose.below.ne'
    · exact (le_stop.trans_lt (behind x free)).ne'
  refine ⟨head_append_cons.trans loose.starts, links_append.mpr ⟨?_, ptr_setPtr_self, ?_⟩, ?_, ?_, by simp, loose.room,
    loose.used, ?_⟩
  · exact loose.first.congr fun x free => ptr_setPtr_of_ne (first x free)
  · exact loose.links.congr fun x free => ptr_setPtr_of_ne (last x free)
  · show (before ++ p :: bp :: after).Pairwise fun a b => (h.setPtr p bp).stop a < b
    simp only [stop_setPtr]
    refine pairwise_append.mpr ⟨earlier, pairwise_cons.mpr ⟨fun x free => ?_, ?_⟩, fun x free y other => ?_⟩
    · rcases mem_cons.mp free with rfl | free
      · exact gap
      · exact behind x free
    · exact pairwise_cons.mpr ⟨loose.beyond, rest⟩
    · rcases mem_cons.mp other with rfl | other
      · exact across x free y mem_cons_self
      · rcases mem_cons.mp other with rfl | other
        · exact (across x free p mem_cons_self).trans loose.below
        · exact across x free y (mem_cons_of_mem p other)
  · exact size_setPtr.trans loose.empty
  · exact loose.tiling.congr (fun _ _ => size_setPtr) rfl rfl

theorem Loose.merge (small : obtained h < 2 ^ 32) (adjacent : h.stop p = bp) :
    Shape base { (h.setSize p (h.size p + h.size bp)).setPtr p (h.ptr bp) with freep := p } (before ++ p :: after) live := by
  have above : base < p := by
    refine loose.base_le.resolve_left fun same => absurd adjacent ?_
    rw [← same, Heap.stop, loose.empty]
    exact (same ▸ loose.below).ne
  have left : p ∈ (before ++ p :: bp :: after).toFinset.erase base ∪ live := Loose.block above (by simp)
  have right : bp ∈ (before ++ p :: bp :: after).toFinset.erase base ∪ live :=
    Loose.block (above.trans loose.below) (by simp)
  have fits : h.size p + h.size bp < 2 ^ 32 := (loose.tiling.sizes left right loose.below.ne).trans_lt small
  obtain ⟨earlier, later, across⟩ := pairwise_append.mp loose.gaps
  obtain ⟨behind, rest⟩ := pairwise_cons.mp later
  have first : ∀ x ∈ before, x ≠ p := fun x free => (le_stop.trans_lt (across x free p mem_cons_self)).ne
  have last : ∀ x ∈ after, x ≠ p := fun x free => (le_stop.trans_lt (behind x free)).ne'
  set h' := (h.setSize p (h.size p + h.size bp)).setPtr p (h.ptr bp)
  have ptrs : ∀ x, x ≠ p → h'.ptr x = h.ptr x := fun x other => by rw [ptr_setPtr_of_ne other, ptr_setSize]
  have stops : ∀ x, x ≠ p → h'.stop x = h.stop x := fun x other => by rw [stop_setPtr, stop_setSize_of_ne other]
  have stop : h'.stop p = h.stop bp := by
    rw [stop_setPtr, stop_setSize_self fits, Nat.mul_add, ← Nat.add_assoc]
    exact congrArg (· + headerSize * h.size bp) adjacent
  refine ⟨head_append_cons.trans loose.starts, links_append.mpr ⟨?_, ?_, ?_⟩, ?_, ?_, by simp, loose.room,
    fun a free => loose.used a ?_, ?_⟩
  · exact loose.first.congr fun x free => ptrs x (first x free)
  · exact ptr_setPtr_self.trans loose.links.1
  · exact loose.links.2.congr fun x free => ptrs x (last x free)
  · show (before ++ p :: after).Pairwise fun a b => h'.stop a < b
    refine pairwise_append.mpr ⟨?_, pairwise_cons.mpr ⟨fun x free => ?_, ?_⟩, fun x free y other => ?_⟩
    · exact earlier.imp_of_mem fun {x y} free _ gap => (stops x (first x free)).symm ▸ gap
    · rw [stop]
      exact loose.beyond x free
    · exact rest.imp_of_mem fun {x y} free _ gap => (stops x (last x free)).symm ▸ gap
    · rw [stops x (first x free)]
      exact across x free y other
  · exact size_setPtr.trans ((size_setSize_of_ne above.ne).trans loose.empty)
  · simp only [mem_append, mem_cons] at free ⊢
    tauto
  · have same : (before ++ p :: after).toFinset.erase base ∪ live =
        ((before ++ p :: bp :: after).toFinset.erase base ∪ live).erase bp := by
      have unused : bp ∉ live := loose.used bp (by simp)
      have away : bp ∉ before := fun free => absurd (across bp free p mem_cons_self)
        (loose.below.le.trans le_stop).not_gt
      have beyond : bp ∉ after := fun free => absurd (loose.beyond bp free) le_stop.not_gt
      ext x
      by_cases this : x = bp
      · simp [this, unused, away, beyond, loose.below.ne']
      · simp [this]
    rw [same]
    exact (loose.tiling.join small left right adjacent).congr (fun _ _ => size_setPtr) rfl rfl

end

theorem size_joinNext (other : a ≠ bp) : (joinNext h bp p).size a = h.size a := by
  rw [joinNext]
  split_ifs
  · exact size_setPtr.trans (size_setSize_of_ne other)
  · exact size_setPtr

theorem size_joinPrev (other : a ≠ p) : (joinPrev h bp p).size a = h.size a := by
  rw [joinPrev]
  split_ifs
  · exact size_setPtr.trans (size_setSize_of_ne other)
  · exact size_setPtr

theorem joinNext_range : (joinNext h bp p).got = h.got ∧ (joinNext h bp p).brk = h.brk := by
  rw [joinNext]
  split_ifs <;> exact ⟨rfl, rfl⟩

theorem joinPrev_range : (joinPrev h bp p).got = h.got ∧ (joinPrev h bp p).brk = h.brk := by
  rw [joinPrev]
  split_ifs <;> exact ⟨rfl, rfl⟩

theorem Shape.loose (shape : Shape base h (before ++ p :: after) live) (small : obtained h < 2 ^ 32) (member : bp ∈ live)
    (below : p < bp) (beyond : ∀ c ∈ after, bp < c) : ∃ rest, rest.length ≤ after.length ∧
      Loose base (joinNext h bp p) before p bp rest (live.erase bp) ∧ h.size bp ≤ (joinNext h bp p).size bp := by
  have inside : bp ∈ (before ++ p :: after).toFinset.erase base ∪ live := Finset.mem_union_right _ member
  have follows : h.ptr p = after.headD base := (links_append.mp shape.links).2.1
  by_cases adjacent : h.stop bp = h.ptr p
  · have less : bp < h.ptr p := adjacent ▸ lt_stop (shape.tiling.nonempty bp inside)
    cases after with
    | nil =>
      rw [follows] at less
      exact absurd less (shape.tiling.above bp inside).not_gt
    | cons c after =>
      obtain rfl : h.ptr p = c := follows
      have block := (shape.stops member (a := h.ptr p) (by simp) less).1
      have fits := (shape.tiling.sizes inside block less.ne).trans_lt small
      simp only [joinNext, if_pos adjacent, ptr_setSize]
      refine ⟨after, Nat.le_succ _, shape.merge small member below adjacent, ?_⟩
      rw [size_setPtr, size_setSize_self fits]
      exact Nat.le_add_right _ _
  · simp only [joinNext, if_neg adjacent]
    refine ⟨after, le_rfl, ?_, size_setPtr.ge⟩
    rw [follows] at adjacent ⊢
    exact shape.link member below beyond adjacent

theorem Loose.shape (loose : Loose base h before p bp after live) (small : obtained h < 2 ^ 32) :
    ∃ list, list.length ≤ before.length + after.length + 2 ∧ Shape base { joinPrev h bp p with freep := p } list live ∧
      ∃ a ∈ list, h.size bp ≤ (joinPrev h bp p).size a := by
  by_cases adjacent : h.stop p = bp
  · have shape := loose.merge small adjacent
    simp only [joinPrev, if_pos adjacent, ptr_setSize]
    refine ⟨before ++ p :: after, ?_, shape, p, by simp, ?_⟩
    · rw [length_append, length_cons]
      omega
    · have above : base < p := by
        refine loose.base_le.resolve_left fun same => absurd adjacent ?_
        rw [← same, Heap.stop, loose.empty]
        exact (same ▸ loose.below).ne
      have fits := (loose.tiling.sizes (Loose.block above (by simp)) (Loose.block (above.trans loose.below) (by simp))
        loose.below.ne).trans_lt small
      rw [size_setPtr, size_setSize_self fits]
      exact Nat.le_add_left _ _
  · simp only [joinPrev, if_neg adjacent]
    refine ⟨before ++ p :: bp :: after, ?_, loose.link adjacent, bp, by simp, size_setPtr.ge⟩
    simp only [length_append, length_cons]
    omega

theorem Shape.leaves_iff (shape : Shape base h (before ++ p :: after) live) (above : base < bp) :
    leaves h bp p = true ↔ p < bp ∧ ∀ c ∈ after, bp < c := by
  have follows : h.ptr p = after.headD base := (links_append.mp shape.links).2.1
  obtain ⟨-, sorted, across⟩ := pairwise_append.mp shape.sorted
  have least : base ≤ p := by
    have starts := shape.starts
    cases before with
    | nil => exact (Option.some.inj starts).ge
    | cons a before =>
      obtain rfl : a = base := Option.some.inj starts
      exact (across a mem_cons_self p mem_cons_self).le
  simp only [leaves, follows, Bool.or_eq_true, Bool.and_eq_true, decide_eq_true_eq]
  cases after with
  | nil =>
    simp only [headD_nil, not_mem_nil, false_imp_iff, implies_true, and_true]
    omega
  | cons c after =>
    have less := rel_of_pairwise_cons sorted mem_cons_self
    have rest := (pairwise_cons.mp (pairwise_cons.mp sorted).2).1
    simp only [headD_cons, forall_mem_cons]
    refine ⟨fun leaves => ?_, fun ⟨below, beyond, _⟩ => .inl ⟨below, beyond⟩⟩
    obtain ⟨below, beyond⟩ : p < bp ∧ bp < c := by omega
    exact ⟨below, beyond, fun d member => beyond.trans (rest d member)⟩

theorem Shape.freed (shape : Shape base h list live) (small : obtained h < 2 ^ 32) (member : bp ∈ live) {fuel : Nat}
    (enough : list.length ≤ fuel) : ∃ h' list', free fuel h (bp + headerSize) = some h' ∧ Shape base h' list' (live.erase bp) ∧
      h'.got = h.got ∧ (∀ u ∈ live, u ≠ bp → h'.size u = h.size u) ∧ list'.length ≤ list.length + 1 ∧
      ∃ a ∈ list', h.size bp ≤ h'.size a := by
  have above := shape.tiling.above bp (Finset.mem_union_right _ member)
  obtain ⟨ring, rfl⟩ := shape.exists_ring
  obtain ⟨r, links, perm⟩ := shape.links.rotate shape.freep
  -- the search meets an element where the loop leaves
  have passes : ∃ x ∈ h.freep :: r, leaves h bp x = true := by
    obtain ⟨first, x, last, split, below, beyond⟩ := exists_split shape.sorted above
      fun free => shape.used bp (mem_cons_of_mem base free) member
    refine ⟨x, perm.mem_iff.mpr (split ▸ by simp), ?_⟩
    exact (Shape.leaves_iff (split ▸ shape) above).mpr ⟨below, beyond⟩
  obtain ⟨x, inside, leaves, found⟩ := links.search passes (perm.length_eq.trans_le enough)
  obtain ⟨first, last, split⟩ := append_of_mem (perm.mem_iff.mp inside)
  rw [split] at shape enough ⊢
  obtain ⟨below, beyond⟩ := (shape.leaves_iff above).mp leaves
  obtain ⟨rest, shorter, loose, larger⟩ := shape.loose small member below beyond
  have range : (joinNext h bp x).got = h.got ∧ (joinNext h bp x).brk = h.brk := joinNext_range
  obtain ⟨list', bound, after, a, listed, size⟩ := loose.shape (by rw [obtained, range.1]; exact small)
  refine ⟨_, list', by rw [free, Nat.add_sub_cancel, found]; rfl, after, ?_, fun u used other => ?_, ?_, a,
    listed, larger.trans size⟩
  · exact joinPrev_range.1.trans range.1
  · have elsewhere : u ≠ x := fun same => shape.used x (by simp) (same ▸ used)
    exact (size_joinPrev elsewhere).trans (size_joinNext other)
  · simp only [length_append, length_cons]
    omega

end Xv6.User.FreeList
