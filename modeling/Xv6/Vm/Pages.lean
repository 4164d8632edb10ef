import Xv6.Vm.Copy
import Xv6.Vm.UserMem
import Xv6.Sched.Table

/-! Every page of memory and who holds it: the view of the whole system, of which an operation on one
address space sees a part. -/

namespace Xv6.Vm.Pages
open Lib.Ownership Lib.Exec Memory Pagetable Entry Space Moves Walk Unmap Alloc Shape Copy Function List
open Sched.Table (Slot)

/-- Whose page table it is: the kernel's, a process's, or the one that exec is building. -/
inductive Owner where
  | kernel
  | proc (i : Slot)
  | image
  deriving DecidableEq

inductive Use where
  | free
  | hand
  | table (o : Owner) (p : Path)
  | leaf (o : Owner) (v : Vpn)
  | trapframe (i : Slot)
  | kstack (i : Slot)
  | queue (k : Fin 3)
  | pipe
  deriving DecidableEq

/-- The pointers to pages that the kernel keeps; hand are the pages that the running operation has in
local variables. -/
structure Holders where
  root : Owner → Option Nat
  hand : List Nat
  trapframe : Slot → Option Nat
  kstack : Slot → Option Nat
  queue : Fin 3 → Option Nat
  pipe : Nat → Prop

/-- The virtual pages of an owner whose frames belong to it; the kernel maps all of memory. -/
def userOf : Owner → Vpn → Prop
  | .kernel, _ => False
  | _, v => userVpn v

def Uses (g : Holders) (s : Mem) : Use → Nat → Prop
  | .free, x => x ∈ s.freelist
  | .hand, x => x ∈ g.hand
  | .table o p, x => ∃ r, g.root o = some r ∧ tableAt s r p = some x
  | .leaf o v, x => ∃ r pte, g.root o = some r ∧ userOf o v ∧ leafAt s r v = some pte ∧ PTE2PA pte = x
  | .trapframe i, x => g.trapframe i = some x
  | .kstack i, x => g.kstack i = some x
  | .queue k, x => g.queue k = some x
  | .pipe, x => g.pipe x

/-- The roles that an operation on the tree of o sees. -/
def embed (o : Owner) : Role → Use
  | .free => .free
  | .hand => .hand
  | .table p => .table o p
  | .leaf v => .leaf o v

theorem embed_injective (o : Owner) : Injective (embed o) := by
  intro first second same
  cases first <;> cases second <;> simp_all [embed]

theorem uses_embed (g : Holders) (s : Mem) (o : Owner) (role : Role) (x : Nat) :
    Uses g s (embed o role) x ↔ Owns (userOf o) s (g.root o) g.hand role x := by
  cases role with
  | free => rw [owns_free]; rfl
  | hand => rw [owns_hand]; rfl
  | table p => rw [owns_table]; rfl
  | leaf v => rw [owns_leaf]; rfl

/-- The image of exec and the address space of a process trade places. -/
def Holders.swap (g : Holders) (i : Slot) : Holders := { g with root := g.root ∘ Equiv.swap .image (.proc i) }

theorem userOf_swap (i : Slot) (o : Owner) : userOf (Equiv.swap .image (.proc i) o) = userOf o := by
  by_cases image : o = .image
  · subst image
    rw [Equiv.swap_apply_left]
    rfl
  · by_cases own : o = .proc i
    · subst own
      rw [Equiv.swap_apply_right]
      rfl
    · rw [Equiv.swap_apply_of_ne_of_ne image own]

structure Untouched (s s' : Mem) (o : Owner) (r : Nat) : Prop where
  tables : SameTables s s' r
  data : ∀ v pte, userOf o v → leafAt s r v = some pte → s'.page (PTE2PA pte) = s.page (PTE2PA pte)

theorem Untouched.refl (s : Mem) (o : Owner) (r : Nat) : Untouched s s o r := ⟨fun _ _ _ => rfl, fun _ _ _ _ => rfl⟩

theorem Untouched.trans {s s' s'' : Mem} {o : Owner} {r : Nat} (first : Untouched s s' o r) (second : Untouched s' s'' o r) :
    Untouched s s'' o r where
  tables p x found := by
    rw [second.tables p x (by rw [tableAt_congr first.tables]; exact found), first.tables p x found]
  data v pte inside found := by
    rw [second.data v pte inside (by rw [leafAt_congr first.tables]; exact found), first.data v pte inside found]

variable [Layout]

/-- Each page of memory has exactly one use. -/
structure Good (g : Holders) (s : Mem) : Prop where
  wf : ∀ o r, g.root o = some r → WellFormed s r
  exclusive : Exclusive (Uses g s)
  nodup : s.freelist.Nodup ∧ g.hand.Nodup
  covers : ∀ x, Owned (Uses g s) x ↔ InRam x

variable {g : Holders} {s : Mem}

theorem Good.part (good : Good g s) (o : Owner) : Local (userOf o) s (g.root o) g.hand where
  wf := good.wf o
  exclusive first second x ownsFirst ownsSecond := by
    have same := good.exclusive (embed o first) (embed o second) x ((uses_embed g s o first x).mpr ownsFirst)
      ((uses_embed g s o second x).mpr ownsSecond)
    exact embed_injective o same
  nodup := good.nodup
  ram x := by
    rintro ⟨role, own⟩
    exact (good.covers x).mp ⟨embed o role, (uses_embed g s o role x).mpr own⟩

theorem Good.outside (good : Good g s) (o : Owner) (use : Use) (x : Nat) (uses : Uses g s use x)
    (other : ∀ role, use ≠ embed o role) : ¬Owned (Owns (userOf o) s (g.root o) g.hand) x := by
  rintro ⟨role, own⟩
  exact other role (good.exclusive use (embed o role) x uses ((uses_embed g s o role x).mpr own))

/-- The system after an operation on the tree of o. -/
def Holders.replace (g : Holders) (o : Owner) (root : Option Nat) (hand : List Nat) : Holders :=
  { g with root := update g.root o root, hand := hand }

variable {s' : Mem} {root : Option Nat} {hand : List Nat}

theorem Good.tables (good : Good g s) (o o' : Owner) (different : o' ≠ o)
    (step : Step (userOf o) s (g.root o) g.hand s' root hand) (r : Nat) (here : g.root o' = some r) :
    SameTables s s' r := by
  intro p table found
  refine step.frame table (good.outside o (.table o' p) table ⟨r, here, found⟩ fun role => ?_)
  cases role <;> simp [embed, different]

theorem Good.uses_replace (good : Good g s) (o : Owner) (step : Step (userOf o) s (g.root o) g.hand s' root hand)
    (use : Use) (x : Nat) (other : ∀ role, use ≠ embed o role) :
    Uses (g.replace o root hand) s' use x ↔ Uses g s use x := by
  cases use with
  | free => exact absurd rfl (other .free)
  | hand => exact absurd rfl (other .hand)
  | table o' p =>
    have different : o' ≠ o := by
      rintro rfl
      exact other (.table p) rfl
    simp only [Uses, Holders.replace, update_of_ne different]
    refine exists_congr fun r => and_congr_right fun here => ?_
    rw [tableAt_congr (good.tables o o' different step r here)]
  | leaf o' v =>
    have different : o' ≠ o := by
      rintro rfl
      exact other (.leaf v) rfl
    simp only [Uses, Holders.replace, update_of_ne different]
    refine exists_congr fun r => exists_congr fun pte => and_congr_right fun here => ?_
    rw [leafAt_congr (good.tables o o' different step r here)]
  | trapframe i | kstack i | queue k | pipe => exact Iff.rfl

theorem Good.replace (good : Good g s) (o : Owner) (safe : Local (userOf o) s' root hand)
    (step : Step (userOf o) s (g.root o) g.hand s' root hand) : Good (g.replace o root hand) s' := by
  have replaces : Replaces (embed o) (Uses g s) (Uses (g.replace o root hand) s')
      (Owns (userOf o) s (g.root o) g.hand) (Owns (userOf o) s' root hand) := by
    refine ⟨uses_embed g s o, fun role x => ?_, good.uses_replace o step, embed_injective o, safe.exclusive, step.owned⟩
    rw [uses_embed]
    simp [Holders.replace]
  refine ⟨fun o' r here => ?_, replaces.whole_exclusive _ _ _ _ _ good.exclusive, safe.nodup, fun x => ?_⟩
  · by_cases same : o' = o
    · subst same
      exact safe.wf r (by simpa [Holders.replace] using here)
    · have here' : g.root o' = some r := by simpa [Holders.replace, same] using here
      exact wellFormed_congr (good.tables o o' same step r here') (good.wf o' r here')
  · rw [replaces.whole_owned _ _ _ _ _ x]
    exact good.covers x

variable {g' : Holders}

theorem Good.moves (good : Good g s) (x : Nat) (use : Use) (moves : Moves (Uses g s) (Uses g' s) x use)
    (had : Owned (Uses g s) x) (roots : g'.root = g.root) (nodup : g'.hand.Nodup) : Good g' s where
  wf o r here := good.wf o r (by rw [← roots]; exact here)
  exclusive := moves.exclusive _ _ x use good.exclusive
  nodup := ⟨good.nodup.1, nodup⟩
  covers y := by rw [moves.owned _ _ x use had, good.covers]

/-- The uses that a pointer outside the page tables gives. -/
def Fixed : Use → Prop
  | .trapframe _ | .kstack _ | .queue _ | .pipe => True
  | _ => False

omit [Layout] in
theorem uses_bare (roots : g'.root = g.root) {use : Use}
    (same : ∀ use' y, Fixed use' → use' ≠ use → (Uses g' s use' y ↔ Uses g s use' y)) (use' : Use) (unheld : use' ≠ .hand)
    (other : use' ≠ use) (y : Nat) : Uses g' s use' y ↔ Uses g s use' y := by
  cases use' with
  | free => exact Iff.rfl
  | hand => exact absurd rfl unheld
  | table o p | leaf o v => simp only [Uses, roots]
  | _ => exact same _ y trivial other

theorem Good.give (good : Good g s) (x : Nat) (rest : List Nat) (use : Use) (held : g.hand = x :: rest)
    (fixed : Fixed use) (roots : g'.root = g.root) (hand' : g'.hand = rest)
    (took : ∀ y, Uses g' s use y ↔ y = x ∨ Uses g s use y)
    (same : ∀ use' y, Fixed use' → use' ≠ use → (Uses g' s use' y ↔ Uses g s use' y)) : Good g' s := by
  have own : Uses g s .hand x := by simp [Uses, held]
  have nodup : x ∉ rest ∧ rest.Nodup := nodup_cons.mp (held ▸ good.nodup.2)
  have moves := good.exclusive.moves own (fun hand : .hand = use => by rw [← hand] at fixed; exact fixed)
    (fun y => by simp only [Uses, held, hand']; exact mem_tail nodup.1 y) took (uses_bare roots same)
  exact good.moves x use moves ⟨_, own⟩ roots (by rw [hand']; exact nodup.2)

theorem Good.take (good : Good g s) (x : Nat) (use : Use) (own : Uses g s use x)
    (fixed : Fixed use) (roots : g'.root = g.root) (hand' : g'.hand = x :: g.hand)
    (same : ∀ use' y, Fixed use' → use' ≠ use → (Uses g' s use' y ↔ Uses g s use' y))
    (gone : ∀ y, Uses g' s use y ↔ Uses g s use y ∧ y ≠ x) : Good g' s := by
  have listed : use ≠ .hand := fun hand => by rw [hand] at fixed; exact fixed
  have moves := good.exclusive.moves own listed gone (fun y => by simp only [Uses, hand', mem_cons])
    (fun use' other unheld => uses_bare roots same use' unheld other)
  have unheld : x ∉ g.hand := fun member => listed (good.exclusive use .hand x own member)
  exact good.moves x .hand moves ⟨_, own⟩ roots (hand' ▸ nodup_cons.mpr ⟨unheld, good.nodup.2⟩)

theorem Good.setPage (good : Good g s) (use : Use) (x : Nat) (content : Page) (own : Uses g s use x)
    (other : ∀ o p, use ≠ .table o p) : Good g (s.setPage x content) ∧
      ∀ o r, g.root o = some r → SameTables s (s.setPage x content) r := by
  have tables : ∀ o r, g.root o = some r → SameTables s (s.setPage x content) r := by
    intro o r here
    refine sameTables_setPage fun p found => ?_
    exact other o p (good.exclusive use (.table o p) x own ⟨r, here, found⟩)
  have same : ∀ use' y, Uses g (s.setPage x content) use' y ↔ Uses g s use' y := by
    intro use' y
    cases use' with
    | table o p =>
      refine exists_congr fun r => and_congr_right fun here => ?_
      rw [tableAt_congr (tables o r here)]
    | leaf o v =>
      refine exists_congr fun r => exists_congr fun pte => and_congr_right fun here => ?_
      rw [leafAt_congr (tables o r here)]
    | _ => exact Iff.rfl
  refine ⟨⟨fun o r here => wellFormed_congr (tables o r here) (good.wf o r here), ?_, good.nodup, fun y => ?_⟩, tables⟩
  · intro first second y usesFirst usesSecond
    exact good.exclusive first second y ((same first y).mp usesFirst) ((same second y).mp usesSecond)
  · rw [← good.covers y]
    exact exists_congr fun use' => same use' y

theorem Good.swap (good : Good g s) (i : Slot) : Good (g.swap i) s := by
  let rename : Use → Use
    | .table o p => .table (Equiv.swap .image (.proc i) o) p
    | .leaf o v => .leaf (Equiv.swap .image (.proc i) o) v
    | use => use
  have involutive : ∀ use, rename (rename use) = use := by
    intro use
    cases use <;> simp [rename]
  have renamed : ∀ use x, Uses (g.swap i) s use x ↔ Uses g s (rename use) x := by
    intro use x
    cases use with
    | leaf o v => simp only [Uses, rename, Holders.swap, Function.comp_apply, userOf_swap]
    | _ => exact Iff.rfl
  refine ⟨fun o r here => good.wf _ r here, fun first second x usesFirst usesSecond => ?_, good.nodup, fun x => ?_⟩
  · have same := good.exclusive _ _ x ((renamed first x).mp usesFirst) ((renamed second x).mp usesSecond)
    rw [← involutive first, same, involutive]
  · rw [← good.covers x]
    constructor
    · rintro ⟨use, uses⟩
      exact ⟨rename use, (renamed use x).mp uses⟩
    · rintro ⟨use, uses⟩
      exact ⟨rename use, (renamed _ x).mpr (by rw [involutive]; exact uses)⟩

/-- An address space of the given size, with the trapframe of its process. -/
structure Shaped (s : Mem) (r sz trapframe : Nat) : Prop where
  filled : Filled s r (pages sz)
  reserved : Reserved s r trapframe

omit [Layout] in
theorem userByte_of_leaf {r va pte : Nat} (low : va < MAXVA) (leaf : leafAt s r (vpn va) = some pte) (page : PTE2PA pte ≠ 0) :
    UserMem.userByte s r va = if User pte then some (Lib.Bytes.byteAt (s.page (PTE2PA pte)) (va % PGSIZE)) else none := by
  unfold UserMem.userByte UserMem.translate
  rw [if_neg (Nat.not_le.mpr low), leaf]
  by_cases user : User pte
  · simp [user, page]
  · simp [user]

omit [Layout] in
theorem userByte_unmapped {r va : Nat} (leaf : leafAt s r (vpn va) = none) : UserMem.userByte s r va = none := by
  apply UserMem.userByte_none
  unfold UserMem.translate
  rw [leaf]
  split <;> rfl

theorem userByte_kernel {r va trapframe : Nat} (top : Reserved s r trapframe) (outside : ¬userVpn (vpn va)) :
    UserMem.userByte s r va = none := by
  apply UserMem.userByte_none
  by_contra mapped
  obtain ⟨x, found⟩ := Option.ne_none_iff_exists'.mp mapped
  cases UserMem.translate_owns [] top va x found with
  | leaf r' pte v root inside leaf => exact outside inside

variable {hand : List Nat}

theorem userByte_copied {old new sz trapframe trapframe' : Nat}
    (source : Shaped s old sz trapframe) (target : Shaped s new 0 trapframe')
    (extended : Extended (CopyOf s old) s new hand 0 (pages sz) s') (va : Nat)
    (ram : ∀ v pte, userVpn v → leafAt s old v = some pte → InRam (PTE2PA pte)) :
    UserMem.userByte s' new va = UserMem.userByte s old va := by
  by_cases high : MAXVA ≤ va
  · rw [UserMem.userByte_none (if_pos high), UserMem.userByte_none (if_pos high)]
  have low := Nat.lt_of_not_le high
  by_cases inside : userVpn (vpn va)
  · by_cases below : (vpn va).page < pages sz
    · obtain ⟨pte, x, perm, leaf, reads, pte', leaf', flags, content⟩ := extended.fresh (vpn va) (Nat.zero_le _) below
      have fresh : InRam (PTE2PA pte) := extended.safe.ram _ ⟨_, Owns.leaf new pte (vpn va) rfl inside leaf⟩
      have user : User pte ↔ User pte' := by rw [reads.user, flags, flags_eq, ← user_low]
      rw [userByte_of_leaf low leaf (inRam_ne_zero fresh), userByte_of_leaf low leaf' (inRam_ne_zero (ram _ _ inside leaf')),
        reads.page, content]
      simp only [user]
    · have kept := extended.leaves (vpn va) (fun range => below range.2)
      rw [userByte_unmapped (kept.trans (target.filled.above _ inside (Nat.zero_le _))),
        userByte_unmapped (source.filled.above _ inside (Nat.le_of_not_lt below))]
  · have bound := source.filled.bound
    have kept : Reserved s' new trapframe' := by
      refine target.reserved.congr fun v outside => extended.leaves v ?_
      rw [userVpn_iff] at outside
      omega
    rw [userByte_kernel kept inside, userByte_kernel source.reserved inside]

theorem userByte_extended {entry : Vpn → Nat → Page → Prop} {r lo hi : Nat}
    (extended : Extended entry s r hand lo hi s') (va : Nat) (user : userVpn (vpn va)) (low : (vpn va).page < lo) :
    UserMem.userByte s' r va = UserMem.userByte s r va :=
  UserMem.userByte_same (extended.leaves (vpn va) (by omega)) fun pte leaf =>
    extended.data (.leaf (vpn va)) _ (Owns.leaf r pte _ rfl user leaf) nofun
      nofun

theorem userByte_shrunk {r lo hi : Nat} (done : Unmapped userVpn s r hand lo hi s') (va : Nat)
    (user : userVpn (vpn va)) (low : (vpn va).page < lo) : UserMem.userByte s' r va = UserMem.userByte s r va := by
  refine UserMem.userByte_same ?_ fun pte leaf => ?_
  · rw [done.leaves, if_neg (by omega)]
  · refine done.data (.leaf (vpn va)) _ (Owns.leaf r pte _ rfl user leaf) nofun
      nofun fun v same => ?_
    obtain rfl := Role.leaf.inj same
    omega

theorem Shaped.congr {r sz trapframe : Nat} (shaped : Shaped s r sz trapframe) (tables : SameTables s s' r) :
    Shaped s' r sz trapframe where
  filled := shaped.filled.grown (leafAt_congr tables)
  reserved := shaped.reserved.congr fun w _ => leafAt_congr tables w

theorem Shaped.grown {r sz trapframe : Nat} (shaped : Shaped s r sz trapframe)
    (grown : Grown userVpn s r hand s') : Shaped s' r sz trapframe where
  filled := shaped.filled.grown grown.leaves
  reserved := shaped.reserved.congr fun w _ => grown.leaves w

theorem Shaped.extended {entry : Vpn → Nat → Page → Prop} {r sz sz' trapframe : Nat}
    (shaped : Shaped s r sz trapframe) (extended : Extended entry s r hand (pages sz) (pages sz') s')
    (order : pages sz ≤ pages sz') : Shaped s' r sz' trapframe where
  filled := shaped.filled.extended extended order (Extended.bound shaped.filled extended)
  reserved := by
    have bound := Extended.bound shaped.filled extended
    refine shaped.reserved.congr fun w outside => extended.leaves w ?_
    rw [userVpn_iff] at outside
    omega

theorem Shaped.unmapped {r sz newsz trapframe : Nat} (shaped : Shaped s r sz trapframe)
    (done : Unmapped userVpn s r hand (pages newsz) (pages sz) s') : Shaped s' r (min sz newsz) trapframe where
  filled := by
    have monotone : Monotone pages := fun _ _ order => Nat.div_le_div_right (by omega)
    rw [monotone.map_min, min_comm]
    exact shaped.filled.unmapped done
  reserved := by
    have bound := shaped.filled.bound
    refine shaped.reserved.congr fun w outside => ?_
    rw [userVpn_iff] at outside
    rw [done.leaves w, if_neg (by omega)]

/-- Every page has one use and every process a whole address space. -/
structure Sound (g : Holders) (sz : Slot → Nat) (s : Mem) : Prop where
  good : Good g s
  spaces : ∀ i r, g.root (.proc i) = some r → ∃ trapframe, g.trapframe i = some trapframe ∧ Shaped s r (sz i) trapframe

variable {sz : Slot → Nat}

section
variable (sound : Sound g sz s)
include sound

theorem Sound.replace {sz' : Slot → Nat} (o : Owner) (safe : Local (userOf o) s' root hand)
    (step : Step (userOf o) s (g.root o) g.hand s' root hand) (same : ∀ i, o ≠ .proc i → sz' i = sz i)
    (own : ∀ i r, o = .proc i → root = some r → ∃ trapframe, g.trapframe i = some trapframe ∧
      Shaped s' r (sz' i) trapframe) : Sound (g.replace o root hand) sz' s' where
  good := sound.good.replace o safe step
  spaces i r here := by
    by_cases mine : o = .proc i
    · subst mine
      exact own i r rfl (by simpa [Holders.replace] using here)
    · have here' : g.root (.proc i) = some r := by
        simpa [Holders.replace, update_of_ne (Ne.symm mine)] using here
      obtain ⟨trapframe, frame, shaped⟩ := sound.spaces i r here'
      refine ⟨trapframe, frame, ?_⟩
      rw [same i mine]
      exact shaped.congr (sound.good.tables o (.proc i) (Ne.symm mine) step r here')

theorem Sound.setPage (use : Use) (x : Nat) (content : Page) (own : Uses g s use x)
    (other : ∀ o p, use ≠ .table o p) : Sound g sz (s.setPage x content) := by
  obtain ⟨good, tables⟩ := sound.good.setPage use x content own other
  refine ⟨good, fun i r here => ?_⟩
  obtain ⟨trapframe, frame, shaped⟩ := sound.spaces i r here
  exact ⟨trapframe, frame, shaped.congr (tables _ r here)⟩

theorem Sound.sizes {sz' : Slot → Nat} (same : ∀ i, g.root (.proc i) ≠ none → sz' i = sz i) : Sound g sz' s := by
  refine ⟨sound.good, fun i r here => ?_⟩
  rw [same i (by rw [here]; exact Option.some_ne_none _)]
  exact sound.spaces i r here

theorem Sound.swap (i : Slot) (free : g.root .image = none) : Sound (g.swap i) sz s := by
  refine ⟨sound.good.swap i, fun j r here => ?_⟩
  by_cases same : j = i
  · subst same
    simp [Holders.swap, free] at here
  · refine sound.spaces j r ?_
    have apart : Equiv.swap Owner.image (.proc i) (.proc j) = .proc j :=
      Equiv.swap_apply_of_ne_of_ne nofun (fun equal => same (Owner.proc.inj equal))
    simpa [Holders.swap, apart] using here

theorem Sound.commit (i : Slot) (r n trapframe : Nat) (image : g.root .image = some r)
    (frame : g.trapframe i = some trapframe) (shaped : Shaped s r n trapframe) :
    Sound (g.swap i) (update sz i n) s := by
  refine ⟨sound.good.swap i, fun j r' here => ?_⟩
  by_cases same : j = i
  · subst same
    rw [update_self]
    have there : g.root .image = some r' := by simpa [Holders.swap] using here
    obtain rfl := Option.some.inj (image.symm.trans there)
    exact ⟨trapframe, frame, shaped⟩
  · rw [update_of_ne same]
    refine sound.spaces j r' ?_
    have apart : Equiv.swap Owner.image (.proc i) (.proc j) = .proc j :=
      Equiv.swap_apply_of_ne_of_ne nofun (fun equal => same (Owner.proc.inj equal))
    simpa [Holders.swap, apart] using here

omit sound in
theorem Good.bare (good : Good g s) (o : Owner) (free : g.root o = none) : Local (userOf o) s none g.hand := by
  have part := good.part o
  rwa [free] at part

theorem Sound.lists (safe : Local (userOf .image) s' (g.root .image) hand)
    (step : Step (userOf .image) s (g.root .image) g.hand s' (g.root .image) hand) :
    Sound { g with hand := hand } sz s' := by
  have replaced := sound.replace .image safe step (fun _ _ => rfl) nofun
  rwa [Holders.replace, update_eq_self] at replaced

end

theorem Good.untouched (good : Good g s) (o o' : Owner) (different : o' ≠ o)
    (step : Step (userOf o) s (g.root o) g.hand s' root hand) (r : Nat) (here : g.root o' = some r) :
    Untouched s s' o' r where
  tables := good.tables o o' different step r here
  data v pte inside found := by
    refine step.frame _ (good.outside o (.leaf o' v) _ ⟨r, pte, here, inside, found, rfl⟩ fun role => ?_)
    cases role <;> simp [embed, different]

theorem Good.untouched_page (good : Good g s) (use : Use) (x : Nat) (own : Uses g s use x) (noTable : ∀ o p, use ≠ .table o p)
    (noLeaf : ∀ o v, use ≠ .leaf o v) (others : ∀ y, y ≠ x → s'.page y = s.page y) (o : Owner) (r : Nat)
    (here : g.root o = some r) : Untouched s s' o r where
  tables p y found := by
    refine others y ?_
    rintro rfl
    exact noTable o p (good.exclusive use (.table o p) y own ⟨r, here, found⟩)
  data v pte inside found := by
    refine others _ ?_
    rintro rfl
    exact noLeaf o v (good.exclusive use (.leaf o v) _ own ⟨r, pte, here, inside, found, rfl⟩)

theorem kfree_sound (sound : Sound g sz s) (x : Nat) (rest : List Nat) (held : g.hand = x :: rest) :
    Ends (kfree x) s (fun _ s' => Sound { g with hand := rest } sz s' ∧
      (∀ o r, g.root o = some r → Untouched s s' o r) ∧ ∀ y, y ≠ x → s'.page y = s.page y) := by
  have part := sound.good.part .image
  rw [held] at part
  apply Ends.weaken (kfree_ends x part)
  rintro _ s' ⟨_, freed⟩
  have step := freed.step
  rw [← held] at step
  exact ⟨sound.lists freed.safe step, sound.good.untouched_page Use.hand x (by simp [Uses, held])
    nofun nofun freed.others, freed.others⟩

theorem kalloc_sound (sound : Sound g sz s) :
    Ends kalloc s (fun result s' => (result = none ∧ s' = s ∧ s.freelist = []) ∨ ∃ x, result = some x ∧
      Sound { g with hand := x :: g.hand } sz s' ∧ (∀ o r, g.root o = some r → Untouched s s' o r) ∧
        (∀ y, y ≠ x → s'.page y = s.page y) ∧ s.freelist = x :: s'.freelist) := by
  apply Ends.weaken (kalloc_ends (sound.good.part .image))
  rintro result s' (⟨rfl, rfl, none⟩ | ⟨x, rfl, alloc⟩)
  · exact Or.inl ⟨rfl, rfl, none⟩
  · refine Or.inr ⟨x, rfl, sound.lists alloc.safe alloc.step, ?_, alloc.others, alloc.taken⟩
    exact sound.good.untouched_page .free x (by simp [Uses, alloc.taken]) nofun
      nofun alloc.others

section Pointers
variable {x : Nat} {rest : List Nat}

section
variable (sound : Sound g sz s)
include sound

theorem Sound.giveTrapframe (i : Slot) (held : g.hand = x :: rest) (free : g.trapframe i = none) :
    Sound { g with hand := rest, trapframe := update g.trapframe i (some x) } sz s := by
  refine ⟨sound.good.give x rest (.trapframe i) held trivial rfl rfl (fun y => ?_) (fun use y fixed other => ?_),
    fun j r here => ?_⟩
  · simp [Uses, free, eq_comm]
  · cases use with
    | trapframe j => simp only [Uses, update_of_ne fun same : j = i => other (congrArg _ same)]
    | hand => exact fixed.elim
    | _ => exact Iff.rfl
  · obtain ⟨trapframe, frame, shaped⟩ := sound.spaces j r here
    have other : j ≠ i := by
      rintro rfl
      rw [free] at frame
      cases frame
    exact ⟨trapframe, by simpa [other] using frame, shaped⟩

theorem Sound.takeTrapframe (i : Slot) (frame : g.trapframe i = some x) (gone : g.root (.proc i) = none) :
    Sound { g with hand := x :: g.hand, trapframe := update g.trapframe i none } sz s := by
  refine ⟨sound.good.take x (.trapframe i) frame trivial rfl rfl (fun use y fixed other => ?_) (fun y => ?_),
    fun j r here => ?_⟩
  · cases use with
    | trapframe j => simp only [Uses, update_of_ne fun same : j = i => other (congrArg _ same)]
    | hand => exact fixed.elim
    | _ => exact Iff.rfl
  · simp [Uses, frame, eq_comm]
  · obtain ⟨trapframe, frame', shaped⟩ := sound.spaces j r here
    have other : j ≠ i := by
      rintro rfl
      rw [gone] at here
      cases here
    exact ⟨trapframe, by simpa [other] using frame', shaped⟩

theorem Sound.giveKstack (i : Slot) (held : g.hand = x :: rest) (free : g.kstack i = none) :
    Sound { g with hand := rest, kstack := update g.kstack i (some x) } sz s := by
  refine ⟨sound.good.give x rest (.kstack i) held trivial rfl rfl (fun y => ?_) (fun use y fixed other => ?_), sound.spaces⟩
  · simp [Uses, free, eq_comm]
  · cases use with
    | kstack j => simp only [Uses, update_of_ne fun same : j = i => other (congrArg _ same)]
    | hand => exact fixed.elim
    | _ => exact Iff.rfl

theorem Sound.giveQueue (k : Fin 3) (held : g.hand = x :: rest) (free : g.queue k = none) :
    Sound { g with hand := rest, queue := update g.queue k (some x) } sz s := by
  refine ⟨sound.good.give x rest (.queue k) held trivial rfl rfl (fun y => ?_) (fun use y fixed other => ?_), sound.spaces⟩
  · simp [Uses, free, eq_comm]
  · cases use with
    | queue j => simp only [Uses, update_of_ne fun same : j = k => other (congrArg _ same)]
    | hand => exact fixed.elim
    | _ => exact Iff.rfl

theorem Sound.givePipe (pipe : Nat → Prop) (held : g.hand = x :: rest)
    (more : ∀ y, pipe y ↔ y = x ∨ g.pipe y) : Sound { g with hand := rest, pipe := pipe } sz s := by
  refine ⟨sound.good.give x rest .pipe held trivial rfl rfl more (fun use y fixed other => ?_), sound.spaces⟩
  cases use with
  | pipe => exact absurd rfl other
  | hand => exact fixed.elim
  | _ => exact Iff.rfl

theorem Sound.takePipe (pipe : Nat → Prop) (here : g.pipe x)
    (fewer : ∀ y, pipe y ↔ g.pipe y ∧ y ≠ x) : Sound { g with hand := x :: g.hand, pipe := pipe } sz s := by
  refine ⟨sound.good.take x .pipe here trivial rfl rfl (fun use y fixed other => ?_) fewer, sound.spaces⟩
  cases use with
  | pipe => exact absurd rfl other
  | hand => exact fixed.elim
  | _ => exact Iff.rfl

end

end Pointers

/-- The uses that no operation on the memory of one process concerns. -/
def Elsewhere (p : Slot) : Use → Prop
  | .free | .hand => False
  | .table o _ | .leaf o _ => o ≠ .proc p ∧ o ≠ .image
  | .trapframe i => i ≠ p
  | .kstack _ | .queue _ | .pipe => True

/-- Every page that is used elsewhere keeps its use and its content, and no other page gets such a use. -/
def Spares (p : Slot) (g : Holders) (s : Mem) (g' : Holders) (s' : Mem) : Prop :=
  ∀ use x, Elsewhere p use → (Uses g' s' use x ↔ Uses g s use x) ∧ (Uses g s use x → s'.page x = s.page x)

section Spares
variable {p : Slot} {g' g'' : Holders} {s'' : Mem}

omit [Layout] in
theorem Spares.refl (p : Slot) (g : Holders) (s : Mem) : Spares p g s g s := fun _ _ _ => ⟨Iff.rfl, fun _ => rfl⟩

omit [Layout] in
theorem Spares.trans (first : Spares p g s g' s') (second : Spares p g' s' g'' s'') : Spares p g s g'' s'' := by
  intro use x away
  obtain ⟨same, content⟩ := first use x away
  obtain ⟨same', content'⟩ := second use x away
  exact ⟨same'.trans same, fun uses => (content' (same.mpr uses)).trans (content uses)⟩

omit [Layout] in
theorem Spares.pointers (p : Slot) (g g' : Holders) (s : Mem)
    (roots : ∀ o, o ≠ .proc p → o ≠ .image → g'.root o = g.root o) (frames : ∀ i, i ≠ p → g'.trapframe i = g.trapframe i)
    (kernel : g'.kstack = g.kstack ∧ g'.queue = g.queue) (pipes : g'.pipe = g.pipe) : Spares p g s g' s := by
  intro use x away
  refine ⟨?_, fun _ => rfl⟩
  cases use with
  | free | hand => exact away.elim
  | table o q | leaf o v => simp only [Uses, roots o away.1 away.2]
  | trapframe i => simp only [Uses, frames i away]
  | kstack i => simp only [Uses, kernel.1]
  | queue k => simp only [Uses, kernel.2]
  | pipe => simp only [Uses, pipes]

omit [Layout] in
theorem Elsewhere.outside {o : Owner} (own : o = .proc p ∨ o = .image) {use : Use} (away : Elsewhere p use) (role : Role) :
    use ≠ embed o role := by
  rintro rfl
  cases role with
  | free | hand => exact away
  | table q | leaf v => exact own.elim away.1 away.2

theorem Good.spares_step (good : Good g s) (o : Owner) (own : o = .proc p ∨ o = .image)
    (step : Step (userOf o) s (g.root o) g.hand s' root hand) : Spares p g s (g.replace o root hand) s' := by
  intro use x away
  exact ⟨good.uses_replace o step use x (away.outside own),
    fun uses => step.frame x (good.outside o use x uses (away.outside own))⟩

theorem Good.spares_lists (good : Good g s)
    (step : Step (userOf .image) s (g.root .image) g.hand s' (g.root .image) hand) :
    Spares p g s { g with hand := hand } s' := by
  have replaced := good.spares_step (p := p) .image (Or.inr rfl) step
  rwa [Holders.replace, update_eq_self] at replaced

theorem Good.spares_page (good : Good g s) (use : Use) (x : Nat) (own : Uses g s use x) (near : ¬Elsewhere p use)
    (others : ∀ y, y ≠ x → s'.page y = s.page y) : Spares p g s g s' := by
  have page : ∀ use' y, Elsewhere p use' → Uses g s use' y → s'.page y = s.page y := by
    intro use' y away uses
    refine others y ?_
    rintro rfl
    exact near (good.exclusive use' use y uses own ▸ away)
  intro use' y away
  refine ⟨?_, page use' y away⟩
  cases use' with
  | free | hand => exact away.elim
  | table o q =>
    refine exists_congr fun r => and_congr_right fun here => ?_
    rw [tableAt_congr fun q' t there => page (.table o q') t away ⟨r, here, there⟩]
  | leaf o v =>
    refine exists_congr fun r => exists_congr fun pte => and_congr_right fun here => ?_
    rw [leafAt_congr fun q' t there => page (.table o q') t away ⟨r, here, there⟩]
  | trapframe i | kstack i | queue k | pipe => exact Iff.rfl

omit [Layout] in
theorem Spares.untouched (spares : Spares p g s g' s') (o : Owner) (other : o ≠ .proc p ∧ o ≠ .image) (r : Nat)
    (here : g.root o = some r) : Untouched s s' o r where
  tables q t found := (spares (.table o q) t other).2 ⟨r, here, found⟩
  data v pte inside found := (spares (.leaf o v) _ other).2 ⟨r, pte, here, inside, found, rfl⟩

theorem Good.uses_closed (good : Good g s) (bare : g.root .image = none) (closed : Closed s none g.hand s') (use : Use)
    (x : Nat) (used : use ≠ .free) : (Uses g s' use x ↔ Uses g s use x) ∧ (Uses g s use x → s'.page x = s.page x) := by
  by_cases inner : ∃ role, use = embed .image role
  · obtain ⟨role, rfl⟩ := inner
    cases role with
    | free => exact absurd rfl used
    | hand => exact ⟨Iff.rfl, closed.data x⟩
    | table p | leaf v => simp [embed, Uses, bare]
  · have outer : ∀ role, use ≠ embed .image role := fun role equal => inner ⟨role, equal⟩
    have step := closed.step
    rw [← bare] at step
    have same := good.uses_replace .image step use x outer
    rw [Holders.replace, update_eq_self] at same
    exact ⟨same, fun uses => step.frame x (good.outside .image use x uses outer)⟩

theorem Good.freelist_perm (good : Good g s) (good' : Good g' s')
    (kept : ∀ use x, use ≠ .free → (Uses g' s' use x ↔ Uses g s use x)) : s'.freelist.Perm s.freelist := by
  have unused : ∀ {g s}, Good g s → ∀ x, x ∈ s.freelist ↔ InRam x ∧ ∀ use, use ≠ .free → ¬Uses g s use x := by
    intro g s good x
    constructor
    · intro listed
      have free : Uses g s .free x := listed
      exact ⟨(good.covers x).mp ⟨.free, free⟩, fun use other uses => other (good.exclusive use .free x uses free)⟩
    · rintro ⟨ram, only⟩
      obtain ⟨use, uses⟩ := (good.covers x).mpr ram
      by_cases free : use = .free
      · subst free
        exact uses
      · exact absurd uses (only use free)
  rw [perm_ext_iff_of_nodup good'.nodup.1 good.nodup.1]
  intro x
  rw [unused good' x, unused good x]
  refine and_congr_right fun _ => forall_congr' fun use => imp_congr_right fun other => ?_
  rw [kept use x other]

end Spares

end Xv6.Vm.Pages
