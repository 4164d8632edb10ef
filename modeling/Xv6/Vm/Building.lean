import Xv6.Vm.Exec

/-! exec builds its image: at every stage it is a whole address space, and it holds what the file says. -/

namespace Xv6.Vm.Building
open Lib.Ownership Lib.Exec Lib.Bytes Memory Pagetable Entry Space Moves Walk Unmap Alloc Shape Copy UserMem Pages Exec List

def AllUser (s : Mem) (r n : Nat) : Prop := ∀ (w : Vpn) pte, w.page < n → leafAt s r w = some pte → User pte

variable [Layout]

/-- An address space of n pages that the operation has set up since s₀. -/
structure Live (s₀ : Mem) (r : Nat) (hand : List Nat) (n trapframe : Nat) (s : Mem) : Prop where
  opened : Opened s₀ r hand s
  filled : Filled s r n
  reserved : Reserved s r trapframe

variable {s₀ s s' : Mem} {r n trapframe : Nat} {hand : List Nat}

section
variable (live : Live s₀ r hand n trapframe s)
include live

theorem Live.safe : Local userVpn s (some r) hand := live.opened.safe

theorem Live.size : n ≤ 2 ^ 15 := live.filled.small live.safe

theorem Live.extended {entry : Vpn → Nat → Page → Prop} {m : Nat}
    (extended : Extended entry s r hand n m s') (order : n ≤ m) : Live s₀ r hand m trapframe s' where
  opened := by
    refine ⟨extended.safe, live.opened.step.trans extended.step, fun x held => ?_⟩
    rw [extended.data .hand x (Owns.hand x held) nofun nofun,
      live.opened.data x held]
  filled := live.filled.extended extended order (Extended.bound live.filled extended)
  reserved := live.reserved.congr fun w outside => extended.leaves w fun range =>
    outside ((userVpn_iff w).mpr (lt_of_lt_of_le range.2 (Extended.bound live.filled extended)))

theorem Live.grown (grown : Grown userVpn s r hand s') : Live s₀ r hand n trapframe s' where
  opened := live.opened.grown grown
  filled := live.filled.grown grown.leaves
  reserved := live.reserved.congr fun w _ => grown.leaves w

theorem Live.stored {dst : Nat} {src : List Byte} {ok : Bool}
    (stored : Stored s r hand dst src ok s') : Live s₀ r hand n trapframe s' where
  opened := by
    refine ⟨stored.safe, live.opened.step.trans stored.step, fun x held => ?_⟩
    rw [stored.others x fun va found => ?_, live.opened.data x held]
    nomatch live.safe.exclusive _ _ x (translate_owns hand live.reserved va x found) (Owns.hand x held)
  filled := live.filled.grown (leafAt_congr stored.tables)
  reserved := live.reserved.congr fun w _ => leafAt_congr stored.tables w

theorem Live.mapped {v : Vpn} {pte : Nat}
    (mapped : Mapped userVpn s r hand hand v pte s') (low : v.page < n) : Live s₀ r hand n trapframe s' where
  opened := live.opened.mapped mapped
  filled := by
    have bound := live.filled.bound
    refine ⟨fun w below => ?_, fun w inside above => ?_, bound⟩
    · rw [mapped.leaves]
      split_ifs
      · exact Option.some_ne_none _
      · exact live.filled.below w below
    · have other : w ≠ v := by
        rintro rfl
        omega
      rw [mapped.leaves, if_neg other]
      exact live.filled.above w inside above
  reserved := live.reserved.congr fun w outside => by
    have bound := live.filled.bound
    have inside : userVpn v := (userVpn_iff v).mpr (by omega)
    rw [mapped.leaves, if_neg (ne_of_userVpn inside outside).symm]

end

theorem Live.discard {sz : Nat} (live : Live s₀ r hand (pages sz) trapframe s) :
    Ends (discard r sz) s (fun result s' => result = none ∧ Closed s₀ none hand s') := by
  unfold Exec.discard
  refine Ends.bind (procFreepagetable_ends live.safe sz trapframe live.filled live.reserved) ?_
  intro _ s' closed
  exact Ends.pure ⟨rfl, live.opened.closed closed⟩

theorem translate_of_leaf {va pte : Nat} (safe : Local userVpn s (some r) hand) (bound : va < MAXVA)
    (inside : userVpn (vpn va)) (found : leafAt s r (vpn va) = some pte) (user : User pte) :
    UserMem.translate s r va = some (PTE2PA pte) := by
  have ram := safe.ram _ ⟨_, Owns.leaf r pte _ rfl inside found⟩
  have nonzero : PTE2PA pte ≠ 0 := by
    have mem := inRam_mem _ ram
    rw [Finset.mem_Ico] at mem
    omega
  unfold UserMem.translate
  rw [if_neg (Nat.not_le.mpr bound), found, Option.bind_some, if_pos ⟨user, nonzero⟩]

theorem Live.translate (live : Live s₀ r hand n trapframe s) (user : AllUser s r n) (va : Nat)
    (low : va / PGSIZE < n) : ∃ x, UserMem.translate s r va = some x := by
  have size := live.size
  have bound : va < MAXVA := by
    unfold MAXVA
    unfold PGSIZE at low
    omega
  have page : (vpn va).page = va / PGSIZE := page_vpn va (by unfold MAXVA at bound; omega)
  have low' : (vpn va).page < n := by omega
  obtain ⟨pte, found⟩ := Option.ne_none_iff_exists'.mp (live.filled.below (vpn va) low')
  exact ⟨_, translate_of_leaf live.safe bound ((userVpn_iff _).mpr (by omega)) found (user _ pte low' found)⟩

/-- The pages below n, with what the user reads there, are as they were. -/
structure Agrees (s s' : Mem) (r n : Nat) : Prop where
  leaves : ∀ w : Vpn, w.page < n → leafAt s' r w = leafAt s r w
  bytes : ∀ va, va < n * PGSIZE → userByte s' r va = userByte s r va

omit [Layout] in
theorem Agrees.refl (s : Mem) (r n : Nat) : Agrees s s r n := ⟨fun _ _ => rfl, fun _ _ => rfl⟩

omit [Layout] in
theorem Agrees.trans {s'' : Mem} {m : Nat} (first : Agrees s s' r n) (second : Agrees s' s'' r m) (order : n ≤ m) :
    Agrees s s'' r n where
  leaves w low := (second.leaves w (by omega)).trans (first.leaves w low)
  bytes va low := (second.bytes va (lt_of_lt_of_le low (Nat.mul_le_mul_right _ order))).trans (first.bytes va low)

omit [Layout] in
theorem vpn_below {va : Nat} (low : va < n * PGSIZE) (small : n ≤ 2 ^ 15) : (vpn va).page < n ∧ userVpn (vpn va) := by
  unfold PGSIZE at low
  rw [userVpn_iff, page_vpn va (by omega)]
  unfold PGSIZE
  omega

theorem Live.agrees_extended {entry : Vpn → Nat → Page → Prop} {m : Nat} (live : Live s₀ r hand n trapframe s)
    (extended : Extended entry s r hand n m s') : Agrees s s' r n where
  leaves w low := extended.leaves w (by omega)
  bytes va low := userByte_extended extended va (vpn_below low live.size).2 (vpn_below low live.size).1

theorem Live.agrees_mapped {v : Vpn} {pte m : Nat} (live : Live s₀ r hand n trapframe s)
    (mapped : Mapped userVpn s r hand hand v pte s') (above : m ≤ v.page) (order : m ≤ n) : Agrees s s' r m where
  leaves w low := by
    rw [mapped.leaves, if_neg]
    rintro rfl
    omega
  bytes va low := by
    obtain ⟨page, user⟩ := vpn_below low (le_trans order live.size)
    refine userByte_same ?_ fun pte leaf => mapped.data (.leaf (vpn va)) _ (Owns.leaf r pte _ rfl user leaf)
      nofun nofun
    rw [mapped.leaves, if_neg]
    intro same
    rw [same] at page
    omega

theorem agrees_stored {dst m : Nat} {src : List Byte} {ok : Bool} (stored : Stored s r hand dst src ok s')
    (above : m * PGSIZE ≤ dst) : Agrees s s' r m where
  leaves w _ := leafAt_congr stored.tables w
  bytes va low := stored.kept va (by omega)

/-- What loadseg has stored: nothing outside the segment, and if it returned 0 the bytes of the file. -/
structure Loads (ip : Inode) (s : Mem) (r va offset sz : Nat) (ok : Bool) (s' : Mem) : Prop where
  kept : ∀ a, ¬(va ≤ a ∧ a < va + sz) → userByte s' r a = userByte s r a
  loaded : ok = true → ∀ file, ip = fileInode file → file.length < 2 ^ 32 → offset + sz ≤ file.length →
    ∀ i < sz, userByte s' r (va + i) = file[offset + i]?

variable (ip : Inode)

omit [Layout] in
theorem Loads.nothing (s : Mem) (r va offset sz : Nat) (ok : Bool) (empty : sz = 0) : Loads ip s r va offset sz ok s :=
  ⟨fun _ _ => rfl, fun _ _ _ _ _ i low => by omega⟩

theorem Loads.cons {ip : Inode} {va offset sz : Nat} {ok : Bool} {s₁ s₂ : Mem} {bytes : List Byte}
    (stored : Stored s r hand va bytes true s₁) (chunk : bytes = ip.readi (offset % 2 ^ 32) (min sz PGSIZE))
    (complete : bytes.length = min sz PGSIZE)
    (rest : Loads ip s₁ r (va + PGSIZE) (offset + PGSIZE) (sz - PGSIZE) ok s₂) : Loads ip s r va offset sz ok s₂ where
  kept a outside := by rw [rest.kept a (by omega), stored.kept a (by omega)]
  loaded done file same small inside i low := by
    by_cases first : i < PGSIZE
    · have reached : Reached s r va (va + i) := fun a above below => stored.complete.mp rfl a above (by omega)
      have nowrap : ¬(file.length < offset ∨ 2 ^ 32 ≤ offset + min sz PGSIZE) := by omega
      have text : bytes = (file.drop offset).take (min sz PGSIZE) := by
        rw [chunk, same, Nat.mod_eq_of_lt (by omega)]
        exact if_neg nowrap
      rw [rest.kept _ (by omega), stored.written (va + i) (by omega) (by omega) reached, Nat.add_sub_cancel_left,
        getD_eq_getElem _ _ (by omega), ← List.getElem?_eq_getElem, text, List.getElem?_take, if_pos (by omega),
        List.getElem?_drop]
    · have later := rest.loaded done file same small (by omega) (i - PGSIZE) (by omega)
      rwa [show va + PGSIZE + (i - PGSIZE) = va + i by omega, show offset + PGSIZE + (i - PGSIZE) = offset + i by omega] at later

theorem loadsegLoop_ends (va offset sz npages i : Nat) (live : Live s₀ r hand n trapframe s)
    (user : AllUser s r n) (aligned : va % PGSIZE = 0) (step : i % PGSIZE = 0)
    (whole : npages = (sz - i + PGSIZE - 1) / PGSIZE) (room : (va + i) / PGSIZE + npages ≤ n) :
    Ends (loadsegLoop r va ip offset sz npages i) s (fun ok s' => Live s₀ r hand n trapframe s' ∧ SameTables s s' r ∧
      Loads ip s r (va + i) (offset + i) (sz - i) ok s') := by
  induction npages generalizing i s with
  | zero =>
    refine Ends.pure ⟨live, fun _ _ _ => rfl, Loads.nothing ip s r _ _ _ _ ?_⟩
    unfold PGSIZE at whole
    omega
  | succ npages ih =>
    have size := live.size
    have small : (va + i) % 2 ^ 64 = va + i := by
      unfold PGSIZE at room
      omega
    obtain ⟨x, found⟩ := live.translate user (va + i) (by omega)
    unfold loadsegLoop
    rw [small]
    apply Ends.after (walkaddr_run s r (va + i))
    rw [found]
    apply Ends.after (modify_ok _ s)
    have start : (va + i) % PGSIZE = 0 := by
      unfold PGSIZE at *
      omega
    have short := ip.short ((offset + i) % 2 ^ 32) (min (sz - i) PGSIZE)
    generalize bytes : ip.readi ((offset + i) % 2 ^ 32) (min (sz - i) PGSIZE) = chunk at short ⊢
    have stored := store_page live.safe live.reserved (va + i) x chunk found (by omega)
    rw [start] at stored
    have live' := live.stored stored
    by_cases complete : chunk.length = min (sz - i) PGSIZE
    · rw [if_pos complete]
      have user' : AllUser _ r n := fun w pte low entry =>
        user w pte low (by rw [← leafAt_congr stored.tables]; exact entry)
      apply Ends.weaken (ih (i + PGSIZE) live' user' (by unfold PGSIZE at *; omega) (by unfold PGSIZE at *; omega)
        (by unfold PGSIZE at *; omega))
      rintro _ s' ⟨done, tables, loads⟩
      refine ⟨done, fun p t there => ?_, Loads.cons stored bytes.symm complete ?_⟩
      · rw [tables p t (by rw [tableAt_congr stored.tables]; exact there), stored.tables p t there]
      · rwa [Nat.add_assoc, Nat.add_assoc, Nat.sub_sub]
    · rw [if_neg complete]
      refine Ends.pure ⟨live', stored.tables, fun a outside => stored.kept a (by omega), fun impossible => ?_⟩
      cases impossible

theorem loadseg_ends (va offset sz : Nat) (live : Live s₀ r hand n trapframe s) (user : AllUser s r n)
    (aligned : va % PGSIZE = 0) (room : pages (va + sz) ≤ n) :
    Ends (loadseg r va ip offset sz) s (fun ok s' => Live s₀ r hand n trapframe s' ∧ SameTables s s' r ∧
      Loads ip s r va (offset % 2 ^ 32) (sz % 2 ^ 32) ok s') := by
  unfold loadseg
  refine loadsegLoop_ends ip va _ _ _ 0 live user aligned (by decide) rfl ?_
  have less := Nat.mod_le sz (2 ^ 32)
  unfold pages at room
  unfold PGSIZE at *
  omega

theorem AllUser.extended {perm m : Nat} (user : AllUser s r n) (extended : Extended (ZeroPage perm) s r hand n m s')
    (allowed : User perm) : AllUser s' r m := by
  intro w pte low found
  by_cases old : w.page < n
  · rw [extended.leaves w (by omega)] at found
    exact user w pte old found
  · obtain ⟨pte', x, perm', found', reads, same, _⟩ := extended.fresh w (by omega) low
    rw [found] at found'
    obtain rfl := Option.some.inj found'
    rw [reads.user, same]
    exact allowed

def segmentsFrom (file : List Byte) : Nat → Nat → List Proghdr
  | 0, _ => []
  | phnum + 1, off =>
      let ph := Proghdr.decode ((file.drop off).take 56)
      if off + 56 ≤ file.length ∧ ph.type = ELF_PROG_LOAD then ph :: segmentsFrom file phnum (off + 56)
      else segmentsFrom file phnum (off + 56)

/-- The segments are in increasing order on disjoint pages, each aligned and within the file. -/
structure Orderly (file : List Byte) (segments : List Proghdr) : Prop where
  aligned : ∀ ph ∈ segments, ph.vaddr % PGSIZE = 0
  inside : ∀ ph ∈ segments, ph.off + ph.filesz ≤ file.length
  apart : segments.Pairwise fun ph ph' => pages (ph.vaddr + ph.memsz) * PGSIZE ≤ ph'.vaddr

/-- A segment is in memory: the bytes of the file, then zeros, with the permissions of its flags. -/
structure Placed (file : List Byte) (s : Mem) (r : Nat) (ph : Proghdr) : Prop where
  loaded : ∀ i, i < ph.filesz → userByte s r (ph.vaddr + i) = file[ph.off + i]?
  zero : ∀ i, ph.filesz ≤ i → i < ph.memsz → userByte s r (ph.vaddr + i) = some 0
  entries : ∀ w : Vpn, ph.vaddr / PGSIZE ≤ w.page → w.page < pages (ph.vaddr + ph.memsz) → ∃ pte, leafAt s r w = some pte ∧
    User pte ∧ pte &&& PTE_R ≠ 0 ∧ (pte &&& PTE_X ≠ 0 ↔ ph.flags &&& 1 ≠ 0) ∧ (pte &&& PTE_W ≠ 0 ↔ ph.flags &&& 2 ≠ 0)

omit [Layout] in
theorem flags2perm_masks (flags : Nat) : (PTE_R ||| PTE_U ||| flags2perm flags) &&& PTE_R ≠ 0 ∧
    ((PTE_R ||| PTE_U ||| flags2perm flags) &&& PTE_X ≠ 0 ↔ flags &&& 1 ≠ 0) ∧
    ((PTE_R ||| PTE_U ||| flags2perm flags) &&& PTE_W ≠ 0 ↔ flags &&& 2 ≠ 0) := by
  unfold flags2perm
  split_ifs with execute write write
  · exact ⟨by decide, iff_of_true (by decide) execute, iff_of_true (by decide) write⟩
  · exact ⟨by decide, iff_of_true (by decide) execute, iff_of_false (by decide) write⟩
  · exact ⟨by decide, iff_of_false (by decide) execute, iff_of_true (by decide) write⟩
  · exact ⟨by decide, iff_of_false (by decide) execute, iff_of_false (by decide) write⟩

theorem userByte_zero {perm lo m : Nat} (extended : Extended (ZeroPage perm) s r hand lo m s') (allowed : User perm) (va : Nat)
    (small : m ≤ 2 ^ 15) (low : lo * PGSIZE ≤ va) (high : va < m * PGSIZE) : userByte s' r va = some 0 := by
  obtain ⟨below, user⟩ := vpn_below high small
  have page : (vpn va).page = va / PGSIZE := page_vpn va (by unfold PGSIZE at high; omega)
  have above : lo ≤ (vpn va).page := by
    rw [page]
    exact (Nat.le_div_iff_mul_le (by decide)).mpr low
  obtain ⟨pte, x, perm', leaf, reads, rfl, content⟩ := extended.fresh (vpn va) above below
  have ram := extended.safe.ram _ ⟨_, Owns.leaf r pte (vpn va) rfl user leaf⟩
  rw [userByte_of_leaf (by unfold PGSIZE at high; unfold MAXVA; omega) leaf (inRam_ne_zero ram),
    if_pos (reads.user.mpr allowed), reads.page, content]
  simp [byteAt]

variable {file : List Byte}

theorem placed_of_loads {ph : Proghdr} {s₁ s₂ : Mem} {lo : Nat}
    (extended : Extended (ZeroPage (PTE_R ||| PTE_U ||| flags2perm ph.flags)) s r hand lo (pages (ph.vaddr + ph.memsz)) s₁)
    (size : pages (ph.vaddr + ph.memsz) ≤ 2 ^ 15) (tables : SameTables s₁ s₂ r)
    (loads : Loads (fileInode file) s₁ r ph.vaddr (ph.off % 2 ^ 32) (ph.filesz % 2 ^ 32) true s₂) (low : lo * PGSIZE ≤ ph.vaddr)
    (small : file.length < 2 ^ 32) (inside : ph.off + ph.filesz ≤ file.length) :
    Placed file s₂ r ph := by
  obtain ⟨_, _, allowed⟩ := flags2perm_entry ph.flags
  rw [Nat.mod_eq_of_lt (by omega), Nat.mod_eq_of_lt (by omega)] at loads
  refine ⟨fun i below => loads.loaded rfl file rfl small inside i below, fun i above below => ?_, fun w first last => ?_⟩
  · rw [loads.kept _ (by omega)]
    refine userByte_zero extended allowed _ size (by omega) ?_
    unfold pages PGSIZE
    omega
  · have start : lo ≤ w.page := le_trans ((Nat.le_div_iff_mul_le (by decide)).mpr low) first
    obtain ⟨pte, x, perm, leaf, reads, rfl, _⟩ := extended.fresh w start last
    obtain ⟨read, execute, write⟩ := flags2perm_masks ph.flags
    refine ⟨pte, (leafAt_congr tables w).trans leaf, reads.user.mpr allowed, ?_, ?_, ?_⟩
    · rw [reads.and_mask PTE_R (by decide) (by decide)]
      exact read
    · rw [reads.and_mask PTE_X (by decide) (by decide)]
      exact execute
    · rw [reads.and_mask PTE_W (by decide) (by decide)]
      exact write

omit [Layout] in
theorem Placed.agrees {ph : Proghdr} (placed : Placed file s r ph) (agrees : Agrees s s' r n)
    (order : ph.filesz ≤ ph.memsz) (below : pages (ph.vaddr + ph.memsz) ≤ n) : Placed file s' r ph := by
  have low : ∀ i, i < ph.memsz → ph.vaddr + i < n * PGSIZE := by
    intro i inside
    refine lt_of_lt_of_le ?_ (Nat.mul_le_mul_right _ below)
    unfold pages PGSIZE
    omega
  refine ⟨fun i inside => ?_, fun i above inside => ?_, fun w first last => ?_⟩
  · rw [agrees.bytes _ (low i (by omega))]
    exact placed.loaded i inside
  · rw [agrees.bytes _ (low i inside)]
    exact placed.zero i above inside
  · rw [agrees.leaves w (by omega)]
    exact placed.entries w first last

omit [Layout] in
theorem readi_header (file : List Byte) (off : Nat) (low : off < 2 ^ 32)
    (whole : ((fileInode file).readi (off % 2 ^ 32) 56).length = 56) :
    off + 56 ≤ file.length ∧ (fileInode file).readi (off % 2 ^ 32) 56 = (file.drop off).take 56 := by
  rw [Nat.mod_eq_of_lt low] at whole ⊢
  have inside : ¬(file.length < off ∨ 2 ^ 32 ≤ off + 56) := by
    intro outside
    rw [show (fileInode file).readi off 56 = [] from if_pos outside] at whole
    cases whole
  have read : (fileInode file).readi off 56 = (file.drop off).take 56 := if_neg inside
  rw [read, length_take, length_drop] at whole
  exact ⟨by omega, read⟩

/-- The segments of a file are ready to be loaded above the pages of a size. -/
structure Ready (ip : Inode) (file : List Byte) (phnum off sz : Nat) : Prop where
  shows : ip = fileInode file
  small : file.length < 2 ^ 32
  low : off < 2 ^ 32
  orderly : Orderly file (segmentsFrom file phnum off)
  above : ∀ ph ∈ segmentsFrom file phnum off, pages sz * PGSIZE ≤ ph.vaddr

/-- What the loop over the headers of such a file leaves: the pages that were there, and above them the segments. -/
structure Loaded (file : List Byte) (s : Mem) (r phnum off sz : Nat) (sz' : Nat) (s' : Mem) : Prop where
  larger : pages sz ≤ pages sz'
  agrees : Agrees s s' r (pages sz)
  placed : ∀ ph ∈ segmentsFrom file phnum off, Placed file s' r ph ∧ ph.filesz ≤ ph.memsz ∧
    pages (ph.vaddr + ph.memsz) ≤ pages sz'

omit [Layout] in
theorem Ready.skip {ip : Inode} {phnum off sz : Nat} (ready : Ready ip file (phnum + 1) off sz)
    (whole : (ip.readi (off % 2 ^ 32) 56).length = 56)
    (kind : (Proghdr.decode (ip.readi (off % 2 ^ 32) 56)).type ≠ ELF_PROG_LOAD) :
    segmentsFrom file (phnum + 1) off = segmentsFrom file phnum (off + 56) ∧ Ready ip file phnum (off + 56) sz := by
  obtain ⟨rfl, small, low, orderly, above⟩ := ready
  obtain ⟨inside, header⟩ := readi_header file off low whole
  rw [header] at kind
  have skipped : segmentsFrom file (phnum + 1) off = segmentsFrom file phnum (off + 56) := if_neg fun both => kind both.2
  rw [skipped] at orderly above
  exact ⟨skipped, rfl, small, by omega, orderly, above⟩

omit [Layout] in
theorem Ready.take {ip : Inode} {phnum off sz : Nat} {ph : Proghdr}
    (ready : Ready ip file (phnum + 1) off sz) (whole : (ip.readi (off % 2 ^ 32) 56).length = 56)
    (decoded : Proghdr.decode (ip.readi (off % 2 ^ 32) 56) = ph) (kind : ph.type = ELF_PROG_LOAD) :
    segmentsFrom file (phnum + 1) off = ph :: segmentsFrom file phnum (off + 56) ∧ pages sz * PGSIZE ≤ ph.vaddr ∧
      ph.off + ph.filesz ≤ file.length ∧ Ready ip file phnum (off + 56) (ph.vaddr + ph.memsz) := by
  obtain ⟨rfl, small, low, orderly, above⟩ := ready
  obtain ⟨inside, header⟩ := readi_header file off low whole
  rw [header] at decoded
  have taken : segmentsFrom file (phnum + 1) off = ph :: segmentsFrom file phnum (off + 56) := by
    rw [← decoded] at kind ⊢
    exact if_pos ⟨inside, kind⟩
  rw [taken] at orderly above
  obtain ⟨first, later⟩ := pairwise_cons.mp orderly.apart
  refine ⟨taken, above ph mem_cons_self, orderly.inside ph mem_cons_self, rfl, small, by omega, ?_, first⟩
  exact ⟨fun ph' member => orderly.aligned ph' (mem_cons_of_mem _ member),
    fun ph' member => orderly.inside ph' (mem_cons_of_mem _ member), later⟩

theorem loadSegments_ends (phnum off sz : Nat) (live : Live s₀ r hand (pages sz) trapframe s)
    (user : AllUser s r (pages sz)) :
    Ends (loadSegments r ip phnum off sz) s (fun result s' => Live s₀ r hand (pages result.1) trapframe s' ∧
      (result.2 = true → ∀ file, Ready ip file phnum off sz → Loaded file s r phnum off sz result.1 s')) := by
  induction phnum generalizing off sz s with
  | zero =>
    refine Ends.pure ⟨live, fun _ file _ => ⟨le_rfl, Agrees.refl s r _, fun ph member => ?_⟩⟩
    cases member
  | succ phnum ih =>
    have stop : ∀ {sz' s'}, Live s₀ r hand (pages sz') trapframe s' → Ends (pure (sz', false) : VM (Nat × Bool)) s'
        (fun result s' => Live s₀ r hand (pages result.1) trapframe s' ∧
          (result.2 = true → ∀ file, Ready ip file (phnum + 1) off sz → Loaded file s r (phnum + 1) off sz result.1 s')) :=
      fun live' => Ends.pure ⟨live', fun impossible => nomatch impossible⟩
    unfold loadSegments
    simp only
    split_ifs with truncated kind less wraps unaligned
    · exact stop live
    · apply Ends.weaken (ih (off + 56) sz live user)
      rintro result s' ⟨live', loaded⟩
      refine ⟨live', fun done file ready => ?_⟩
      obtain ⟨skipped, rest⟩ := ready.skip (not_not.mp truncated) kind
      obtain ⟨larger, agrees, placed⟩ := loaded done file rest
      refine ⟨larger, agrees, ?_⟩
      rw [skipped]
      exact placed
    · exact stop live
    · exact stop live
    · exact stop live
    · have vaddr : (Proghdr.decode (ip.readi (off % 2 ^ 32) 56)).vaddr < 2 ^ 64 := field_lt _ _ 8
      have memsz : (Proghdr.decode (ip.readi (off % 2 ^ 32) 56)).memsz < 2 ^ 64 := field_lt _ _ 8
      generalize decoded : Proghdr.decode (ip.readi (off % 2 ^ 32) 56) = ph at *
      have exact : (ph.vaddr + ph.memsz) % 2 ^ 64 = ph.vaddr + ph.memsz := by omega
      rw [exact] at wraps ⊢
      obtain ⟨small, leaf, allowed⟩ := flags2perm_entry ph.flags
      refine Ends.bind (uvmalloc_ends live.safe sz _ _ live.filled small leaf) ?_
      rintro sz1 s₁ (⟨rfl, extended⟩ | ⟨rfl, grown⟩)
      · have order : pages sz ≤ pages (max sz (ph.vaddr + ph.memsz)) := Nat.div_le_div_right (by omega)
        have live₁ := live.extended extended order
        split_ifs with zero
        · have none : sz = max sz (ph.vaddr + ph.memsz) := by omega
          rw [← none] at live₁
          exact stop live₁
        · have user₁ := user.extended extended allowed
          refine Ends.bind (loadseg_ends ip ph.vaddr ph.off ph.filesz live₁ user₁ (by omega) ?_) ?_
          · -- The sum does not wrap, so the segment ends at the new size at the latest.
            exact Nat.div_le_div_right (by omega)
          · rintro ok s₂ ⟨live₂, tables, loads⟩
            cases ok with
            | false => exact stop live₂
            | true =>
              apply Ends.weaken (ih (off + 56) _ live₂ fun w pte low found => ?_)
              · rintro result s' ⟨live', loaded⟩
                refine ⟨live', fun done file ready => ?_⟩
                obtain ⟨taken, above, inside, rest⟩ := ready.take (not_not.mp truncated) decoded (not_not.mp kind)
                have most : max sz (ph.vaddr + ph.memsz) = ph.vaddr + ph.memsz := by
                  unfold pages PGSIZE at above
                  omega
                rw [most] at extended order live₁ loaded
                obtain ⟨larger, agrees, placed⟩ := loaded done file rest
                obtain ⟨rfl, short, _⟩ := ready
                have here := placed_of_loads extended live₁.size tables loads above short inside
                have before := (live.agrees_extended extended).trans (m := pages sz)
                  ⟨fun w _ => leafAt_congr tables w, fun va low => loads.kept va (by omega)⟩ le_rfl
                refine ⟨le_trans order larger, before.trans agrees order, ?_⟩
                rw [taken]
                intro ph' member
                rcases mem_cons.mp member with rfl | later
                · exact ⟨here.agrees agrees (by omega) le_rfl, by omega, larger⟩
                · exact placed ph' later
              · exact user₁ w pte low (by rw [← leafAt_congr tables]; exact found)
      · rw [if_pos rfl]
        exact stop (live.grown grown)

end Xv6.Vm.Building
