import Xv6.Fs.Bio

/-! Readers of the buffer cache see the blocks as if there were no cache: what a buffer holds, who uses it, and why
a buffer in use is not given to another block. -/

namespace Xv6.Fs.Transparent
open Lib.Bytes Lib.Linked Lib.Transition Bio Function List
open Disklog.Commit (Blockno Block Disk)

/-- What the buffers hold: every block at most once, the latest contents if valid, and those of the disk if not
dirty; the disk is up to date for blocks that no valid buffer holds. -/
structure Contents (c : Bcache) (disk mem : Disk) (dirty : Slot → Bool) : Prop where
  unique : ∀ i j b, Holds c i b → Holds c j b → i = j
  stored : ∀ i b, Holds c i b → (c.buf i).valid = true → (c.buf i).data = mem b
  absent : ∀ b, (∀ i, Holds c i b → (c.buf i).valid = false) → disk b = mem b
  clean : ∀ i b, Holds c i b → (c.buf i).valid = true → dirty i = false → disk b = mem b

/-- Who uses a buffer: its reference count is exact, and a dirty one is being changed or pinned. -/
structure Used (buf : Buf) (waiting : List Blockno) (leaving : Nat) (pinned unsaved dirty : Bool) : Prop where
  count : buf.refcnt = waiting.length + buf.locked.toNat + leaving + pinned.toNat
  asked : ∀ b ∈ waiting, buf.dev = ROOTDEV ∧ buf.blockno = b
  held : buf.locked = true → buf.dev = ROOTDEV ∧ buf.valid = true
  listed : pinned = true → buf.dev = ROOTDEV ∧ buf.valid = true
  kept : dirty = true → (unsaved = true ∧ buf.locked = true) ∨ pinned = true

structure Inv (s : State) : Prop where
  loop : ∃ order, Loop s.c.links order ∧ ∀ i, i ∈ order
  contents : Contents s.c s.disk s.mem s.dirty
  used : ∀ i, Used (s.c.buf i) (s.waiting i) (s.leaving i) (s.pinned i) (s.unsaved i) (s.dirty i)

section Contents
variable {c c' : Bcache} {disk mem : Disk} {dirty : Slot → Bool}

theorem Contents.keep (contents : Contents c disk mem dirty) (keeps : Keeps c c') : Contents c' disk mem dirty where
  unique i j b first second := contents.unique i j b ((keeps.holds i b).mp first) ((keeps.holds j b).mp second)
  stored i b holds valid := by
    rw [keeps.data]
    exact contents.stored i b ((keeps.holds i b).mp holds) (by rwa [keeps.valid] at valid)
  absent b none := by
    refine contents.absent b fun i holds => ?_
    rw [← keeps.valid]
    exact none i ((keeps.holds i b).mpr holds)
  clean i b holds valid := contents.clean i b ((keeps.holds i b).mp holds) (by rwa [keeps.valid] at valid)

variable {b : Blockno} {i : Slot}

section
variable (contents : Contents c disk mem dirty)
include contents

theorem Contents.recycle (missing : ∀ j, ¬Holds c j b)
    (spare : dirty i = false) {buf : Buf} (blockno : buf.blockno = b) (valid : buf.valid = false) :
    Contents (c.set i buf) disk mem dirty := by
  have others : ∀ j x, Holds (c.set i buf) j x → (j = i ∧ x = b) ∨ (j ≠ i ∧ Holds c j x) := by
    intro j x holds
    by_cases same : j = i
    · subst same
      have number := holds.2
      rw [buf_set_self, blockno] at number
      exact .inl ⟨rfl, number.symm⟩
    · refine .inr ⟨same, ?_⟩
      unfold Holds at holds
      rwa [buf_set_other c buf same] at holds
  refine ⟨fun j k x first second => ?_, fun j x holds isValid => ?_, fun x none => ?_, fun j x holds isValid => ?_⟩
  · rcases others j x first with ⟨rfl, rfl⟩ | ⟨_, here⟩ <;> rcases others k _ second with ⟨rfl, same⟩ | ⟨_, there⟩
    · rfl
    · exact absurd there (missing k)
    · exact absurd (same ▸ here) (missing j)
    · exact contents.unique j k x here there
  · rcases others j x holds with ⟨rfl, rfl⟩ | ⟨other, here⟩
    · rw [buf_set_self, valid] at isValid
      cases isValid
    · rw [buf_set_other c buf other] at isValid ⊢
      exact contents.stored j x here isValid
  · by_cases before : Holds c i x ∧ (c.buf i).valid = true
    · exact contents.clean i x before.1 before.2 spare
    · refine contents.absent x fun j here => ?_
      by_cases same : j = i
      · subst same
        simpa using not_and.mp before here
      · have later := none j (by unfold Holds; rwa [buf_set_other c buf same])
        rwa [buf_set_other c buf same] at later
  · rcases others j x holds with ⟨rfl, rfl⟩ | ⟨other, here⟩
    · rw [buf_set_self, valid] at isValid
      cases isValid
    · rw [buf_set_other c buf other] at isValid
      exact contents.clean j x here isValid

theorem Contents.fill (holds : Holds c i b) (invalid : (c.buf i).valid = false) :
    Contents (c.set i { c.buf i with data := disk b, valid := true }) disk mem dirty := by
  have same := fun j x => holds_set c i j (b := { c.buf i with data := disk b, valid := true }) rfl rfl x
  have current : disk b = mem b := by
    refine contents.absent b fun j there => ?_
    rw [contents.unique j i b there holds]
    exact invalid
  refine ⟨fun j k x first second => contents.unique j k x ((same j x).mp first) ((same k x).mp second),
    fun j x there valid => ?_, fun x none => ?_, fun j x there valid spare => ?_⟩
  · by_cases here : j = i
    · subst here
      rw [buf_set_self, ← ((same j x).mp there).2, holds.2]
      exact current
    · rw [buf_set_other c _ here] at valid ⊢
      exact contents.stored j x ((same j x).mp there) valid
  · refine contents.absent x fun j there => ?_
    by_cases here : j = i
    · rw [here]
      exact invalid
    · have later := none j ((same j x).mpr there)
      rwa [buf_set_other c _ here] at later
  · by_cases here : j = i
    · subst here
      rw [← ((same j x).mp there).2, holds.2]
      exact current
    · rw [buf_set_other c _ here] at valid
      exact contents.clean j x ((same j x).mp there) valid spare

theorem Contents.modify (holds : Holds c i b) (valid : (c.buf i).valid = true) (data : Block) :
    Contents (c.set i { c.buf i with data := data }) disk (update mem b data) (update dirty i true) := by
  have same := fun j x => holds_set c i j (b := { c.buf i with data := data }) rfl rfl x
  have elsewhere : ∀ j x, Holds c j x → j ≠ i → x ≠ b := by
    rintro j x there other rfl
    exact other (contents.unique j i x there holds)
  refine ⟨fun j k x first second => contents.unique j k x ((same j x).mp first) ((same k x).mp second),
    fun j x there isValid => ?_, fun x none => ?_, fun j x there isValid spare => ?_⟩
  · by_cases here : j = i
    · subst here
      rw [buf_set_self, ← ((same j x).mp there).2, holds.2, update_self]
    · rw [buf_set_other c _ here] at isValid ⊢
      rw [update_of_ne (elsewhere j x ((same j x).mp there) here)]
      exact contents.stored j x ((same j x).mp there) isValid
  · have other : x ≠ b := by
      rintro rfl
      have later := none i ((same i x).mpr holds)
      rw [buf_set_self, valid] at later
      cases later
    rw [update_of_ne other]
    refine contents.absent x fun j there => ?_
    have apart : j ≠ i := by
      rintro rfl
      exact other (there.2.symm.trans holds.2)
    have later := none j ((same j x).mpr there)
    rwa [buf_set_other c _ apart] at later
  · have apart : j ≠ i := by
      rintro rfl
      rw [update_self] at spare
      cases spare
    rw [buf_set_other c _ apart] at isValid
    rw [update_of_ne apart] at spare
    rw [update_of_ne (elsewhere j x ((same j x).mp there) apart)]
    exact contents.clean j x ((same j x).mp there) isValid spare

theorem Contents.write (holds : Holds c i b) (valid : (c.buf i).valid = true) :
    Contents c (update disk b (c.buf i).data) mem (update dirty i false) := by
  have current := contents.stored i b holds valid
  refine ⟨contents.unique, contents.stored, fun x none => ?_, fun j x there isValid spare => ?_⟩
  · by_cases here : x = b
    · rw [here, update_self, current]
    · rw [update_of_ne here]
      exact contents.absent x none
  · by_cases here : x = b
    · rw [here, update_self, current]
    · rw [update_of_ne here]
      have apart : j ≠ i := by
        rintro rfl
        exact here (there.2.symm.trans holds.2)
      rw [update_of_ne apart] at spare
      exact contents.clean j x there isValid spare

end

end Contents

section Used
variable {buf : Buf} {waiting : List Blockno} {leaving : Nat} {pinned unsaved dirty : Bool}

section
variable (used : Used buf waiting leaving pinned unsaved dirty)
include used

theorem Used.spare (free : buf.refcnt = 0) :
    waiting = [] ∧ buf.locked = false ∧ leaving = 0 ∧ pinned = false ∧ dirty = false := by
  have count := used.count
  rw [free] at count
  have noPin : pinned = false := by
    cases pinned with
    | false => rfl
    | true => simp at count
  have noLock : buf.locked = false := by
    cases locked : buf.locked with
    | false => rfl
    | true =>
      rw [locked] at count
      simp only [Bool.toNat_true] at count
      omega
  refine ⟨length_eq_zero_iff.mp (by omega), noLock, by omega, noPin, ?_⟩
  by_contra changed
  rcases used.kept (by simpa using changed) with ⟨_, locked⟩ | pin
  · exact absurd (noLock.symm.trans locked) (by decide)
  · exact absurd (noPin.symm.trans pin) (by decide)

theorem Used.get {b : Blockno} (holds : buf.dev = ROOTDEV ∧ buf.blockno = b) :
    Used { buf with refcnt := buf.refcnt + 1 } (b :: waiting) leaving pinned unsaved dirty where
  count := by
    have count := used.count
    simp only [length_cons]
    omega
  asked x member := by
    rcases mem_cons.mp member with rfl | old
    · exact holds
    · exact used.asked x old
  held := used.held
  listed := used.listed
  kept := used.kept

theorem Used.recycle (free : buf.refcnt = 0) (b : Blockno) :
    Used { buf with dev := ROOTDEV, blockno := b, valid := false, refcnt := 1 } (b :: waiting) leaving pinned unsaved dirty := by
  obtain ⟨rfl, noLock, rfl, rfl, rfl⟩ := used.spare free
  refine ⟨?_, fun x member => ⟨rfl, ?_⟩, fun locked => ?_, nofun, nofun⟩
  · simp [noLock]
  · exact (mem_singleton.mp member).symm
  · exact absurd (noLock.symm.trans locked) (by decide)

theorem Used.enter {b : Blockno} (member : b ∈ waiting) (free : buf.locked = false) (data : Block) :
    Used { buf with locked := true, data := data, valid := true } (waiting.erase b) leaving pinned unsaved dirty where
  count := by
    have count := used.count
    have length := length_erase_of_mem member
    have some := length_pos_of_mem member
    rw [free] at count
    simp only [Bool.toNat_true, Bool.toNat_false] at count ⊢
    omega
  asked x there := used.asked x (mem_of_mem_erase there)
  held _ := ⟨(used.asked b member).1, rfl⟩
  listed pin := ⟨(used.listed pin).1, rfl⟩
  kept changed := (used.kept changed).imp_left fun ⟨was, _⟩ => ⟨was, rfl⟩

theorem Used.modify (locked : buf.locked = true) (data : Block) :
    Used { buf with data := data } waiting leaving pinned true true where
  count := used.count
  asked := used.asked
  held := used.held
  listed := used.listed
  kept _ := .inl ⟨rfl, locked⟩

theorem Used.write : Used buf waiting leaving pinned false false where
  count := used.count
  asked := used.asked
  held := used.held
  listed := used.listed
  kept := nofun

theorem Used.pin (locked : buf.locked = true) :
    Used (if pinned then buf else { buf with refcnt := buf.refcnt + 1 }) waiting leaving true false dirty := by
  have count := used.count
  cases pinned with
  | true => exact ⟨count, used.asked, used.held, fun _ => used.held locked, fun _ => .inr rfl⟩
  | false =>
    refine ⟨?_, used.asked, used.held, fun _ => used.held locked, fun _ => .inr rfl⟩
    simp only [Bool.toNat_false, Bool.toNat_true] at count ⊢
    change buf.refcnt + 1 = _ + buf.locked.toNat + _ + _
    omega

omit used in
theorem Used.unpin (used : Used buf waiting leaving true unsaved dirty) (written : dirty = false) :
    Used { buf with refcnt := buf.refcnt - 1 } waiting leaving false unsaved dirty := by
  have count := used.count
  refine ⟨?_, used.asked, used.held, nofun, fun changed => absurd (written.symm.trans changed) (by decide)⟩
  simp only [Bool.toNat_false, Bool.toNat_true] at count ⊢
  omega

theorem Used.leave (locked : buf.locked = true)
    (saved : unsaved = false) : Used { buf with locked := false } waiting (leaving + 1) pinned unsaved dirty := by
  have count := used.count
  rw [locked] at count
  refine ⟨?_, used.asked, nofun, used.listed, fun changed => ?_⟩
  · simp only [Bool.toNat_false, Bool.toNat_true] at count ⊢
    omega
  · rcases used.kept changed with ⟨was, _⟩ | pin
    · exact absurd (saved.symm.trans was) (by decide)
    · exact .inr pin

theorem Used.drop (some : 0 < leaving) :
    Used { buf with refcnt := buf.refcnt - 1 } waiting (leaving - 1) pinned unsaved dirty where
  count := by
    have count := used.count
    change buf.refcnt - 1 = _ + buf.locked.toNat + _ + _
    omega
  asked := used.asked
  held := used.held
  listed := used.listed
  kept := used.kept

end

end Used

section Steps
variable {s : State} {s' : State}

theorem used_of_slot (used : ∀ j, Used (s.c.buf j) (s.waiting j) (s.leaving j) (s.pinned j) (s.unsaved j) (s.dirty j))
    (i : Slot)
    (here : Used (s'.c.buf i) (s'.waiting i) (s'.leaving i) (s'.pinned i) (s'.unsaved i) (s'.dirty i))
    (others : ∀ j, j ≠ i → s'.c.buf j = s.c.buf j ∧ s'.waiting j = s.waiting j ∧ s'.leaving j = s.leaving j ∧
      s'.pinned j = s.pinned j ∧ s'.unsaved j = s.unsaved j ∧ s'.dirty j = s.dirty j) (j : Slot) :
    Used (s'.c.buf j) (s'.waiting j) (s'.leaving j) (s'.pinned j) (s'.unsaved j) (s'.dirty j) := by
  by_cases same : j = i
  · rw [same]
    exact here
  · obtain ⟨buf, waiting, leaving, pinned, unsaved, dirty⟩ := others j same
    rw [buf, waiting, leaving, pinned, unsaved, dirty]
    exact used j

variable {i : Slot}

theorem Inv.get (inv : Inv s) {b : Blockno} {c : Bcache} (got : bget s.c ROOTDEV b = .ok (c, i)) :
    Inv { s with c := c, waiting := update s.waiting i (b :: s.waiting i) } := by
  obtain ⟨order, loop, all⟩ := inv.loop
  rcases bget_cases loop all b with ⟨j, holds, hit⟩ | ⟨missing, j, free, miss⟩ | ⟨_, _, none⟩
  · obtain ⟨rfl, rfl⟩ := Prod.mk.inj (Except.ok.inj (hit.symm.trans got))
    refine ⟨⟨order, loop, all⟩, inv.contents.keep (keeps_set _ _ rfl rfl rfl rfl), used_of_slot inv.used j ?_ ?_⟩
    · simp only [buf_set_self, update_self]
      exact (inv.used j).get holds
    · intro k other
      simp only [buf_set_other _ _ other, update_of_ne other, and_self]
  · obtain ⟨rfl, rfl⟩ := Prod.mk.inj (Except.ok.inj (miss.symm.trans got))
    have spare := ((inv.used j).spare free).2.2.2.2
    refine ⟨⟨order, loop, all⟩, inv.contents.recycle missing spare rfl rfl, used_of_slot inv.used j ?_ ?_⟩
    · simp only [buf_set_self, update_self]
      exact (inv.used j).recycle free b
    · intro k other
      simp only [buf_set_other _ _ other, update_of_ne other, and_self]
  · cases none.symm.trans got

theorem bread_eq {c : Bcache} {disk : Disk} (i : Slot) :
    bread c disk i = c.set i { c.buf i with
      locked := true, data := if (c.buf i).valid then (c.buf i).data else disk (c.buf i).blockno, valid := true } := by
  unfold bread
  simp only [buf_set_self]
  split_ifs with valid
  · rw [← valid]
  · simp [Bcache.set]

theorem Inv.enter (inv : Inv s) {b : Blockno} (member : b ∈ s.waiting i) (free : (s.c.buf i).locked = false) :
    Inv { s with c := bread s.c s.disk i, waiting := update s.waiting i ((s.waiting i).erase b) } := by
  have holds : Holds s.c i b := (inv.used i).asked b member
  refine ⟨?_, ?_, used_of_slot inv.used i ?_ ?_⟩
  · rw [bread_eq]
    exact inv.loop
  · change Contents (bread s.c s.disk i) s.disk s.mem s.dirty
    cases valid : (s.c.buf i).valid with
    | true =>
      rw [bread_eq, valid, if_pos rfl]
      exact inv.contents.keep (keeps_set _ _ rfl rfl valid.symm rfl)
    | false =>
      have filled := inv.contents.fill holds valid
      rw [bread_eq, valid, if_neg (by decide)]
      refine filled.keep ⟨fun j => ?_, fun j => ?_, fun j => ?_, fun j => ?_⟩ <;> by_cases same : j = i
      all_goals first
        | subst same; simp only [buf_set_self, holds.2]
        | simp only [buf_set_other _ _ same]
  · simp only [bread_eq, buf_set_self, update_self]
    exact (inv.used i).enter member free _
  · intro k other
    simp only [bread_eq, buf_set_other _ _ other, update_of_ne other, and_self]

theorem Inv.modify (inv : Inv s) (locked : (s.c.buf i).locked = true) (data : Block) :
    Inv { s.put i { s.c.buf i with data := data } with
      unsaved := update s.unsaved i true, dirty := update s.dirty i true,
      mem := update s.mem (s.c.buf i).blockno data } := by
  obtain ⟨dev, valid⟩ := (inv.used i).held locked
  refine ⟨inv.loop, inv.contents.modify ⟨dev, rfl⟩ valid data, used_of_slot inv.used i ?_ ?_⟩
  · simp only [State.put, buf_set_self, update_self]
    exact (inv.used i).modify locked data
  · intro k other
    simp only [State.put, buf_set_other _ _ other, update_of_ne other, and_self]

theorem Inv.write (inv : Inv s) (locked : (s.c.buf i).locked = true) :
    Inv { s with
      disk := bwrite s.c s.disk i, unsaved := update s.unsaved i false,
      dirty := update s.dirty i false } := by
  obtain ⟨dev, valid⟩ := (inv.used i).held locked
  refine ⟨inv.loop, inv.contents.write ⟨dev, rfl⟩ valid, used_of_slot inv.used i ?_ ?_⟩
  · simp only [update_self]
    exact (inv.used i).write
  · intro k other
    simp only [update_of_ne other, and_self]

theorem Inv.log (inv : Inv s) (locked : (s.c.buf i).locked = true) :
    Inv { s with
      c := if s.pinned i then s.c else bpin s.c i, pinned := update s.pinned i true,
      unsaved := update s.unsaved i false } := by
  have used := (inv.used i).pin locked
  cases pinned : s.pinned i with
  | true =>
    rw [pinned, if_pos rfl] at used
    refine ⟨inv.loop, inv.contents, used_of_slot inv.used i ?_ ?_⟩
    · simpa only [update_self, if_true] using used
    · intro k other
      simp only [update_of_ne other, if_true, and_self]
  | false =>
    rw [pinned, if_neg (by decide)] at used
    refine ⟨inv.loop, inv.contents.keep (keeps_set _ _ rfl rfl rfl rfl), used_of_slot inv.used i ?_ ?_⟩
    · simpa only [update_self, bpin, Bool.false_eq_true, if_false, buf_set_self] using used
    · intro k other
      simp only [update_of_ne other, bpin, Bool.false_eq_true, if_false, buf_set_other _ _ other, and_self]

theorem Inv.unpin (inv : Inv s) (pinned : s.pinned i = true) (written : s.dirty i = false) :
    Inv { s with c := bunpin s.c i, pinned := update s.pinned i false } := by
  have used := inv.used i
  rw [pinned] at used
  refine ⟨inv.loop, inv.contents.keep (keeps_set _ _ rfl rfl rfl rfl), used_of_slot inv.used i ?_ ?_⟩
  · simp only [bunpin, buf_set_self, update_self]
    exact used.unpin written
  · intro k other
    simp only [bunpin, buf_set_other _ _ other, update_of_ne other, and_self]

theorem Inv.leave (inv : Inv s) (locked : (s.c.buf i).locked = true) (saved : s.unsaved i = false) :
    Inv { s.put i { s.c.buf i with locked := false } with
      leaving := update s.leaving i (s.leaving i + 1) } := by
  refine ⟨inv.loop, inv.contents.keep (keeps_set _ _ rfl rfl rfl rfl), used_of_slot inv.used i ?_ ?_⟩
  · simp only [State.put, buf_set_self, update_self]
    exact (inv.used i).leave locked saved
  · intro k other
    simp only [State.put, buf_set_other _ _ other, update_of_ne other, and_self]

theorem loop_moved {l : Links Slot} (i : Slot) (loop : ∃ order, Loop l order ∧ ∀ j, j ∈ order) :
    ∃ order, Loop (insertHead (unlink l i) i) order ∧ ∀ j, j ∈ order := by
  obtain ⟨order, loop, all⟩ := loop
  obtain ⟨pre, post, rfl⟩ := append_of_mem (all i)
  have nodup := nodup_middle.mp loop.nodup
  refine ⟨i :: (pre ++ post), loop_insertHead (loop_unlink loop) (nodup_cons.mp nodup).1, fun j => ?_⟩
  have there := all j
  simp only [mem_append, mem_cons] at there ⊢
  tauto

theorem brelse_buf (c : Bcache) (i : Slot) :
    (brelse c i).buf = (c.set i { c.buf i with refcnt := (c.buf i).refcnt - 1 }).buf := by
  unfold brelse
  simp only
  split_ifs <;> rfl

theorem Inv.drop (inv : Inv s) (some : 0 < s.leaving i) :
    Inv { s with c := brelse s.c i, leaving := update s.leaving i (s.leaving i - 1) } := by
  have keeps := keeps_set s.c i (b := { s.c.buf i with refcnt := (s.c.buf i).refcnt - 1 }) rfl rfl rfl rfl
  have buf := brelse_buf s.c i
  refine ⟨?_, inv.contents.keep ⟨?_, ?_, ?_, ?_⟩, used_of_slot inv.used i ?_ ?_⟩
  · change ∃ order, Loop (brelse s.c i).links order ∧ _
    unfold brelse
    simp only
    split_ifs
    · exact loop_moved i inv.loop
    · exact inv.loop
  · rw [buf]
    exact keeps.dev
  · rw [buf]
    exact keeps.blockno
  · rw [buf]
    exact keeps.valid
  · rw [buf]
    exact keeps.data
  · simp only [buf, buf_set_self, update_self]
    exact (inv.used i).drop some
  · intro k other
    simp only [buf, buf_set_other _ _ other, update_of_ne other, and_self]

theorem Inv.next (inv : Inv s) {e : Event} (fits : Written s e) (taken : step s e = some (.ok s')) : Inv s' := by
  cases e with
  | get b =>
    simp only [step] at taken
    cases got : bget s.c ROOTDEV b with
    | error message =>
      rw [got] at taken
      cases taken
    | ok result =>
      rw [got] at taken
      cases taken
      exact inv.get got
  | enter i b =>
    simp only [step] at taken
    split_ifs at taken with here
    cases taken
    exact inv.enter here.1 here.2
  | modify i contents =>
    simp only [step] at taken
    split_ifs at taken with locked
    cases taken
    exact inv.modify locked contents
  | bwrite i =>
    simp only [step] at taken
    split_ifs at taken with locked
    cases taken
    exact inv.write locked
  | logWrite i =>
    by_cases locked : (s.c.buf i).locked = true
    · rw [step, if_pos locked] at taken
      cases taken
      exact inv.log locked
    · rw [step, if_neg locked] at taken
      cases taken
  | bunpin i =>
    simp only [step] at taken
    split_ifs at taken with here
    cases taken
    exact inv.unpin here.2 fits
  | leave i =>
    simp only [step] at taken
    split_ifs at taken with locked
    cases taken
    exact inv.leave locked fits
  | drop i =>
    simp only [step] at taken
    split_ifs at taken with some
    cases taken
    exact inv.drop some

theorem loop_binit : ∃ order, Loop binit order ∧ ∀ i, i ∈ order := by
  have pushed : ∀ (rest order : List Slot) (l : Links Slot), Loop l order → rest.Nodup → (∀ i ∈ rest, i ∉ order) →
      Loop (rest.foldl insertHead l) (rest.reverse ++ order) := by
    intro rest
    induction rest with
    | nil => exact fun order l loop _ _ => loop
    | cons i rest ih =>
      intro order l loop nodup apart
      obtain ⟨absent, nodup⟩ := nodup_cons.mp nodup
      have later := ih (i :: order) _ (loop_insertHead loop (apart i mem_cons_self)) nodup (by
        intro j member there
        rcases mem_cons.mp there with rfl | old
        · exact absent member
        · exact apart j (mem_cons_of_mem _ member) old)
      simpa using later
  refine ⟨_, pushed (List.finRange NBUF) [] empty loop_empty (nodup_finRange _) (by simp), by simp⟩

theorem Inv.init (start : Init s) : Inv s := by
  have nothing : ∀ i b, ¬Holds s.c i b := by
    intro i b holds
    have dev := (start.blank i).1.symm.trans holds.1
    exact absurd dev (by decide)
  refine ⟨?_, ⟨fun i _ b holds => (nothing i b holds).elim, fun i b holds => (nothing i b holds).elim, fun b _ => ?_,
    fun i b holds => (nothing i b holds).elim⟩, fun i => ?_⟩
  · rw [start.links]
    exact loop_binit
  · rw [start.same]
  · obtain ⟨_, free, none⟩ := start.blank i
    obtain ⟨waiting, leaving, pinned, dirty⟩ := start.nobody i
    rw [waiting, leaving, pinned, dirty]
    refine ⟨?_, nofun, fun locked => absurd (free.symm.trans locked) (by decide), nofun, nofun⟩
    rw [none, free]
    rfl

theorem Inv.of_reachable (reachable : Reachable Init (Steps Written) s) : Inv s :=
  reachable.invariant Inv (fun _ => Inv.init) (fun _ _ inv ⟨_, fits, taken⟩ => inv.next fits taken)

theorem Inv.never_recycled (inv : Inv s) {e : Event} (taken : step s e = some (.ok s')) (i : Slot)
    (inUse : 0 < (s.c.buf i).refcnt) (b : Blockno) (holds : Holds s.c i b) : Holds s'.c i b := by
  cases e with
  | get x =>
    simp only [step] at taken
    cases got : bget s.c ROOTDEV x with
    | error message =>
      rw [got] at taken
      cases taken
    | ok result =>
      rw [got] at taken
      cases taken
      obtain ⟨order, loop, all⟩ := inv.loop
      rcases bget_cases loop all x with ⟨j, _, hit⟩ | ⟨_, j, free, miss⟩ | ⟨_, _, none⟩
      · obtain rfl := Except.ok.inj (hit.symm.trans got)
        refine (holds_set _ _ _ ?_ ?_ b).mpr holds <;> rfl
      · obtain rfl := Except.ok.inj (miss.symm.trans got)
        have other : i ≠ j := by
          rintro rfl
          omega
        unfold Holds
        rwa [buf_set_other _ _ other]
      · cases none.symm.trans got
  | enter j x =>
    simp only [step] at taken
    split_ifs at taken
    cases taken
    change Holds (bread s.c s.disk j) i b
    rw [bread_eq]
    refine (holds_set _ _ _ ?_ ?_ b).mpr holds <;> rfl
  | modify j contents | bunpin j | leave j =>
    simp only [step] at taken
    split_ifs at taken
    cases taken
    refine (holds_set _ _ _ ?_ ?_ b).mpr holds <;> rfl
  | bwrite j =>
    simp only [step] at taken
    split_ifs at taken
    cases taken
    exact holds
  | logWrite j =>
    simp only [step] at taken
    split_ifs at taken
    · cases taken
      exact holds
    · cases taken
      refine (holds_set _ _ _ ?_ ?_ b).mpr holds <;> rfl
  | drop j =>
    simp only [step] at taken
    split_ifs at taken
    cases taken
    change Holds (brelse s.c j) i b
    unfold Holds
    rw [brelse_buf]
    refine (holds_set _ _ _ ?_ ?_ b).mpr holds <;> rfl

/-- What bread returns is the latest contents of the block it was asked for. -/
theorem Inv.reads (inv : Inv s) {b : Blockno} (taken : step s (.enter i b) = some (.ok s')) :
    Holds s'.c i b ∧ (s'.c.buf i).data = s.mem b ∧ s'.mem = s.mem := by
  simp only [step] at taken
  split_ifs at taken with here
  cases taken
  have after := inv.enter here.1 here.2
  have holds : Holds (bread s.c s.disk i) i b := by
    rw [bread_eq]
    refine (holds_set _ _ _ ?_ ?_ b).mpr ((inv.used i).asked b here.1) <;> rfl
  have valid : ((bread s.c s.disk i).buf i).valid = true := by
    rw [bread_eq, buf_set_self]
  exact ⟨holds, after.contents.stored i b holds valid, rfl⟩

theorem Inv.panics (inv : Inv s) (e : Event) (message : String) (failed : step s e = some (.error message)) :
    message = "bget: no buffers" ∧ ∀ i, 0 < (s.c.buf i).refcnt := by
  cases e with
  | get b =>
    simp only [step] at failed
    obtain ⟨order, loop, all⟩ := inv.loop
    rcases bget_cases loop all b with ⟨j, _, hit⟩ | ⟨_, j, _, miss⟩ | ⟨_, used, none⟩
    · rw [hit] at failed
      cases failed
    · rw [miss] at failed
      cases failed
    · rw [none] at failed
      cases failed
      exact ⟨rfl, used⟩
  | _ =>
    simp only [step] at failed
    split_ifs at failed
    all_goals cases failed

/-- The cache is transparent: every block is in at most one buffer, the list is one loop through the head and every
buffer, a buffer in use keeps its block, bread returns the latest contents, and it panics only if every buffer is
in use. -/
theorem cache_transparent (reachable : Reachable Init (Steps Written) s) :
    (∀ i j b, Holds s.c i b → Holds s.c j b → i = j) ∧
      (∃ order, Loop s.c.links order ∧ ∀ i, i ∈ order) ∧
      (∀ e s', step s e = some (.ok s') → ∀ i, 0 < (s.c.buf i).refcnt → ∀ b, Holds s.c i b → Holds s'.c i b) ∧
      (∀ i b s', step s (.enter i b) = some (.ok s') →
        Holds s'.c i b ∧ (s'.c.buf i).data = s.mem b ∧ s'.mem = s.mem) ∧
      ∀ e message, step s e = some (.error message) → message = "bget: no buffers" ∧ ∀ i, 0 < (s.c.buf i).refcnt := by
  have inv := Inv.of_reachable reachable
  exact ⟨inv.contents.unique, inv.loop, fun _ _ taken => inv.never_recycled taken, fun _ _ _ taken => inv.reads taken,
    inv.panics⟩

instance (s : State) : (e : Event) → Decidable (Saved s e)
  | .leave i => inferInstanceAs (Decidable (s.unsaved i = false))
  | .get _ | .enter _ _ | .modify _ _ | .bwrite _ | .logWrite _ | .bunpin _ | .drop _ => .isTrue trivial

instance (s : State) : (e : Event) → Decidable (Written s e)
  | .leave i => inferInstanceAs (Decidable (s.unsaved i = false))
  | .bunpin i => inferInstanceAs (Decidable (s.dirty i = false))
  | .get _ | .enter _ _ | .modify _ _ | .bwrite _ | .logWrite _ | .drop _ => .isTrue trivial

def blank : State where
  c := { buf := fun _ => ⟨false, 0, 0, false, 0, fun _ => 0⟩, links := binit }
  disk _ _ := 0
  waiting _ := []
  leaving _ := 0
  pinned _ := false
  unsaved _ := false
  dirty _ := false
  mem _ _ := 0

theorem blank_init : Init blank where
  links := rfl
  blank _ := ⟨rfl, rfl, rfl⟩
  nobody _ := ⟨rfl, rfl, rfl, rfl⟩
  same := rfl

def last : Slot := ⟨29, by decide⟩

/-- With all other buffers in use, block 0 is changed, and then its buffer is given to block 30 before block 0 is
asked for again. -/
def recycling (save release : List Event) : List Event :=
  (List.range 29).map (fun j => .get (BitVec.ofNat 32 (j + 1))) ++
    [.get 0, .enter last 0, .modify last fun _ => 7] ++ save ++ [.leave last, .drop last] ++ release ++
    [.get 30, .enter last 30, .leave last, .drop last, .get 0]

/-- What a log_write and the commit after it do with the buffer: the commit reads it again, and writes it before it
unpins it. -/
def throughLog : List Event :=
  recycling [.logWrite last] [.get 0, .enter last 0, .bwrite last, .bunpin last, .leave last, .drop last]

theorem cache_transparent_recycled : ∃ s s' : State, throughLog.foldlM (allowed Written step) blank = some s ∧
    ¬(s.c.buf last).valid ∧ step s (.enter last 0) = some (.ok s') ∧
      (Holds s'.c last 0 ∧ (s'.c.buf last).data = s.mem 0) ∧ byteAt (s'.c.buf last).data 0 = 7 ∧
      (∀ j, Holds s'.c j 0 → j = last) ∧ ∃ order, Loop s'.c.links order ∧ ∀ i, i ∈ order := by
  have played : ((throughLog.foldlM (allowed Written step) blank).bind fun s =>
      (allowed Written step s (.enter last 0)).map fun _ => ((s.c.buf last).valid, byteAt (s.mem 0) 0)) =
        some (false, 7) := by
    decide +kernel
  obtain ⟨s, found, played⟩ := Option.bind_eq_some_iff.mp played
  obtain ⟨s', entered, facts⟩ := Option.map_eq_some_iff.mp played
  obtain ⟨stale, stored⟩ := Prod.mk.inj facts
  obtain ⟨fits, taken⟩ := allowed_eq_some entered
  have reachable : Reachable Init (Steps Written) s := .allowed blank_init found
  obtain ⟨holds, contents, _⟩ := (cache_transparent reachable).2.2.2.1 last 0 s' taken
  have after := cache_transparent (reachable.step s s' ⟨_, fits, taken⟩)
  exact ⟨s, s', found, by rw [stale]; decide, taken, ⟨holds, contents⟩, by rw [contents]; exact stored,
    fun j there => after.1 j last 0 there holds, after.2.1⟩

/-- Unpinned before it is written. -/
def unpinnedEarly : List Event := recycling [.logWrite last, .bunpin last] []

theorem unpinned_block_is_lost : ∃ s s' : State, Reachable Init (Steps Saved) s ∧
    step s (.enter last 0) = some (.ok s') ∧ (s'.c.buf last).data ≠ s.mem 0 := by
  have played : ((unpinnedEarly.foldlM (allowed Saved step) blank).map fun s => (s.waiting last, (s.c.buf last).locked,
      byteAt ((bread s.c s.disk last).buf last).data 0, byteAt (s.mem 0) 0)) = some ([0], false, 0, 7) := by
    decide +kernel
  obtain ⟨s, found, facts⟩ := Option.map_eq_some_iff.mp played
  simp only [Prod.mk.injEq] at facts
  obtain ⟨waiting, free, got, stored⟩ := facts
  refine ⟨s, _, .allowed blank_init found, if_pos ⟨by rw [waiting]; simp, free⟩, ?_⟩
  intro same
  have byte := congrArg (byteAt · 0) same
  simp only at byte
  rw [stored] at byte
  exact absurd (got.symm.trans byte) (by decide)

end Steps

end Xv6.Fs.Transparent
