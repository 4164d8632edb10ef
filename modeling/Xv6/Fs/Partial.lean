import Xv6.Fs.Logged
import Xv6.Vm.Transfers

/-! writei from a buffer that cannot be read to its end. The copy that fails has changed a cached block already, and that
block is not logged. -/

namespace Xv6.Fs.Partial

open Lib.Bytes Format Inode Blocks Transfer Overlay Logged Function List
open Disklog.Commit (Blockno Block Disk)

section Buffers
open Vm.UserMem (userByte readUpto copyinStoring_run)
open Vm.Pagetable (copyinStoring)
open Vm.Transfers (length_readUpto readUpto_byte)

/-- A buffer at a user address: a copy from it ends at the first byte that cannot be read. -/
def bufferSource (mem : Nat → Option Byte) (va : Nat) : Source where
  byte k := (mem (va + k)).getD 0
  reach start count := (readUpto mem count (va + start)).length
  le start count := length_readUpto mem count (va + start)

theorem copyin_bufferSource (m : Vm.Memory.Mem) (pagetable va start count : Nat) :
    copyinStoring pagetable (va + start) count m =
      .ok ((List.range ((bufferSource (userByte m pagetable) va).reach start count)).map fun x =>
          (bufferSource (userByte m pagetable) va).byte (start + x),
        decide ((bufferSource (userByte m pagetable) va).reach start count = count)) m := by
  rw [copyinStoring_run]
  have bytes : readUpto (userByte m pagetable) count (va + start) =
      (List.range ((bufferSource (userByte m pagetable) va).reach start count)).map fun x =>
        (bufferSource (userByte m pagetable) va).byte (start + x) := by
    apply ext_getElem
    · rw [length_map, length_range]
      rfl
    · intro k inside _
      have byte := readUpto_byte _ _ _ _ inside
      rw [Nat.add_assoc, List.getElem?_eq_getElem inside] at byte
      rw [getElem_map, getElem_range]
      exact (congrArg (fun b : Option Byte => b.getD 0) byte).symm
  rw [← bytes]
  rfl

end Buffers

variable {sb : Layout} {ι : Type} [DecidableEq ι] {w : World ι} {i : ι} {src : Source} {n : Nat}

section Quiet

/-- The loop changes only blocks that it logs, and where a copy fails the block of that copy. -/
theorem writeLoopLogged_quiet (fuel : Nat) {off tot : Nat} (owned : Owned sb w) (start : tot ≤ n) (enough : n - tot ≤ fuel)
    (room : off + (n - tot) ≤ MAXFILE * BSIZE) :
    ∃ s' tot' log, writeLoopLogged sb src n fuel (w.file i) off tot = .ok ((s', tot'), log) ∧
      writeLoop sb src n fuel (w.file i) off tot = .ok (s', tot') ∧ ∀ b, b ∉ log → s'.disk b = w.disk b ∨
        (∃ extra, StopsAt src n off tot tot' extra) ∧
          ∃ inside, b = ref s' (dataSlot ⟨(off + (tot' - tot)) / BSIZE, inside⟩) ∧ b ≠ 0 := by
  induction fuel generalizing w off tot with
  | zero => exact ⟨w.file i, tot, [], rfl, rfl, fun _ _ => .inl rfl⟩
  | succ fuel ih =>
    by_cases more : tot < n
    · have bound : off / BSIZE < MAXFILE := Nat.div_lt_of_lt_mul (by rw [Nat.mul_comm]; omega)
      have positive : 0 < BSIZE - off % BSIZE := Nat.sub_pos_of_lt (Nat.mod_lt _ (by decide))
      obtain ⟨m, size⟩ : ∃ m, m = min (n - tot) (BSIZE - off % BSIZE) := ⟨_, rfl⟩
      obtain ⟨s₁, addr, log, ran, mapped⟩ := bmapLogged_spec sb (w.file i) ⟨off / BSIZE, bound⟩
      by_cases none : addr = 0
      · refine ⟨s₁, tot, log, ?_, ?_, fun b outside => .inl (mapped.quiet b outside)⟩
        · rw [writeLoopLogged, if_pos more, ran]
          exact if_pos none
        · rw [writeLoop, if_pos more, mapped.run]
          exact if_pos none
      · obtain ⟨s₁', addr', run, kept, same, here, -⟩ := bmap_spec (i := i) owned ⟨off / BSIZE, bound⟩
        rw [mapped.run] at run
        obtain ⟨rfl, rfl⟩ := Prod.mk.inj (Except.ok.inj run)
        have reach := src.le tot m
        obtain ⟨kept', there, -⟩ := patch_spec (fun x => src.byte (tot + x)) kept same none (here none) rfl
          (show src.reach tot m ≤ BSIZE - off % BSIZE by omega)
        have others : ∀ b, b ∉ log → b ≠ addr →
            (patch s₁ addr off (src.reach tot m) fun x => src.byte (tot + x)).disk b = w.disk b :=
          fun b outside other => (update_of_ne other _ _).trans (mapped.quiet b outside)
        rw [writeLoop_round more mapped.run none size, writeLoopLogged_round more ran none size]
        by_cases whole : src.reach tot m = m
        · obtain ⟨s', tot', rest, ran', plain, quiet⟩ := @ih (w.put i _) (off + m) (tot + m) kept'.owned (by omega) (by omega)
            (by omega)
          rw [World.file_put_same] at ran' plain
          refine ⟨s', tot', log ++ addr :: rest, ?_, (if_pos whole).trans plain, fun b outside => ?_⟩
          · refine (if_pos whole).trans ?_
            rw [ran']
            rfl
          · rw [mem_append, mem_cons, not_or, not_or] at outside
            obtain ⟨early, other, late⟩ := outside
            refine (quiet b late).imp (fun same => same.trans (others b early other)) ?_
            rintro ⟨⟨extra, stops⟩, inside, equal, some⟩
            have bounds := stops.bounds
            have place : off + m + (tot' - (tot + m)) = off + (tot' - tot) := by omega
            simp only [place] at inside equal
            exact ⟨⟨extra, .next off tot m tot' extra more size whole stops⟩, inside, equal, some⟩
        · refine ⟨_, tot, log, if_neg whole, if_neg whole, fun b outside => ?_⟩
          by_cases other : b = addr
          · subst other
            simp only [Nat.sub_self, Nat.add_zero]
            exact .inr ⟨⟨_, .here off tot m more size (by omega)⟩, bound, there.symm, none⟩
          · exact .inl (others b outside other)
    · refine ⟨w.file i, tot, [], ?_, ?_, fun _ _ => .inl rfl⟩
      · rw [writeLoopLogged, if_neg more]
      · rw [writeLoop, if_neg more]

theorem ref_finish {inum : Nat} {s : File} (off : BitVec 32) (tot : Nat) (owned : Owned sb (w.put i s)) (small : inum < sb.ninodes)
    (slot : Slot) : ref (finish sb inum off s tot) slot = ref s slot := by
  have written : ∀ ip : Dinode, ip.addrs = s.ip.addrs → ref (iupdate sb inum { s with ip }) slot = ref s slot := by
    intro ip addrs
    have same := (iupdate_spec owned small ip addrs).2.2.1 i slot
    rwa [World.file_put_same, World.file_put_same] at same
  unfold finish
  dsimp only
  split_ifs
  · exact written _ rfl
  · exact written s.ip rfl

theorem disk_finish {inum : Nat} {s : File} (off : BitVec 32) (tot : Nat) {b : Blockno} (other : b ≠ IBLOCK sb inum) :
    (finish sb inum off s tot).disk b = s.disk b := by
  unfold finish
  dsimp only
  split_ifs
  · exact update_of_ne other _ _
  · exact update_of_ne other _ _

/-- A block that writei changes without logging it is that of the copy that failed. -/
theorem writeiLogged_wrote (src : Source) {inum : Nat} {off n : BitVec 32} (owned : Owned sb w) (small : inum < sb.ninodes)
    (inside : ¬(off > (w.inodes i).size ∨ off + n < off)) (room : ¬(off + n).toNat > MAXFILE * BSIZE) :
    ∃ s' tot extra log, writeiLogged sb inum (w.file i) src off n = .ok ((s', (tot : Nat)), log) ∧
      Wrote sb inum src w i off.toNat n.toNat s' tot extra ∧ ∀ b, b ∉ log → s'.disk b = w.disk b ∨
        (∃ extra, StopsAt src n.toNat off.toNat 0 tot extra) ∧
          ∃ inside, b = ref s' (dataSlot ⟨(off.toNat + tot) / BSIZE, inside⟩) ∧ b ≠ 0 := by
  have total : (off + n).toNat = off.toNat + n.toNat := toNat_add_of_not_lt (not_or.mp inside).2
  obtain ⟨s₁, tot, log, ran, plain, quiet⟩ := @writeLoopLogged_quiet sb ι _ w i src n.toNat n.toNat off.toNat 0 owned
    (Nat.zero_le _) le_rfl (by omega)
  obtain ⟨s₁', tot', extra, plain', done⟩ := @writeLoop_spec sb ι _ w i src n.toNat n.toNat off.toNat 0 owned
    (Nat.zero_le _) le_rfl (by omega)
  rw [plain] at plain'
  obtain ⟨rfl, rfl⟩ := Prod.mk.inj (Except.ok.inj plain')
  obtain ⟨logged, written⟩ := @writei_finish sb inum _ _ _ _ _ _ _ inside room ran plain
  obtain ⟨s', tot', extra', written', wrote⟩ := writei_wrote src owned small inside room
  rw [written] at written'
  obtain ⟨rfl, same⟩ := Prod.mk.inj (Except.ok.inj written')
  obtain rfl := Int.ofNat.inj same
  refine ⟨_, tot, extra', _, logged, wrote, fun b outside => ?_⟩
  rw [mem_append, mem_singleton, not_or] at outside
  rw [disk_finish off tot outside.2]
  refine (quiet b outside.1).imp id (And.imp id ?_)
  rintro ⟨inside, equal, some⟩
  simp only [Nat.sub_zero] at inside equal
  exact ⟨inside, by rw [ref_finish off tot done.kept.owned small]; exact equal, some⟩

end Quiet

section Views

/-- The blocks some time after a call: one that the call did not log may have lost its buffer, and then it reads as it did
before the call. -/
def evict (before after : Disk) (log : List Blockno) (lost : Blockno → Bool) : Disk :=
  fun b => if lost b = true ∧ b ∉ log then before b else after b

variable {log : List Blockno}

theorem evict_same {before after : Disk} {lost : Blockno → Bool}
    (kept : ∀ b, lost b = true → b ∉ log → after b = before b) : evict before after log lost = after := by
  funext b
  exact ite_eq_right_iff.mpr fun gone => (kept b gone.1 gone.2).symm

theorem evict_one {before after : Disk} {lost : Blockno → Bool} {b : Blockno} (gone : lost b = true)
    (unlogged : b ∉ log) (others : ∀ b', b' ∉ log → b' ≠ b → after b' = before b') :
    evict before after log lost = update after b (before b) := by
  funext b'
  by_cases here : b' = b
  · subst here
    rw [update_self]
    exact if_pos ⟨gone, unlogged⟩
  · rw [update_of_ne here]
    exact ite_eq_right_iff.mpr fun both => (others b' both.2 here).symm

theorem Wrote.extra_block {inum off n tot extra k : Nat} {s' : File} (wrote : Wrote sb inum src w i off n s' tot extra)
    (low : off + tot ≤ k) (high : k < off + tot + extra) : k / BSIZE = (off + tot) / BSIZE := by
  rcases wrote.stop with ⟨-, none⟩ | ⟨-, none, -⟩ | stops
  · omega
  · omega
  · have fits := stops.fits
    rw [Nat.sub_zero] at fits
    exact ((part_iff (off + tot) k fits.le).mpr ⟨low, high⟩).1

theorem content_lost {inum off n tot extra extra' k : Nat} {s' : File} (wrote : Wrote sb inum src w i off n s' tot extra)
    (dense : Dense (w.file i)) (low : off ≤ (w.inodes i).size.toNat) (stops : StopsAt src n off 0 tot extra')
    (inside : (off + tot) / BSIZE < MAXFILE) (some : ref s' (dataSlot ⟨(off + tot) / BSIZE, inside⟩) ≠ 0)
    (below : k < s'.ip.size.toNat) :
    content (((w.put i s').store i ⟨(off + tot) / BSIZE, inside⟩
      (w.disk (ref s' (dataSlot ⟨(off + tot) / BSIZE, inside⟩)))).file i) k =
        overlay (content (w.file i)) src.byte off tot k := by
  have mine : ref ((w.put i s').file i) (dataSlot ⟨(off + tot) / BSIZE, inside⟩) =
      ref s' (dataSlot ⟨(off + tot) / BSIZE, inside⟩) := by rw [World.file_put_same]
  have aligned := stops.aligned
  rw [Nat.sub_zero] at aligned
  rw [wrote.size] at below
  rw [content_store wrote.owned (mine ▸ some)]
  unfold overlay
  by_cases block : k / BSIZE = (off + tot) / BSIZE
  · -- such a byte is behind those that were reported, and in front of the old end
    have late : ¬(off ≤ k ∧ k < off + tot) := by
      simp only [BSIZE] at *
      omega
    have early : k < (w.inodes i).size.toNat := by omega
    have start : (off + tot) / BSIZE * BSIZE ≤ k := block ▸ Nat.div_mul_le_self k BSIZE
    have there := dense.there ⟨(off + tot) / BSIZE, inside⟩ (start.trans_lt early)
    have same := wrote.refs i _ there
    rw [mine] at same
    rw [if_pos ⟨rfl, block⟩, if_neg late, content_of_ref block there, same]
    rfl
  · rw [if_neg fun both => block both.2, wrote.content i k]
    refine if_congr ⟨fun both => ⟨both.2.1, ?_⟩, fun both => ⟨rfl, both.1, by omega⟩⟩ rfl rfl
    by_contra late
    exact block (Wrote.extra_block wrote (by omega) both.2.2)

/-- The two views of the file: the one that the cache has, and the one without the bytes of the copy that failed. -/
theorem content_evict {inum off n tot extra : Nat} {s' : File} (wrote : Wrote sb inum src w i off n s' tot extra)
    (dense : Dense (w.file i)) (low : off ≤ (w.inodes i).size.toNat)
    (quiet : ∀ b, b ∉ log → s'.disk b = w.disk b ∨ (∃ extra, StopsAt src n off 0 tot extra) ∧
      ∃ inside, b = ref s' (dataSlot ⟨(off + tot) / BSIZE, inside⟩) ∧ b ≠ 0) (lost : Blockno → Bool) :
    (∀ slot, ref ⟨evict w.disk s'.disk log lost, s'.ip⟩ slot = ref s' slot) ∧
    ((∀ k, content ⟨evict w.disk s'.disk log lost, s'.ip⟩ k = content s' k) ∨
      ∀ k < s'.ip.size.toNat, content ⟨evict w.disk s'.disk log lost, s'.ip⟩ k =
        overlay (content (w.file i)) src.byte off tot k) := by
  by_cases gone : ∃ b, lost b = true ∧ b ∉ log ∧ s'.disk b ≠ w.disk b
  · obtain ⟨b, out, unlogged, changed⟩ := gone
    obtain ⟨⟨extra', stops⟩, inside, equal, some⟩ := (quiet b unlogged).resolve_left changed
    have others : ∀ b', b' ∉ log → b' ≠ b → s'.disk b' = w.disk b' := by
      intro b' outside other
      refine (quiet b' outside).resolve_right ?_
      rintro ⟨-, _, equal', -⟩
      exact other (equal'.trans equal.symm)
    rw [evict_one out unlogged others]
    subst equal
    have mine : ref ((w.put i s').file i) (dataSlot ⟨(off + tot) / BSIZE, inside⟩) =
        ref s' (dataSlot ⟨(off + tot) / BSIZE, inside⟩) := by rw [World.file_put_same]
    have view : (⟨update s'.disk (ref s' (dataSlot ⟨(off + tot) / BSIZE, inside⟩))
          (w.disk (ref s' (dataSlot ⟨(off + tot) / BSIZE, inside⟩))), s'.ip⟩ : File) =
        ((w.put i s').store i ⟨(off + tot) / BSIZE, inside⟩
          (w.disk (ref s' (dataSlot ⟨(off + tot) / BSIZE, inside⟩)))).file i := by
      rw [World.store, mine]
      exact congrArg (File.mk _) (congrArg File.ip (World.file_put_same w i s')).symm
    rw [view]
    refine ⟨fun slot => ?_, .inr fun k below => content_lost wrote dense low stops inside some below⟩
    rw [ref_store wrote.owned (mine ▸ some), World.file_put_same]
  · have kept : evict w.disk s'.disk log lost = s'.disk := by
      refine evict_same fun b out unlogged => ?_
      by_contra changed
      exact gone ⟨b, out, unlogged, changed⟩
    rw [kept]
    exact ⟨fun _ => rfl, .inl fun _ => rfl⟩

end Views

section Reports

/-- At any time after writei has reported a number of bytes, a read of any part of the file finds the old bytes with those that
were reported on top. -/
def Reported (sb : Layout) (inum : Nat) (s : File) (src : Source) (off n : BitVec 32) : Prop :=
  ∀ s' (tot : Nat) log, writeiLogged sb inum s src off n = .ok ((s', (tot : Int)), log) → ∀ (lost : Blockno → Bool) (dst : Dest),
    (∀ start count, dst.accepts start count = true) → ∀ off' n' : BitVec 32, off'.toNat + n'.toNat < 2 ^ 32 →
      readi sb ⟨evict s.disk s'.disk log lost, s'.ip⟩ dst off' n' =
        .ok (⟨evict s.disk s'.disk log lost, s'.ip⟩, (available s' off'.toNat n'.toNat : Nat),
          (List.range (available s' off'.toNat n'.toNat)).map fun x => overlay (content s) src.byte off.toNat tot (off'.toNat + x))

/-- Where a copy fails inside the old file, the bytes that it has left there are the old ones. -/
def Harmless (s : File) (src : Source) (off n : Nat) : Prop :=
  ∀ stop extra, StopsAt src n off 0 stop extra → ∀ k, off + stop ≤ k → k < off + stop + extra → k < s.ip.size.toNat →
    src.byte (k - off) = content s k

theorem Wrote.reaches {inum off n tot extra stop extra' k : Nat} {s' : File} (wrote : Wrote sb inum src w i off n s' tot extra)
    (dense : Dense (w.file i)) (stops : StopsAt src n off 0 stop extra') (late : off + stop ≤ k)
    (below : k < (w.inodes i).size.toNat) : tot = stop ∧ extra = extra' := by
  have before := wrote.before stop extra' stops
  have bounds := stops.bounds
  rcases wrote.stop with ⟨all, -⟩ | ⟨-, -, missing⟩ | stops'
  · omega
  · have small : (w.inodes i).size.toNat ≤ MAXFILE * BSIZE := dense.bound
    have inside : (off + tot) / BSIZE < MAXFILE := Nat.div_lt_of_lt_mul (by rw [Nat.mul_comm]; omega)
    have start : (off + tot) / BSIZE * BSIZE ≤ off + tot := Nat.div_mul_le_self _ _
    exact absurd (missing inside) (dense.there ⟨(off + tot) / BSIZE, inside⟩ (start.trans_lt (by show _ < (w.inodes i).size.toNat; omega)))
  · exact stops'.unique stops

theorem Harmless.content_eq {inum off n tot extra k : Nat} {s' : File} (harmless : Harmless (w.file i) src off n)
    (wrote : Wrote sb inum src w i off n s' tot extra) (below : k < s'.ip.size.toNat) :
    content s' k = overlay (content (w.file i)) src.byte off tot k := by
  rw [wrote.size] at below
  have seen := wrote.content i k
  rw [World.file_put_same] at seen
  rw [seen, overlay]
  by_cases late : off + tot ≤ k ∧ k < off + tot + extra
  · rw [if_pos ⟨rfl, by omega⟩, if_neg (by omega)]
    rcases wrote.stop with ⟨-, none⟩ | ⟨-, none, -⟩ | stops
    · omega
    · omega
    · exact harmless tot extra stops k late.1 late.2 (show k < (w.inodes i).size.toNat by omega)
  · exact if_congr (by simp only [true_and]; omega) rfl rfl

/-- A write whose copy fails changes nothing that it does not report exactly where that copy is harmless. -/
theorem reported_iff (sb : Layout) (w : World ι) (wf : WellFormed sb w) (i : ι) (inum : Nat) (small : inum < sb.ninodes)
    (src : Source) (off n : BitVec 32) :
    (∃ result, writeiLogged sb inum (w.file i) src off n = .ok result) ∧
    (Reported sb inum (w.file i) src off n ↔
      (off.toNat ≤ (w.inodes i).size.toNat → off.toNat + n.toNat ≤ MAXFILE * BSIZE →
        Harmless (w.file i) src off.toNat n.toNat)) := by
  have limit : MAXFILE * BSIZE < 2 ^ 32 := by decide
  by_cases fits : off.toNat ≤ (w.inodes i).size.toNat ∧ off.toNat + n.toNat ≤ MAXFILE * BSIZE
  · obtain ⟨low, room⟩ := fits
    have total : (off + n).toNat = off.toNat + n.toNat := by rw [BitVec.toNat_add, Nat.mod_eq_of_lt (by omega)]
    have inside : ¬(off > (w.inodes i).size ∨ off + n < off) := by
      rw [gt_iff_lt, BitVec.lt_def, BitVec.lt_def, total]
      omega
    obtain ⟨s', tot, extra, log, ran, wrote, quiet⟩ := writeiLogged_wrote src wf.owned small inside (by omega)
    have le := wrote.le
    have dense : Dense s' := by
      have mine := (Wrote.dense wrote wf low (by omega)).dense i
      rwa [World.file_put_same] at mine
    refine ⟨⟨_, ran⟩, fun reported _ _ stop extra' stops k late early below => ?_, fun harmless => ?_⟩
    · obtain ⟨rfl, rfl⟩ := Wrote.reaches wrote (wf.dense i) stops late below
      have size := wrote.size
      have place : (BitVec.ofNat 32 k).toNat = k := by
        rw [BitVec.toNat_ofNat]
        exact Nat.mod_eq_of_lt (below.trans (w.inodes i).size.isLt)
      have small : k + 1 < 2 ^ 32 := by
        have bound : (w.inodes i).size.toNat ≤ MAXFILE * BSIZE := (wf.dense i).bound
        have below' : k < (w.inodes i).size.toNat := below
        omega
      have one : available s' k 1 = 1 := by
        have below' : k < (w.inodes i).size.toNat := below
        unfold available
        omega
      have read := reported s' tot log ran (fun _ => false) ⟨fun _ _ => true⟩ (fun _ _ => rfl) (BitVec.ofNat 32 k) 1
        (by rw [place]; exact small)
      have kept : evict (w.file i).disk s'.disk log (fun _ => false) = s'.disk := evict_same fun _ gone => nomatch gone
      rw [kept, readi_dense dense (fun _ _ => rfl) (BitVec.ofNat 32 k) 1 (by rw [place]; exact small)] at read
      rw [place, show (1 : BitVec 32).toNat = 1 from rfl, one] at read
      have byte : content s' k = overlay (content (w.file i)) src.byte off.toNat tot k := by
        simpa [contents] using read
      have seen := wrote.content i k
      rw [World.file_put_same, if_pos ⟨rfl, by omega⟩] at seen
      rw [← seen, byte, overlay, if_neg (by omega)]
    · intro s₁ tot₁ log₁ ran₁ lost dst accepts off' n' fits
      rw [ran] at ran₁
      obtain ⟨result, rfl⟩ := Prod.mk.inj (Except.ok.inj ran₁)
      obtain ⟨rfl, same⟩ := Prod.mk.inj result
      obtain rfl := Int.ofNat.inj same
      obtain ⟨refs, views⟩ := content_evict wrote (wf.dense i) low quiet lost
      have dense' : Dense ⟨evict (w.file i).disk s'.disk log lost, s'.ip⟩ :=
        ⟨dense.bound, fun bn below => (refs (dataSlot bn)).symm ▸ dense.there bn below⟩
      have bytes : ∀ k < s'.ip.size.toNat, content ⟨evict (w.file i).disk s'.disk log lost, s'.ip⟩ k =
          overlay (content (w.file i)) src.byte off.toNat tot k := by
        rcases views with cached | evicted
        · exact fun k below => (cached k).trans ((harmless low room).content_eq wrote below)
        · exact evicted
      rw [readi_dense dense' accepts off' n' fits]
      have list : contents ⟨evict (w.file i).disk s'.disk log lost, s'.ip⟩ off'.toNat (available s' off'.toNat n'.toNat) =
          (List.range (available s' off'.toNat n'.toNat)).map fun x =>
            overlay (content (w.file i)) src.byte off.toNat tot (off'.toNat + x) := by
        refine map_congr_left fun x mem => bytes _ ?_
        have bound := mem_range.mp mem
        unfold available at bound
        omega
      rw [← list]
      rfl
  · have refused : writeiLogged sb inum (w.file i) src off n = .ok ((w.file i, -1), []) := by
      by_cases early : off > (w.inodes i).size ∨ off + n < off
      · exact if_pos early
      · have total := toNat_add_of_not_lt (not_or.mp early).2
        have low : off.toNat ≤ (w.inodes i).size.toNat := by
          have before := (not_or.mp early).1
          rw [gt_iff_lt, BitVec.lt_def] at before
          omega
        exact (if_neg early).trans (if_pos (by omega))
    refine ⟨⟨_, refused⟩, fun _ low room => absurd ⟨low, room⟩ fits, fun _ s' tot log ran => ?_⟩
    rw [refused] at ran
    have negative := (Prod.mk.inj (Prod.mk.inj (Except.ok.inj ran)).1).2
    omega

def splitBuffer : Source := bufferSource (fun a => if a < PGSIZE then some 7 else none) (PGSIZE - 2)

/-- At the end of a file the bytes of the copy that fails are behind the file. -/
theorem reported_iff_sample : Reported Offsets.sampleLayout 2 (Offsets.sample.world.file ()) splitBuffer 4 4 := by
  refine (reported_iff Offsets.sampleLayout Offsets.sample.world sample_wellFormed () 2 (by decide) splitBuffer 4 4).2.mpr ?_
  intro _ _ stop extra _ k late _ below
  have start : 4 + stop ≤ k := late
  have size : k < 4 := below
  omega

/-- A write of four bytes over a file of four, of which two can be read, reports none and is seen to have written two. -/
theorem partial_copy_seen : (∃ s' log,
    writeiLogged Offsets.sampleLayout 2 (Offsets.sample.world.file ()) splitBuffer 0 4 = .ok ((s', ((0 : Nat) : Int)), log) ∧
      contents (Offsets.sample.world.file ()) 0 4 = [0xff, 0xff, 0xff, 0xff] ∧
      readi Offsets.sampleLayout s' ⟨fun _ _ => true⟩ 0 4 = .ok (s', 4, [7, 7, 0xff, 0xff])) ∧
    ¬Reported Offsets.sampleLayout 2 (Offsets.sample.world.file ()) splitBuffer 0 4 := by
  have run : ∃ s' log,
      writeiLogged Offsets.sampleLayout 2 (Offsets.sample.world.file ()) splitBuffer 0 4 = .ok ((s', ((0 : Nat) : Int)), log) ∧
        contents (Offsets.sample.world.file ()) 0 4 = [0xff, 0xff, 0xff, 0xff] ∧
        readi Offsets.sampleLayout s' ⟨fun _ _ => true⟩ 0 4 = .ok (s', 4, [7, 7, 0xff, 0xff]) ∧ available s' 0 4 = 4 :=
    ⟨_, _, rfl, rfl, rfl, rfl⟩
  obtain ⟨s', log, ran, old, read, four⟩ := run
  refine ⟨⟨s', log, ran, old, read⟩, fun reported => ?_⟩
  have seen := reported s' 0 log ran (fun _ => false) ⟨fun _ _ => true⟩ (fun _ _ => rfl) 0 4 (by decide)
  have kept : evict (Offsets.sample.world.file ()).disk s'.disk log (fun _ => false) = s'.disk :=
    evict_same fun _ gone => nomatch gone
  have bytes := (Prod.mk.inj (Prod.mk.inj (Except.ok.inj (read.symm.trans (kept ▸ seen)))).2).2
  rw [show (0 : BitVec 32).toNat = 0 from rfl, show (4 : BitVec 32).toNat = 4 from rfl, four] at bytes
  exact absurd bytes (by decide)

end Reports

end Xv6.Fs.Partial
