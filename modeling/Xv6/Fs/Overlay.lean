import Xv6.Fs.Offsets

/-! Reads see writes: the contents of a file after writei are the old ones with the new bytes on top. -/

namespace Xv6.Fs.Overlay

open Lib.Bytes Format Inode Blocks Transfer BitVec
open Disklog.Commit (Blockno Block Disk)

structure Dense (s : File) : Prop where
  bound : s.ip.size.toNat ≤ MAXFILE * BSIZE
  there : ∀ bn : Fin MAXFILE, bn.val * BSIZE < s.ip.size.toNat → ref s (dataSlot bn) ≠ 0

variable {sb : Layout} {ι : Type} [DecidableEq ι] {w : World ι} {i : ι}

/-- Each block belongs to one inode at most, and no file has a hole. -/
structure WellFormed (sb : Layout) (w : World ι) : Prop where
  owned : Owned sb w
  dense : ∀ j, Dense (w.file j)

def available (s : File) (off n : Nat) : Nat := min n (s.ip.size.toNat - off)

theorem readi_dense {s : File} {dst : Dest} (dense : Dense s) (accepts : ∀ start count, dst.accepts start count = true)
    (off n : BitVec 32) (fits : off.toNat + n.toNat < 2 ^ 32) : readi sb s dst off n =
      .ok (s, (available s off.toNat n.toNat : Nat), contents s off.toNat (available s off.toNat n.toNat)) := by
  have total : (off + n).toNat = off.toNat + n.toNat := by rw [toNat_add, Nat.mod_eq_of_lt fits]
  have bound := dense.bound
  by_cases beyond : off > s.ip.size
  · have nothing : available s off.toNat n.toNat = 0 := by
      rw [gt_iff_lt, lt_def] at beyond
      unfold available
      omega
    rw [nothing]
    exact if_pos (Or.inl beyond)
  · have inside : ¬(off > s.ip.size ∨ off + n < off) := by
      refine not_or.mpr ⟨beyond, ?_⟩
      rw [lt_def, total]
      omega
    have low : off.toNat ≤ s.ip.size.toNat := by
      rw [gt_iff_lt, lt_def] at beyond
      omega
    have count : (if off + n > s.ip.size then s.ip.size - off else n).toNat = available s off.toNat n.toNat := by
      unfold available
      split_ifs with past
      · rw [gt_iff_lt, lt_def, total] at past
        rw [toNat_sub_of_le (by rw [le_def]; exact low)]
        omega
      · rw [gt_iff_lt, lt_def, total] at past
        omega
    have within : off.toNat + available s off.toNat n.toNat ≤ s.ip.size.toNat := by
      unfold available
      omega
    refine (if_neg inside).trans ?_
    show readLoop sb dst (if off + n > s.ip.size then s.ip.size - off else n).toNat
      (if off + n > s.ip.size then s.ip.size - off else n).toNat s off.toNat 0 [] = _
    rw [count]
    exact readLoop_present accepts _ (Nat.zero_le _) le_rfl (by omega) fun bn below _ => dense.there bn (by omega)

/-- The old bytes with count new ones on top from an offset on. -/
def overlay (old new : Nat → Byte) (off count k : Nat) : Byte :=
  if off ≤ k ∧ k < off + count then new (k - off) else old k

theorem Wrote.dense {inum : Nat} {src : Source} {off n tot extra : Nat} {s' : File}
    (wrote : Wrote sb inum src w i off n s' tot extra) (wf : WellFormed sb w) (low : off ≤ (w.inodes i).size.toNat)
    (room : off + tot ≤ MAXFILE * BSIZE) : WellFormed sb (w.put i s') := by
  refine ⟨wrote.owned, fun j => ?_⟩
  by_cases mine : j = i
  · subst mine
    have bound : (w.inodes j).size.toNat ≤ MAXFILE * BSIZE := (wf.dense j).bound
    rw [World.file_put_same]
    refine ⟨by rw [wrote.size]; exact max_le bound room, fun bn below => ?_⟩
    rw [wrote.size, lt_max_iff] at below
    by_cases old : bn.val * BSIZE < (w.inodes j).size.toNat
    · have there := (wf.dense j).there bn old
      have kept := wrote.refs j (dataSlot bn) there
      rw [World.file_put_same] at kept
      rw [kept]
      exact there
    · -- the block starts behind the old end, so its first byte has been written
      have start : bn.val * BSIZE / BSIZE = bn.val := Nat.mul_div_cancel _ (by decide)
      have there := wrote.there (bn.val * BSIZE) (by rw [start]; exact bn.isLt) (by omega) (by omega)
      simpa only [start] using there
  · have same : ((w.put i s').file j).ip = (w.file j).ip := by rw [World.file_put_other w s' mine]; rfl
    refine ⟨by rw [same]; exact (wf.dense j).bound, fun bn below => ?_⟩
    rw [same] at below
    have there := (wf.dense j).there bn below
    rw [wrote.refs j (dataSlot bn) there]
    exact there

/-- File reads see file writes. -/
theorem reads_see_writes (sb : Layout) (w : World ι) (wf : WellFormed sb w) (i : ι) (inum : Nat) (small : inum < sb.ninodes)
    (src : Source) (whole : ∀ start count, src.reach start count = count) (off n : BitVec 32) :
    (off.toNat ≤ (w.inodes i).size.toNat ∧ off.toNat + n.toNat ≤ MAXFILE * BSIZE → ∃ s' tot,
      writei sb inum (w.file i) src off n = .ok (s', (tot : Nat)) ∧ tot ≤ n.toNat ∧
        (tot = n.toNat ∨ ∀ b < sb.size, used sb s'.disk b = true) ∧
        s'.ip.size.toNat = max (w.inodes i).size.toNat (off.toNat + tot) ∧ WellFormed sb (w.put i s') ∧
        (∀ dst : Dest, (∀ start count, dst.accepts start count = true) → ∀ off' n' : BitVec 32,
          off'.toNat + n'.toNat < 2 ^ 32 → readi sb s' dst off' n' = .ok (s', (available s' off'.toNat n'.toNat : Nat),
            (List.range (available s' off'.toNat n'.toNat)).map fun x =>
              overlay (content (w.file i)) src.byte off.toNat tot (off'.toNat + x))) ∧
        (∀ j, j ≠ i → (w.put i s').inodes j = w.inodes j ∧ ∀ k, content ((w.put i s').file j) k = content (w.file j) k) ∧
        ∀ other < sb.ninodes, other ≠ inum → dinode sb s'.disk other = dinode sb w.disk other) ∧
    (¬(off.toNat ≤ (w.inodes i).size.toNat ∧ off.toNat + n.toNat ≤ MAXFILE * BSIZE) →
      writei sb inum (w.file i) src off n = .ok (w.file i, -1)) := by
  have limit : MAXFILE * BSIZE < 2 ^ 32 := by decide
  constructor
  · rintro ⟨low, room⟩
    have total : (off + n).toNat = off.toNat + n.toNat := by rw [toNat_add, Nat.mod_eq_of_lt (by omega)]
    have inside : ¬(off > (w.inodes i).size ∨ off + n < off) := by
      rw [gt_iff_lt, lt_def, lt_def, total]
      omega
    obtain ⟨s', tot, extra, ran, wrote⟩ := writei_wrote src wf.owned small inside (by omega)
    obtain rfl := wrote.whole whole
    have le := wrote.le
    have wf' := Wrote.dense wrote wf low (by omega)
    have dense : Dense s' := by
      have mine := wf'.dense i
      rwa [World.file_put_same] at mine
    refine ⟨s', tot, ran, le, ?_, wrote.size, wf', fun dst accepts off' n' fits => ?_, fun j other => ⟨?_, fun k => ?_⟩,
      wrote.others⟩
    · rcases wrote.stop with ⟨all, -⟩ | ⟨full, -⟩ | stops
      · exact .inl all
      · exact .inr full
      · exact absurd stops (StopsAt.not_whole whole)
    · rw [readi_dense dense accepts off' n' fits]
      have bytes : contents s' off'.toNat (available s' off'.toNat n'.toNat) =
          (List.range (available s' off'.toNat n'.toNat)).map fun x =>
            overlay (content (w.file i)) src.byte off.toNat tot (off'.toNat + x) := by
        refine List.map_congr_left fun x _ => ?_
        have seen := wrote.content i (off'.toNat + x)
        rw [World.file_put_same] at seen
        unfold overlay
        simpa only [true_and, Nat.add_zero] using seen
      rw [bytes]
    · exact Function.update_of_ne other _ _
    · rw [wrote.content j k, if_neg (fun both => other both.1)]
  · intro outside
    by_cases early : off > (w.inodes i).size ∨ off + n < off
    · exact if_pos early
    · have total := toNat_add_of_not_lt (not_or.mp early).2
      have low : off.toNat ≤ (w.inodes i).size.toNat := by
        have before := (not_or.mp early).1
        rw [gt_iff_lt, lt_def] at before
        omega
      exact (if_neg early).trans (if_pos (by omega))

theorem sample_wellFormed : WellFormed Offsets.sampleLayout Offsets.sample.world := by
  refine ⟨Offsets.sample_starts.owned, fun _ => ⟨show 4 ≤ MAXFILE * BSIZE by decide, fun bn below => ?_⟩⟩
  have first : bn = ⟨0, by decide⟩ := by
    have small : bn.val * 1024 < 4 := below
    exact Fin.ext (by simp only; omega)
  rw [first]
  exact (by decide : (46 : Blockno) ≠ 0)

def sampleSource : Source := ⟨fun k => BitVec.ofNat 8 k, fun _ count => count, fun _ _ => le_rfl⟩

/-- Six bytes from the middle of a file of four. -/
theorem reads_see_writes_sample :
    ∃ s' tot, writei Offsets.sampleLayout 2 (Offsets.sample.world.file ()) sampleSource 2 6 = .ok (s', (tot : Nat)) ∧ tot ≤ 6 ∧
      (tot = 6 ∨ ∀ b < 2000, used Offsets.sampleLayout s'.disk b = true) ∧ s'.ip.size.toNat = max 4 (2 + tot) ∧
      ∀ dst : Dest, (∀ start count, dst.accepts start count = true) → ∀ off' n' : BitVec 32,
        off'.toNat + n'.toNat < 2 ^ 32 → readi Offsets.sampleLayout s' dst off' n' =
          .ok (s', (available s' off'.toNat n'.toNat : Nat), (List.range (available s' off'.toNat n'.toNat)).map fun x =>
            overlay (content (Offsets.sample.world.file ())) sampleSource.byte 2 tot (off'.toNat + x)) := by
  obtain ⟨s', tot, ran, le, stop, size, -, reads, -⟩ := (reads_see_writes Offsets.sampleLayout Offsets.sample.world
    sample_wellFormed () 2 (by decide) sampleSource (fun _ _ => rfl) 2 6).1 (by decide)
  exact ⟨s', tot, ran, le, stop, size, reads⟩

end Xv6.Fs.Overlay
