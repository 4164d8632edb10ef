import Xv6.Mkfs.Appending

/-! Whole files of the image that mkfs builds: what ialloc and iappend do to the inodes and to what they contain. -/

namespace Xv6.Mkfs.Files

open Lib.Bytes Fs.Format Fs.Inode Fs.Blocks Fs.Transfer Program Appending Function List
open Disklog.Commit (Blockno Block Disk)

/-- The image between two calls: every inode has the blocks that its size needs. -/
structure Whole (m : Image) : Prop where
  laid : Laid m (world m)
  filled : ∀ j, Filled ((world m).file j) ((world m).inodes j).size.toNat
  small : ∀ j, ((world m).inodes j).size.toNat ≤ MAXFILE * BSIZE

def putInode (m : Image) (j : Nat) (ip : Dinode) : Image := { m with disk := setDinode sb m.disk j ip }

variable {m m₁ : Image} {j : Fin NINODES} {s₁ : File}

theorem putInode_low (m : Image) (j : Fin NINODES) (ip : Dinode) {b : Blockno} (below : b.toNat < sb.inodestart) :
    (putInode m j ip).disk b = m.disk b := by
  refine update_of_ne ?_ _ _
  rintro rfl
  rw [(toNat_IBLOCK sb j.isLt).1] at below
  exact absurd below (Nat.not_lt.mpr (Nat.le_add_left _ _))

/-- What writing an inode back keeps, when it has the blocks that the inode in memory has. -/
structure Back (m : Image) (j : Fin NINODES) (s₁ : File) (ip : Dinode) (m' : Image) : Prop where
  laid : Laid m' (world m')
  same : SameContents ((world m).put j s₁) (world m')
  refs : ∀ k slot, ref ((world m').file k) slot = ref (((world m).put j s₁).file k) slot
  inodes : (world m').inodes = update (world m).inodes j ip

theorem putInode_back (laid : Laid m₁ ((world m).put j s₁))
    (low : ∀ b : Blockno, b.toNat < sb.bmapstart → m₁.disk b = m.disk b) (ip : Dinode) (addrs : ip.addrs = s₁.ip.addrs) :
    Back m j s₁ ip (putInode m₁ j ip) := by
  have disk : s₁.disk = shadow m₁ := laid.disk
  have same : (world m).put j (iupdate sb j ⟨s₁.disk, ip⟩) = world (putInode m₁ j ip) := by
    have others : (world m₁).inodes = (world m).inodes := funext fun k => dinode_congr low k.isLt
    simp only [putInode, world_setDinode, World.put, others, disk]
    rfl
  obtain ⟨owned, contents, refs, -⟩ := iupdate_spec laid.owned j.isLt ip addrs
  rw [same] at owned contents refs
  have before := (toNat_IBLOCK sb j.isLt).2
  have between : sb.bmapstart < nmeta := by decide
  have low' := laid.low
  refine ⟨⟨rfl, owned, laid.length, laid.low, laid.high, fun b above => ?_, fun b above below => ?_⟩, contents, refs, ?_⟩
  · have behind : m₁.freeblock ≤ b.toNat := above
    refine (update_of_ne ?_ _ _).trans (laid.clear b behind)
    rintro rfl
    omega
  · obtain ⟨k, slot, some, number⟩ := laid.taken b above below
    exact ⟨k, slot, (refs k slot).symm ▸ some, (refs k slot).symm ▸ number⟩
  · rw [← same]
    rfl

/-- Bytes that went to the end of a file, and what is as before. -/
structure Extended (m : Image) (j : Fin NINODES) (p : List Byte) (m' : Image) : Prop where
  whole : Whole m'
  size : ((world m').inodes j).size.toNat = ((world m).inodes j).size.toNat + p.length
  type : ((world m').inodes j).type = ((world m).inodes j).type
  others : ∀ k, k ≠ j → (world m').inodes k = (world m).inodes k
  content : ∀ k b, content ((world m').file k) b =
    if k = j ∧ ((world m).inodes j).size.toNat ≤ b ∧ b < ((world m).inodes j).size.toNat + p.length
      then p.getD (b - ((world m).inodes j).size.toNat) 0 else content ((world m).file k) b
  count : m'.freeblock + need ((world m).inodes j).size.toNat =
    m.freeblock + need (((world m).inodes j).size.toNat + p.length)
  inodes : m'.freeinode = m.freeinode
  low : ∀ b : Blockno, b.toNat < sb.inodestart → m'.disk b = m.disk b

theorem Back.whole {ip : Dinode} {m' : Image} (back : Back m j s₁ ip m') (whole : Whole m) (filled : Filled s₁ ip.size.toNat)
    (small : ip.size.toNat ≤ MAXFILE * BSIZE)
    (others : ∀ k, k ≠ j → ∀ slot, ref (((world m).put j s₁).file k) slot = ref ((world m).file k) slot) : Whole m' := by
  refine ⟨back.laid, fun k => ?_, fun k => ?_⟩
  · have refs := back.refs k
    rw [back.inodes]
    by_cases mine : k = j
    · subst mine
      rw [update_self]
      refine filled.congr fun slot => (refs slot).trans ?_
      rw [World.file_put_same]
    · rw [update_of_ne mine]
      exact (whole.filled k).congr fun slot => (refs slot).trans (others k mine slot)
  · rw [back.inodes]
    by_cases mine : k = j
    · subst mine
      rwa [update_self]
    · rw [update_of_ne mine]
      exact whole.small k

theorem iappend_spec (whole : Whole m) (j : Fin NINODES) (p : List Byte) :
    Fits m ((world m).inodes j).size.toNat p.length ∧ (∃ m', iappend m j p = .ok m' ∧ Extended m j p m') ∨
      ¬Fits m ((world m).inodes j).size.toNat p.length ∧ ∃ e, iappend m j p = .error e := by
  obtain ⟨size, here⟩ : ∃ size, size = ((world m).inodes j).size.toNat := ⟨_, rfl⟩
  have read : rinode m j = .ok ((world m).inodes j) := rinode_eq whole.laid.length j.isLt
  have loop := appendLoop_spec p.length whole.laid (whole.filled j) le_rfl (whole.small j)
  rw [← here] at loop ⊢
  have start : iappend m j p = appendLoop p.length m ((world m).inodes j) size p >>= fun found =>
      winode found.1 j { found.2.1 with size := BitVec.ofNat 32 found.2.2 } := by
    rw [iappend, read, here]
    rfl
  rcases loop with ⟨fits, m₁, s₁, ran, done⟩ | ⟨short, e, ran⟩
  · refine .inl ⟨fits, ?_⟩
    have low : ∀ b : Blockno, b.toNat < sb.bmapstart → m₁.disk b = m.disk b := by
      intro b below
      have kept := done.kept.low b below
      rwa [show ((world m).put j s₁).disk = shadow m₁ from done.laid.disk, shadow_of_ne _ (by omega),
        show (world m).disk = shadow m from rfl, shadow_of_ne _ (by omega)] at kept
    have back := putInode_back done.laid low { s₁.ip with size := BitVec.ofNat 32 (size + p.length) } rfl
    have small : size + p.length < 2 ^ 32 := fits.2.trans_lt (by decide)
    have number : (BitVec.ofNat 32 (size + p.length)).toNat = size + p.length := by
      rw [BitVec.toNat_ofNat, Nat.mod_eq_of_lt small]
    refine ⟨putInode m₁ j { s₁.ip with size := BitVec.ofNat 32 (size + p.length) }, ?_, ?_⟩
    · rw [start, ran]
      exact winode_eq done.laid.length j.isLt _
    · have inode := congrFun back.inodes j
      rw [update_self] at inode
      have type : s₁.ip.type = ((world m).inodes j).type := by
        have kept := congrArg Prod.fst (done.kept.fields j)
        rwa [show ((world m).put j s₁).inodes j = s₁.ip from congrArg File.ip (World.file_put_same _ _ _)] at kept
      have filled : Filled s₁ (BitVec.ofNat 32 (size + p.length)).toNat := by
        rw [number]
        exact done.filled
      refine ⟨back.whole whole filled (number.le.trans fits.2) done.others, ?_, ?_, fun k other => ?_, fun k b => ?_, ?_,
        done.inodes, fun b below => ?_⟩
      · rw [inode, ← here]
        exact number
      · rw [inode]
        exact type
      · rw [back.inodes, update_of_ne other]
      · rw [back.same k b, done.content k b, here]
      · rw [← here]
        exact done.count
      · exact (putInode_low m₁ j _ below).trans (low b (below.trans_le (by decide)))
  · refine .inr ⟨short, e, ?_⟩
    rw [start, ran]
    rfl

section Texts
variable {m' : Image} {p : List Byte}

def text (m : Image) (j : Fin NINODES) : List Byte := contents ((world m).file j) 0 ((world m).inodes j).size.toNat

theorem length_text (m : Image) (j : Fin NINODES) : (text m j).length = ((world m).inodes j).size.toNat :=
  length_contents _ _ _

theorem Extended.text (extended : Extended m j p m') : text m' j = text m j ++ p := by
  rw [Files.text, extended.size, contents_add, Nat.zero_add]
  refine congrArg₂ _ (map_congr_left fun x inside => ?_) (ext_getElem ?_ fun x inside inside' => ?_)
  · have below := mem_range.mp inside
    rw [extended.content, if_neg (by omega)]
  · exact length_contents _ _ _
  · rw [length_contents] at inside
    simp only [contents, getElem_map, getElem_range]
    rw [extended.content, if_pos ⟨rfl, by omega, by omega⟩, Nat.add_sub_cancel_left, getD_eq_getElem?_getD,
      List.getElem?_eq_getElem inside', Option.getD_some]

theorem Extended.text_other (extended : Extended m j p m') {k : Fin NINODES} (other : k ≠ j) : Files.text m' k = Files.text m k := by
  rw [Files.text, Files.text, extended.others k other]
  refine map_congr_left fun x _ => ?_
  rw [extended.content, if_neg fun both => other both.1]

theorem Extended.refl (whole : Whole m) (j : Fin NINODES) : Extended m j [] m := by
  refine ⟨whole, rfl, rfl, fun _ _ => rfl, fun k b => ?_, rfl, rfl, fun _ _ => rfl⟩
  rw [if_neg]
  simp only [length_nil]
  omega

theorem Extended.trans {q : List Byte} (first : Extended m j p m₁) (second : Extended m₁ j q m') :
    Extended m j (p ++ q) m' := by
  have size := first.size
  have count := first.count
  have count' := second.count
  rw [size] at count'
  have length : (p ++ q).length = p.length + q.length := length_append
  refine ⟨second.whole, ?_, second.type.trans first.type, fun k other => (second.others k other).trans (first.others k other),
    fun k b => ?_, ?_, second.inodes.trans first.inodes, fun b below => (second.low b below).trans (first.low b below)⟩
  · rw [second.size, size, length, Nat.add_assoc]
  · rw [second.content, first.content, size]
    by_cases mine : k = j
    · simp only [mine, true_and]
      by_cases late : ((world m).inodes j).size.toNat + p.length ≤ b
      · have place : b - (((world m).inodes j).size.toNat + p.length) = b - ((world m).inodes j).size.toNat - p.length := by
          omega
        rw [if_neg (show ¬(((world m).inodes j).size.toNat ≤ b ∧ b < ((world m).inodes j).size.toNat + p.length) by omega),
          getD_append_right _ _ _ _ (by omega), place]
        exact if_congr (by omega) rfl rfl
      · rw [if_neg fun both => late both.1]
        by_cases early : ((world m).inodes j).size.toNat ≤ b
        · rw [if_pos (by omega), if_pos (by omega), getD_append _ _ _ _ (by omega)]
        · rw [if_neg (by omega), if_neg (by omega)]
    · simp only [mine, false_and, if_false]
  · rw [length, ← Nat.add_assoc]
    omega

theorem iappend_extended (whole : Whole m) (done : iappend m j p = .ok m') : Extended m j p m' := by
  rcases iappend_spec whole j p with ⟨-, m₁, ran, extended⟩ | ⟨-, e, ran⟩
  · exact Except.ok.inj (ran.symm.trans done) ▸ extended
  · exact absurd (ran.symm.trans done) nofun

theorem iappend_fits (whole : Whole m) (fits : Fits m ((world m).inodes j).size.toNat p.length) : ∃ m', iappend m j p = .ok m' := by
  rcases iappend_spec whole j p with ⟨-, m', ran, -⟩ | ⟨short, -⟩
  · exact ⟨m', ran⟩
  · exact absurd fits short

theorem chunks_extended (whole : Whole m) {chunks : List (List Byte)}
    (done : chunks.foldlM (fun m chunk => iappend m j chunk) m = .ok m') : Extended m j chunks.flatten m' := by
  induction chunks generalizing m with
  | nil =>
    obtain rfl := Except.ok.inj done
    exact .refl whole j
  | cons chunk rest ih =>
    rw [foldlM_cons] at done
    obtain ⟨m₁, ran, rest⟩ := bind_eq_ok.mp done
    have first := iappend_extended whole ran
    exact first.trans (ih first.whole rest)

theorem chunks_fit (whole : Whole m) {chunks : List (List Byte)}
    (fits : Fits m ((world m).inodes j).size.toNat chunks.flatten.length) :
    ∃ m', chunks.foldlM (fun m chunk => iappend m j chunk) m = .ok m' := by
  induction chunks generalizing m with
  | nil => exact ⟨m, rfl⟩
  | cons chunk rest ih =>
    rw [flatten_cons, length_append, Fits, ← Nat.add_assoc] at fits
    have room := fits.1
    have small := fits.2
    have more := need_mono (Nat.le_add_right (((world m).inodes j).size.toNat + chunk.length) rest.flatten.length)
    obtain ⟨m₁, ran⟩ := iappend_fits (j := j) whole (p := chunk) ⟨by omega, by omega⟩
    have first := iappend_extended whole ran
    have size := first.size
    have count := first.count
    obtain ⟨m', ran'⟩ := ih first.whole ⟨by rw [size]; omega, by rw [size]; omega⟩
    refine ⟨m', ?_⟩
    rw [foldlM_cons, ran]
    exact ran'

end Texts

def blank : Dinode := ⟨0, 0, 0, 0, 0, fun _ => 0⟩

structure Allocated (m : Image) (j : Fin NINODES) (type : BitVec 16) (m' : Image) : Prop where
  whole : Whole m'
  inodes : (world m').inodes = update (world m).inodes j ⟨type, 0, 0, 1, 0, fun _ => 0⟩
  same : SameContents (world m) (world m')
  freeblock : m'.freeblock = m.freeblock
  freeinode : m'.freeinode = m.freeinode + 1
  low : ∀ b : Blockno, b.toNat < sb.inodestart → m'.disk b = m.disk b

theorem Allocated.text {type : BitVec 16} {m' : Image} (allocated : Allocated m j type m') : text m' j = [] := by
  rw [Files.text, allocated.inodes, update_self]
  rfl

theorem Allocated.text_other {type : BitVec 16} {m' : Image} (allocated : Allocated m j type m') {k : Fin NINODES}
    (other : k ≠ j) : Files.text m' k = Files.text m k := by
  rw [Files.text, Files.text, allocated.inodes, update_of_ne other]
  exact map_congr_left fun x _ => allocated.same k _

theorem ialloc_spec (whole : Whole m) (next : j.val = m.freeinode) (unused : (world m).inodes j = blank) (type : BitVec 16) :
    ∃ m', ialloc m type = .ok (m', j.val) ∧ Allocated m j type m' := by
  obtain ⟨m₀, counted⟩ : ∃ m₀, m₀ = { m with freeinode := m.freeinode + 1 } := ⟨_, rfl⟩
  have laid : Laid m₀ ((world m).put j ((world m).file j)) := by
    rw [World.put_file]
    obtain ⟨disk, owned, length, low, high, clear, taken⟩ := whole.laid
    rw [counted]
    exact ⟨disk, owned, length, low, high, clear, taken⟩
  have low : ∀ b : Blockno, b.toNat < sb.bmapstart → m₀.disk b = m.disk b := fun b _ => by rw [counted]
  have addrs : (⟨type, 0, 0, 1, 0, fun _ => 0⟩ : Dinode).addrs = ((world m).file j).ip.addrs := by
    show _ = ((world m).inodes j).addrs
    rw [unused]
    rfl
  have filled := whole.filled j
  rw [unused] at filled
  have back := putInode_back laid low _ addrs
  refine ⟨putInode m₀ j ⟨type, 0, 0, 1, 0, fun _ => 0⟩, ?_, ?_, back.inodes, ?_, by rw [counted]; rfl, by rw [counted]; rfl,
    fun b below => ?_⟩
  · have written : winode m₀ j ⟨type, 0, 0, 1, 0, fun _ => 0⟩ = .ok (putInode m₀ j _) := winode_eq laid.length j.isLt _
    rw [ialloc, ← next]
    rw [counted, ← next] at written
    rw [counted, ← next, written]
    rfl
  · exact back.whole whole filled (Nat.zero_le _) fun k _ slot => by rw [World.put_file]
  · have contents := back.same
    rwa [World.put_file] at contents
  · exact (putInode_low m₀ j _ below).trans (low b (below.trans_le (by decide)))

end Xv6.Mkfs.Files
