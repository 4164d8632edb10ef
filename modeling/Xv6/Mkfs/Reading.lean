import Xv6.Fs.Directory
import Xv6.Mkfs.Build

/-! What the kernel finds in the image that mkfs has made: the superblock, the files under their names, and their bytes. -/

namespace Xv6.Mkfs.Reading

open Lib.Bytes Fs.Format Fs.Inode Fs.Blocks Fs.Transfer Fs.Directory Program Appending Files Build List
open Disklog.Commit (Blockno Block Disk)

section Entries

def records (files : List Input) : List (List Byte) :=
  dirent ROOTINO [dot] :: dirent ROOTINO [dot, dot] :: (files.zipIdx 2).map fun entry => dirent entry.2 entry.1.name

theorem listing_eq (files : List Input) : listing files = (records files).flatten := by
  rw [listing, records, flatten_cons, flatten_cons, append_assoc, flatMap_def]

theorem take_drop_flatten {α : Type} {size : Nat} {l : List (List α)} (same : ∀ part ∈ l, part.length = size) {e : Nat}
    (inside : e < l.length) : (l.flatten.drop (size * e)).take size = l[e] := by
  induction l generalizing e with
  | nil => exact absurd inside (Nat.not_lt_zero e)
  | cons part l ih =>
    have length := same part mem_cons_self
    cases e with
    | zero =>
      rw [Nat.mul_zero, drop_zero, flatten_cons, ← length, take_left]
      rfl
    | succ e =>
      have place : size * (e + 1) = part.length + size * e := by
        rw [length]
        ring
      rw [flatten_cons, place, ← drop_drop, drop_left]
      exact ih (fun other member => same other (mem_cons_of_mem part member)) _

theorem contents_part {s : File} {l : List Byte} (whole : contents s 0 l.length = l) {off count : Nat}
    (inside : off + count ≤ l.length) : contents s off count = (l.drop off).take count := by
  refine ext_getElem ?_ fun x below below' => ?_
  · rw [length_contents, length_take, length_drop]
    omega
  · rw [length_contents] at below
    have byte := getElem_of_eq whole (i := off + x) (by rw [length_contents]; omega)
    simp only [contents, getElem_map, getElem_range, Nat.zero_add] at byte
    simp only [contents, getElem_map, getElem_range, getElem_take, getElem_drop]
    exact byte

theorem direntInum_dirent {inum : Nat} (small : inum < 65536) (name : List Byte) :
    direntInum (dirent inum name) = inum := by
  show (BitVec.ofNat 8 inum).toNat + 256 * (BitVec.ofNat 8 (inum / 256)).toNat = inum
  rw [BitVec.toNat_ofNat, BitVec.toNat_ofNat]
  omega

theorem direntName_dirent (inum : Nat) (name : List Byte) : direntName (dirent inum name) = chars (name.take DIRSIZ) := by
  funext i
  show chars (dirent inum name) (2 + i) = _
  rw [Nat.add_comm]
  show (strncpy name DIRSIZ).getD i 0 = (name.take DIRSIZ).getD i 0
  rw [strncpy]
  by_cases inside : i < (name.take DIRSIZ).length
  · rw [getD_append _ _ _ _ inside]
  · have zeroes : ∀ n j, (List.replicate n (0 : Byte)).getD j 0 = 0 := by
      intro n j
      rw [getD_eq_getElem?_getD, List.getElem?_replicate]
      split <;> rfl
    rw [getD_append_right _ _ _ _ (by omega), zeroes]
    exact (getD_eq_default _ _ (by omega)).symm

theorem matches_dirent_iff {inum : Nat} (small : inum < 65536) {name name' : List Byte} (nonzero : 0 ∉ name)
    (short : name.length ≤ DIRSIZ) (nonzero' : 0 ∉ name') :
    Matches name (dirent inum name') ↔ inum ≠ 0 ∧ name = name'.take DIRSIZ := by
  rw [Matches, direntInum_dirent small, direntName_dirent, namecmp, strncmp_eq_zero_iff DIRSIZ name (name'.take DIRSIZ) nonzero
    (fun member => nonzero' (mem_of_mem_take member)) short (length_take_le _ _)]

end Entries

section Names

theorem mem_of_mem_name {input : Input} {c : Byte} (member : c ∈ input.name) : c ∈ shortname input.path := by
  rw [Input.name, stripped] at member
  split_ifs at member
  · exact mem_of_mem_drop member
  · exact member

theorem mem_path_of_mem_shortname {path : List Byte} {c : Byte} (member : c ∈ shortname path) : c ∈ path := by
  rw [shortname] at member
  split_ifs at member
  · exact mem_of_mem_drop member
  · exact member

theorem name_nonzero (input : Input) : 0 ∉ input.name :=
  fun member => input.nonzero (mem_path_of_mem_shortname (mem_of_mem_name member))

theorem skipelem_single {name : List Byte} (some_ : name ≠ []) (plain : Fs.Directory.slash ∉ name)
    (short : name.length ≤ DIRSIZ) : skipelem (Fs.Directory.slash :: name) = some (name, []) := by
  obtain ⟨c, rest, rfl⟩ := exists_cons_of_ne_nil some_
  have first : c ≠ Fs.Directory.slash := fun same => plain (same ▸ mem_cons_self)
  have all : ∀ x ∈ c :: rest, decide (x ≠ Fs.Directory.slash) = true :=
    fun x member => decide_eq_true fun same => plain (same ▸ member)
  have dropped : (Fs.Directory.slash :: c :: rest).dropWhile (· = Fs.Directory.slash) = c :: rest := by
    simp [first]
  rw [skipelem, dropped]
  simp only [takeWhile_eq_self_iff.mpr all, dropWhile_eq_nil_iff.mpr all, take_of_length_le short,
    dropWhile_nil]

end Names

section Kernel
variable {files : List Input} {m m' : Image}

/-- What the kernel sees when it has just been started: no inode is in the table. -/
def booted (m : Image) : World Nat := ⟨m.disk, dinode sb m.disk⟩

def readsb (d : Disk) : List (BitVec 32) := (List.range 8).map fun k => getWord (d 1) (4 * k)

theorem length_records (files : List Input) : (records files).length = files.length + 2 := by
  rw [records, length_cons, length_cons, length_map, length_zipIdx]

theorem length_of_mem_records {files : List Input} {part : List Byte} (member : part ∈ records files) :
    part.length = 16 := by
  rw [records] at member
  rcases mem_cons.mp member with rfl | member
  · exact length_dirent _ _
  rcases mem_cons.mp member with rfl | member
  · exact length_dirent _ _
  obtain ⟨entry, -, rfl⟩ := mem_map.mp member
  exact length_dirent _ _

variable {k : Nat}

theorem records_file (inside : k < files.length) (inside' : k + 2 < (records files).length) :
    (records files)[k + 2] = dirent (k + 2) files[k].name := by
  simp only [records, getElem_cons_succ, getElem_map, getElem_zipIdx]
  rw [Nat.add_comm]

theorem entry_eq (built : Built files m) (finished : Finished m m') {e : Nat} (inside : e < (records files).length) :
    contents (fileAt m' ROOTINO) (16 * e) 16 = (records files)[e] := by
  have whole : contents (fileAt m' root) 0 (listing files).length = listing files := by
    rw [finished.contents_eq, ← built.root.2, length_text]
    rfl
  have length := length_records files
  have total := length_listing files
  have part := contents_part whole (show 16 * e + 16 ≤ (listing files).length by omega)
  rw [listing_eq, take_drop_flatten (fun _ => length_of_mem_records) inside] at part
  exact part

/-- The names of the files, as the image can hold them. -/
structure Proper (files : List Input) : Prop where
  distinct : (files.map Input.shown).Nodup
  names : ∀ input ∈ files, input.shown ≠ [] ∧ input.shown ≠ [dot] ∧ input.shown ≠ [dot, dot]

theorem shown_nonzero (input : Input) : 0 ∉ input.shown := fun member => name_nonzero input (mem_of_mem_take member)

theorem matches_records_iff (few : files.length ≤ NINODES - 2) (proper : Proper files) (inside : k < files.length)
    {e : Nat} (inside' : e < (records files).length) : Matches files[k].shown (records files)[e] ↔ e = k + 2 := by
  have short : files[k].shown.length ≤ DIRSIZ := length_take_le _ _
  have names := proper.names files[k] (getElem_mem inside)
  have length := length_records files
  have most : NINODES - 2 = 198 := rfl
  match e, inside' with
  | 0, _ =>
    show Matches _ (dirent ROOTINO [dot]) ↔ _
    rw [matches_dirent_iff (by decide) (shown_nonzero _) short (by decide)]
    exact iff_of_false (fun both => names.2.1 both.2) (by omega)
  | 1, _ =>
    show Matches _ (dirent ROOTINO [dot, dot]) ↔ _
    rw [matches_dirent_iff (by decide) (shown_nonzero _) short (by decide)]
    exact iff_of_false (fun both => names.2.2 both.2) (by omega)
  | j + 2, inside' =>
    have other : j < files.length := by omega
    rw [records_file other inside', matches_dirent_iff (by omega) (shown_nonzero _) short (name_nonzero _)]
    constructor
    · rintro ⟨-, same⟩
      have equal : files[k] = files[j] :=
        inj_on_of_nodup_map proper.distinct (getElem_mem inside) (getElem_mem other) same
      have index := (List.Nodup.getElem_inj_iff (List.Nodup.of_map _ proper.distinct)).mp equal
      omega
    · intro here
      obtain rfl : j = k := by omega
      exact ⟨by omega, rfl⟩

section
variable (built : Built files m)
include built

theorem type_root (finished : Finished m m') : (fileAt m' ROOTINO).ip.type = T_DIR := by
  rw [finished.inode_root]
  exact built.root.1

theorem dirlookup_file (few : files.length ≤ NINODES - 2) (finished : Finished m m')
    (proper : Proper files) (inside : k < files.length) :
    dirlookup sb (fileAt m' ROOTINO) files[k].shown = .ok (fileAt m' ROOTINO, some (k + 2, 16 * (k + 2))) := by
  have length := length_records files
  have size := finished.size_root built few
  have most : NINODES - 2 = 198 := rfl
  have limit : 16 * 200 ≤ MAXFILE * BSIZE := by decide
  have grown : 16 * (files.length + 2) ≤ (fileAt m' ROOTINO).ip.size.toNat := by
    rw [size]
    unfold BSIZE
    omega
  have present : ∀ bn : Fin MAXFILE, bn.val * BSIZE < 16 * (k + 2 + 1) → ref (fileAt m' ROOTINO) (dataSlot bn) ≠ 0 := by
    intro bn below
    show ref (fileAt m' root) (dataSlot bn) ≠ 0
    rw [finished.ref_eq, (built.whole.filled root).data, built.size]
    omega
  have others : ∀ e < k + 2, ¬Matches files[k].shown (contents (fileAt m' ROOTINO) (16 * e) 16) := by
    intro e below
    rw [entry_eq built finished (show e < (records files).length by omega), matches_records_iff few proper inside]
    omega
  have last : k + 2 < (records files).length := by omega
  have here : Matches files[k].shown (contents (fileAt m' ROOTINO) (16 * (k + 2)) 16) := by
    rw [entry_eq built finished last, matches_records_iff few proper inside]
  have number : direntInum (contents (fileAt m' ROOTINO) (16 * (k + 2)) 16) = k + 2 := by
    rw [entry_eq built finished last, records_file inside last, direntInum_dirent (by omega)]
  have found : lookupLoop sb files[k].shown ((fileAt m' ROOTINO).ip.size.toNat / 16 + 1) (fileAt m' ROOTINO) (16 * 0) = _ :=
    lookupLoop_found _ (Nat.zero_le (k + 2)) (by omega) (by omega) (by omega) present others here
  rw [number] at found
  rw [dirlookup, if_pos (type_root built finished)]
  exact found

theorem namei_file (few : files.length ≤ NINODES - 2) (finished : Finished m m')
    (proper : Proper files) (inside : k < files.length) (plain : Fs.Directory.slash ∉ files[k].shown) (cwd : Nat) :
    namei sb (booted m') cwd (Fs.Directory.slash :: files[k].shown) = .ok (booted m', some (k + 2)) := by
  have names := proper.names files[k] (getElem_mem inside)
  have element := skipelem_single names.1 plain (length_take_le DIRSIZ files[k].name)
  have found : namexLoop sb false (files[k].shown.length + 1 + 1) (booted m') ROOTINO (Fs.Directory.slash :: files[k].shown) = _ :=
    namexLoop_found element (type_root built finished) (by decide) (dirlookup_file built few finished proper inside)
  have same : (booted m').put ROOTINO (fileAt m' ROOTINO) = booted m' := World.put_file _ _
  rw [same, namexLoop_nil] at found
  rw [namei, namex]
  exact congrArg (· >>= _) found

theorem inode_file (finished : Finished m m') (few : files.length ≤ NINODES - 2)
    (inside : k < files.length) : (fileAt m' (k + 2)).ip.size.toNat = files[k].data.length ∧
      contents (fileAt m' (k + 2)) 0 files[k].data.length = files[k].data ∧
      files[k].data.length ≤ MAXFILE * BSIZE ∧
      ∀ bn : Fin MAXFILE, bn.val * BSIZE < files[k].data.length → ref (fileAt m' (k + 2)) (dataSlot bn) ≠ 0 := by
  have most : NINODES = 200 := rfl
  obtain ⟨j, number⟩ : ∃ j : Fin NINODES, j.val = k + 2 := ⟨⟨k + 2, by omega⟩, rfl⟩
  have other : j ≠ root := Fin.ne_of_val_ne (show j.val ≠ 1 by omega)
  have text' := (built.files k inside j number).2
  have size : ((world m).inodes j).size.toNat = files[k].data.length := by rw [← length_text, text']
  rw [← number, finished.size_other other, size, ← size]
  refine ⟨rfl, ?_, built.whole.small j, fun bn below => ?_⟩
  · rw [finished.contents_eq]
    exact text'
  · rw [finished.ref_eq, (built.whole.filled j).data]
    exact below

theorem readi_file (finished : Finished m m') (few : files.length ≤ NINODES - 2)
    (inside : k < files.length) {dst : Dest} (accepts : ∀ start count, dst.accepts start count = true) :
    readi sb (fileAt m' (k + 2)) dst 0 (fileAt m' (k + 2)).ip.size =
      .ok (fileAt m' (k + 2), (files[k].data.length : Int), files[k].data) := by
  obtain ⟨size, bytes, room, present⟩ := inode_file built finished few inside
  have zero : (0 : BitVec 32).toNat = 0 := rfl
  rw [readi_present accepts (by omega) (by omega) fun bn below => present bn (by omega), size, zero, bytes]

theorem readsb_image (finished : Finished m m') : readsb m'.disk = superblock := by
  have block : m'.disk 1 = start.disk 1 := by
    rw [finished.disk, shadow_of_ne _ (by decide), putInode_low m root _ (by decide)]
    exact built.low 1 (by decide)
  rw [readsb, block, start_eq]
  decide +kernel

end

/-- The files are found under their names, with the bytes that mkfs read, however the host cut them into parts. -/
theorem kernel_reads_files (few : files.length ≤ NINODES - 2) (proper : Proper files)
    (acceptable : ∀ input ∈ files, Acceptable input) (enough : blocks files ≤ FSSIZE) :
    ∃ m, main files = .ok m ∧ readsb m.disk = superblock ∧
      (∀ (k : Nat) (inside : k < files.length) (cwd : Nat), ∃ inum,
        namei sb (booted m) cwd (Fs.Directory.slash :: files[k].shown) = .ok (booted m, some inum) ∧
        ((booted m).inodes inum).size.toNat = files[k].data.length ∧
        ∀ dst : Dest, (∀ start count, dst.accepts start count = true) →
          readi sb ((booted m).file inum) dst 0 ((booted m).inodes inum).size =
            .ok ((booted m).file inum, (files[k].data.length : Int), files[k].data)) ∧
      ∀ inum slot, inum < NINODES → ref ((booted m).file inum) slot ≠ 0 →
        used sb m.disk (ref ((booted m).file inum) slot).toNat = true := by
  obtain ⟨m', done⟩ := main_ok few acceptable enough
  obtain ⟨m, built, finished⟩ := main_built done few
  refine ⟨m', done, readsb_image built finished, fun k inside cwd => ⟨k + 2, ?_, ?_, fun dst accepts => ?_⟩,
    fun inum slot small some => ?_⟩
  · refine namei_file built few finished proper inside (fun member => ?_) cwd
    exact (acceptable files[k] (getElem_mem inside)).name (mem_of_mem_name (mem_of_mem_take member))
  · exact (inode_file built finished few inside).1
  · exact readi_file built finished few inside accepts
  · have slot' : ref ((booted m').file inum) slot = ref ((world m).file ⟨inum, small⟩) slot :=
      finished.ref_eq ⟨inum, small⟩ slot
    rw [slot'] at some ⊢
    have bounds := built.whole.laid.inside some
    rw [finished.used_eq (bounds.2.trans_le built.whole.laid.high)]
    exact decide_eq_true bounds.2

def sampleFiles : List Input :=
  [⟨[0x75, 0x73, 0x65, 0x72, 0x2f, 0x5f, 0x63, 0x61, 0x74], some [[1, 2], [3]], by decide, fun chunks member => by
      obtain rfl := Option.mem_some.mp member
      decide⟩,
    ⟨[0x52, 0x45, 0x41, 0x44, 0x4d, 0x45], some [], by decide, fun chunks member => by
      obtain rfl := Option.mem_some.mp member
      decide⟩]

theorem kernel_reads_cat : ∃ m, main sampleFiles = .ok m ∧ ∃ inum,
    namei sb (booted m) ROOTINO [0x2f, 0x63, 0x61, 0x74] = .ok (booted m, some inum) ∧
      ((booted m).inodes inum).size.toNat = 3 ∧
      readi sb ((booted m).file inum) kernel 0 ((booted m).inodes inum).size = .ok ((booted m).file inum, 3, [1, 2, 3]) := by
  have acceptable : ∀ input ∈ sampleFiles, Acceptable input := by
    intro input member
    rcases mem_cons.mp member with rfl | member
    · exact ⟨by decide, ⟨_, rfl⟩, by decide⟩
    · obtain rfl := mem_singleton.mp member
      exact ⟨by decide, ⟨_, rfl⟩, by decide⟩
  obtain ⟨m, done, -, found, -⟩ := kernel_reads_files (show sampleFiles.length ≤ NINODES - 2 by decide) ⟨by decide, by decide⟩
    acceptable (by decide)
  obtain ⟨inum, named, size, read⟩ := found 0 (by decide) ROOTINO
  exact ⟨m, done, inum, named, size, read kernel fun _ _ => rfl⟩

end Kernel

end Xv6.Mkfs.Reading
