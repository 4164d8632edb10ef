import Xv6.Mkfs.Files

/-! The image that mkfs builds: file by file what is in it, and which lists of files give a well-formed one. -/

namespace Xv6.Mkfs.Build

open Lib.Bytes Fs.Format Fs.Inode Fs.Blocks Fs.Transfer Program Appending Files Function List
open Disklog.Commit (Blockno Block Disk)

section Listing

def listing (files : List Input) : List Byte :=
  dirent ROOTINO [dot] ++ dirent ROOTINO [dot, dot] ++
    (files.zipIdx 2).flatMap fun entry => dirent entry.2 entry.1.name

def blocks (files : List Input) : Nat :=
  nmeta + need (16 * (files.length + 2)) + (files.map fun file => need file.data.length).sum

theorem length_dirent (inum : Nat) (name : List Byte) : (dirent inum name).length = 16 := by
  rw [dirent, length_cons, length_cons, strncpy, length_append, length_take, length_replicate]
  unfold DIRSIZ
  omega

variable (files : List Input)

theorem listing_concat (input : Input) :
    listing (files ++ [input]) = listing files ++ dirent (files.length + 2) input.name := by
  rw [listing, zipIdx_append, flatMap_append, ← append_assoc, listing]
  refine congrArg _ ?_
  rw [zipIdx_singleton, flatMap_singleton, Nat.add_comm]

theorem length_listing : (listing files).length = 16 * (files.length + 2) := by
  induction files using List.reverseRecOn with
  | nil => rw [listing, length_append, length_append, length_dirent, length_dirent]; rfl
  | append_singleton files input ih =>
    rw [listing_concat, length_append, ih, length_dirent, length_append, length_singleton]
    omega

theorem blocks_concat (input : Input) :
    blocks (files ++ [input]) + need (16 * (files.length + 2)) =
      blocks files + need (16 * (files.length + 1 + 2)) + need input.data.length := by
  rw [blocks, blocks, map_append, sum_append, length_append, map_singleton, sum_singleton,
    length_singleton]
  omega

end Listing

section Steps

def root : Fin NINODES := ⟨ROOTINO, by decide⟩

structure Built (files : List Input) (m : Image) : Prop where
  whole : Whole m
  freeinode : m.freeinode = files.length + 2
  freeblock : m.freeblock = blocks files
  root : ((world m).inodes root).type = T_DIR ∧ text m root = listing files
  files : ∀ (k : Nat) (inside : k < files.length) (j : Fin NINODES), j.val = k + 2 →
    ((world m).inodes j).type = T_FILE ∧ text m j = files[k].data
  unused : ∀ j : Fin NINODES, j.val = 0 ∨ m.freeinode ≤ j.val → (world m).inodes j = blank
  low : ∀ b : Blockno, b.toNat < sb.inodestart → m.disk b = start.disk b

variable {files : List Input} {m m' : Image} {input : Input}

theorem Built.size (built : Built files m) : ((world m).inodes Build.root).size.toNat = 16 * (files.length + 2) := by
  rw [← length_text, built.root.2, length_listing]

def nextIno (files : List Input) (room : files.length < NINODES - 2) : Fin NINODES :=
  ⟨files.length + 2, by unfold NINODES at *; omega⟩

theorem nextIno_ne_root (room : files.length < NINODES - 2) : Build.root ≠ nextIno files room :=
  Fin.ne_of_val_ne (show 1 ≠ files.length + 2 by omega)

theorem Built.concat (built : Built files m) (room : files.length < NINODES - 2) {m₁ m₂ : Image}
    (allocated : Allocated m (nextIno files room) T_FILE m₁)
    (entry : Extended m₁ Build.root (dirent (files.length + 2) input.name) m₂)
    (data : Extended m₂ (nextIno files room) input.data m') : Built (files ++ [input]) m' := by
  have apart := nextIno_ne_root room
  have empty : ((world m₁).inodes (nextIno files room)).size.toNat = 0 := by
    rw [allocated.inodes, update_self]
    rfl
  have inode₂ := entry.others (nextIno files room) apart.symm
  have length : (files ++ [input]).length = files.length + 1 := by rw [length_append, length_singleton]
  have counter : m'.freeinode = m.freeinode + 1 := by rw [data.inodes, entry.inodes, allocated.freeinode]
  have number := built.freeinode
  have others : ∀ j, j ≠ nextIno files room → j ≠ Build.root → (world m').inodes j = (world m).inodes j := by
    intro j other other'
    rw [data.others j other, entry.others j other', allocated.inodes, update_of_ne other]
  have texts : ∀ j, j ≠ nextIno files room → j ≠ Build.root → text m' j = text m j := by
    intro j other other'
    rw [data.text_other other, entry.text_other other', allocated.text_other other]
  refine ⟨data.whole, by omega, ?_, ⟨?_, ?_⟩, fun k inside j here => ?_, fun j outside => ?_, fun b below => ?_⟩
  · have count := entry.count
    have count' := data.count
    have size := built.size
    have sum := blocks_concat files input
    rw [allocated.inodes, update_of_ne apart, size, length_dirent, allocated.freeblock, built.freeblock] at count
    rw [inode₂, empty, Nat.zero_add] at count'
    have zero : need 0 = 0 := rfl
    have place : 16 * (files.length + 2) + 16 = 16 * (files.length + 1 + 2) := by omega
    rw [place] at count
    omega
  · rw [data.others _ apart, entry.type, allocated.inodes, update_of_ne apart]
    exact built.root.1
  · rw [data.text_other apart, entry.text, allocated.text_other apart, built.root.2, listing_concat]
  · by_cases last : k = files.length
    · subst last
      obtain rfl : j = nextIno files room := Fin.ext here
      rw [data.type, inode₂, allocated.inodes, update_self, data.text, entry.text_other apart.symm, allocated.text,
        nil_append, getElem_concat_length rfl]
      exact ⟨rfl, rfl⟩
    · have old : k < files.length := by omega
      have other : j ≠ nextIno files room := Fin.ne_of_val_ne (show j.val ≠ files.length + 2 by omega)
      have other' : j ≠ Build.root := Fin.ne_of_val_ne (show j.val ≠ 1 by omega)
      rw [others j other other', texts j other other', getElem_append_left old]
      exact built.files k old j here
  · have other : j ≠ nextIno files room := Fin.ne_of_val_ne (show j.val ≠ files.length + 2 by omega)
    have other' : j ≠ Build.root := Fin.ne_of_val_ne (show j.val ≠ 1 by omega)
    rw [others j other other']
    exact built.unused j (outside.imp_right (by omega))
  · rw [data.low b below, entry.low b below, allocated.low b below]
    exact built.low b below

theorem Built.alloc (built : Built files m) (room : files.length < NINODES - 2) :
    ∃ m₁, ialloc m T_FILE = .ok (m₁, files.length + 2) ∧ Allocated m (nextIno files room) T_FILE m₁ := by
  have number := built.freeinode
  exact ialloc_spec built.whole (j := nextIno files room) number.symm (built.unused _ (.inr number.le)) T_FILE

theorem add_eq {chunks : List (List Byte)} (name : slash ∉ shortname input.path) (opened : input.content = some chunks)
    {m₁ : Image} {inum : Nat} (allocated : ialloc m T_FILE = .ok (m₁, inum)) :
    add m input = iappend m₁ ROOTINO (dirent inum input.name) >>= fun m₂ =>
      chunks.foldlM (fun m chunk => iappend m inum chunk) m₂ := by
  rw [add, if_neg name, opened]
  simp only [allocated]
  rfl

theorem accepts_of_add (done : add m input = .ok m') : slash ∉ shortname input.path ∧ ∃ chunks, input.content = some chunks := by
  rw [add] at done
  split_ifs at done with name
  cases opened : input.content with
  | none => rw [opened] at done; cases done
  | some chunks => exact ⟨name, chunks, rfl⟩

theorem Built.add_of_ok (built : Built files m) (room : files.length < NINODES - 2) (done : add m input = .ok m') :
    Built (files ++ [input]) m' := by
  obtain ⟨name, chunks, opened⟩ := accepts_of_add done
  obtain ⟨m₁, ran, allocated⟩ := built.alloc room
  rw [add_eq name opened ran] at done
  obtain ⟨m₂, entered, rest⟩ := bind_eq_ok.mp done
  have entry : Extended m₁ Build.root _ m₂ := iappend_extended allocated.whole entered
  have data : Extended m₂ (nextIno files room) chunks.flatten m' := chunks_extended entry.whole rest
  have same : input.data = chunks.flatten := by rw [Input.data, opened, Option.getD_some]
  exact built.concat room allocated entry (same ▸ data)

/-- A file that mkfs can put into an image with enough room. -/
structure Acceptable (input : Input) : Prop where
  name : slash ∉ shortname input.path
  opened : ∃ chunks, input.content = some chunks
  small : input.data.length ≤ MAXFILE * BSIZE

theorem Built.add_ok (built : Built files m) (room : files.length < NINODES - 2) (acceptable : Acceptable input)
    (enough : blocks (files ++ [input]) ≤ FSSIZE) : ∃ m', add m input = .ok m' := by
  obtain ⟨chunks, opened⟩ := acceptable.opened
  obtain ⟨m₁, ran, allocated⟩ := built.alloc room
  have apart := nextIno_ne_root room
  have inode : (world m₁).inodes Build.root = (world m).inodes Build.root := by
    rw [allocated.inodes, update_of_ne apart]
  have size := built.size
  have sum := blocks_concat files input
  have count := built.freeblock
  have place : 16 * (files.length + 2) + 16 = 16 * (files.length + 1 + 2) := by omega
  have limit : 16 * 200 ≤ MAXFILE * BSIZE := by decide
  have most : NINODES - 2 = 198 := rfl
  have fits : Fits m₁ ((world m₁).inodes Build.root).size.toNat (dirent (files.length + 2) input.name).length := by
    rw [inode, size, length_dirent, Fits, place, allocated.freeblock]
    omega
  obtain ⟨m₂, entered⟩ := iappend_fits allocated.whole fits
  have entry := iappend_extended allocated.whole entered
  have total := entry.count
  rw [inode, size, length_dirent, place, allocated.freeblock] at total
  have same : chunks.flatten = input.data := by rw [Input.data, opened, Option.getD_some]
  have zero : need 0 = 0 := rfl
  have empty : ((world m₂).inodes (nextIno files room)).size.toNat = 0 := by
    rw [entry.others _ apart.symm, allocated.inodes, update_self]
    rfl
  have small := acceptable.small
  have fits' : Fits m₂ ((world m₂).inodes (nextIno files room)).size.toNat chunks.flatten.length := by
    rw [empty, same, Fits, Nat.zero_add]
    omega
  obtain ⟨m', filled⟩ := chunks_fit entry.whole fits'
  refine ⟨m', ?_⟩
  rw [add_eq acceptable.name opened ran]
  show (iappend m₁ Build.root.val _ >>= _) = _
  rw [entered]
  exact filled

end Steps

section Start

theorem ref_blank (d : Disk) {ip : Dinode} (none : ip.addrs = fun _ => 0) (slot : Slot) : ref ⟨d, ip⟩ slot = 0 := by
  cases slot with
  | direct k | indirect => exact congrFun none _
  | entry k => exact if_pos (congrFun none _)

theorem cleared_eq {n : Nat} (small : n ≤ FSSIZE) :
    (List.range n).foldl (fun m i => wsect m (BitVec.ofNat 32 i) zeroes) ⟨fun _ => zeroes, 0, 1, nmeta⟩ =
      ⟨fun _ => zeroes, n, 1, nmeta⟩ := by
  induction n with
  | zero => rfl
  | succ n ih =>
    have limit : FSSIZE < 2 ^ 32 := by decide
    have number : (BitVec.ofNat 32 n).toNat = n := by rw [BitVec.toNat_ofNat, Nat.mod_eq_of_lt (by omega)]
    rw [range_succ, foldl_append, ih (by omega), foldl_cons, foldl_nil, wsect, number]
    refine congrArg₂ (fun disk length => Image.mk disk length 1 nmeta) (update_eq_self _ _) ?_
    exact max_eq_right (Nat.le_succ n)

theorem start_eq : start = ⟨update (fun _ => zeroes) 1
    (superblock.zipIdx.foldl (fun buf word => setWord buf (4 * word.2) word.1) zeroes), FSSIZE, 1, nmeta⟩ := by
  rw [start, cleared_eq le_rfl]
  rfl

theorem start_disk {b : Blockno} (other : b ≠ 1) : start.disk b = zeroes := by
  rw [start_eq]
  exact update_of_ne (f := fun _ => zeroes) other _

theorem decode_zero : Dinode.decode (fun _ => 0) = blank :=
  Dinode.ext rfl rfl rfl rfl (getWord_zero 8) (funext fun i => getWord_zero (12 + 4 * i.val))

theorem start_inodes (j : Fin NINODES) : (world start).inodes j = blank := by
  have other : IBLOCK sb j ≠ 1 := by
    intro same
    have above : sb.inodestart ≤ (IBLOCK sb j).toNat := (toNat_IBLOCK sb j.isLt).1 ▸ Nat.le_add_left _ _
    rw [same] at above
    exact absurd above (by decide)
  show Dinode.decode (slice (start.disk (IBLOCK sb j)) _ 64) = _
  rw [start_disk other, ← decode_zero]
  exact congrArg Dinode.decode (funext fun i => byteAt_zero _)

theorem start_ref (j : Fin NINODES) (slot : Slot) : ref ((world start).file j) slot = 0 :=
  ref_blank _ (congrArg Dinode.addrs (start_inodes j)) slot

theorem start_whole : Whole start := by
  have size : start.freeblock = nmeta ∧ start.length = FSSIZE := by
    rw [start_eq]
    exact ⟨rfl, rfl⟩
  have low : nmeta ≤ FSSIZE := by decide
  refine ⟨⟨rfl, ⟨fun b below => ?_, fun j slot some => absurd (start_ref j slot) some,
    fun j k slot slot' some => absurd (start_ref j slot) some⟩, size.2, size.1.ge, size.1.trans_le low, fun b above => ?_,
    fun b above below => ?_⟩, fun j => ?_, fun j => ?_⟩
  · have within : b < nmeta := below
    show used sb (shadow start) b = true
    rw [used_shadow (size.1.trans_le low) (within.trans_le low), size.1]
    exact decide_eq_true within
  · refine start_disk fun same => ?_
    rw [same, size.1] at above
    exact absurd above (by decide)
  · rw [size.1] at below
    omega
  · rw [start_inodes]
    exact ⟨fun bn => iff_of_false (not_not.mpr (start_ref j _)) (Nat.not_lt_zero _),
      iff_of_false (not_not.mpr (start_ref j _)) (Nat.not_lt_zero _)⟩
  · rw [start_inodes]
    exact Nat.zero_le _

theorem makeRoot_spec : ∃ m, makeRoot = .ok m ∧ Built [] m := by
  have counters : start.freeinode = 1 ∧ start.freeblock = nmeta := by
    rw [start_eq]
    exact ⟨rfl, rfl⟩
  obtain ⟨m₁, ran, allocated⟩ := ialloc_spec (j := root) start_whole counters.1.symm (start_inodes root) T_DIR
  have empty : ((world m₁).inodes root).size.toNat = 0 := by
    rw [allocated.inodes, update_self]
    rfl
  have count : m₁.freeblock = nmeta := allocated.freeblock.trans counters.2
  have fits : Fits m₁ ((world m₁).inodes root).size.toNat (dirent ROOTINO [dot]).length := by
    rw [empty, Fits, count]
    decide
  obtain ⟨m₂, first⟩ := iappend_fits allocated.whole fits
  have entry := iappend_extended allocated.whole first
  have size : ((world m₂).inodes root).size.toNat = 16 := by
    rw [entry.size, empty, length_dirent]
  have count₂ : m₂.freeblock = nmeta + 1 := by
    have total := entry.count
    rw [empty, length_dirent, count] at total
    exact total
  have fits' : Fits m₂ ((world m₂).inodes root).size.toNat (dirent ROOTINO [dot, dot]).length := by
    rw [size, Fits, count₂]
    decide
  obtain ⟨m₃, second⟩ := iappend_fits entry.whole fits'
  have entry' := iappend_extended entry.whole second
  have others : ∀ j, j ≠ root → (world m₃).inodes j = blank := by
    intro j other
    rw [entry'.others j other, entry.others j other, allocated.inodes, update_of_ne other, start_inodes]
  refine ⟨m₃, ?_, entry'.whole, ?_, ?_, ⟨?_, ?_⟩, fun k inside => absurd inside (Nat.not_lt_zero k), fun j outside => ?_,
    fun b below => ?_⟩
  · rw [makeRoot, ran]
    show (iappend m₁ root.val (dirent ROOTINO [dot]) >>= _) = _
    rw [first]
    exact second
  · rw [entry'.inodes, entry.inodes, allocated.freeinode, counters.1]
    rfl
  · have total := entry'.count
    rw [size, length_dirent, count₂] at total
    exact Nat.add_right_cancel (total.trans (show _ = blocks [] + need 16 by decide))
  · rw [entry'.type, entry.type, allocated.inodes, update_self]
  · rw [entry'.text, entry.text, allocated.text]
    rfl
  · refine others j (Fin.ne_of_val_ne (show j.val ≠ 1 from ?_))
    have counter : m₃.freeinode = 2 := by rw [entry'.inodes, entry.inodes, allocated.freeinode, counters.1]
    omega
  · rw [entry'.low b below, entry.low b below, allocated.low b below]

end Start

section Runs
variable {files rest : List Input} {m m' : Image}

theorem blocks_mono (files rest : List Input) : blocks files ≤ blocks (files ++ rest) := by
  have more := need_mono (show 16 * (files.length + 2) ≤ 16 * ((files ++ rest).length + 2) by rw [length_append]; omega)
  rw [blocks, blocks, map_append, sum_append]
  omega

theorem Built.foldlM (built : Built files m) (room : (files ++ rest).length ≤ NINODES - 2)
    (done : rest.foldlM add m = .ok m') : Built (files ++ rest) m' := by
  induction rest generalizing files m with
  | nil =>
    obtain rfl := Except.ok.inj done
    rwa [append_nil]
  | cons input rest ih =>
    rw [foldlM_cons] at done
    obtain ⟨m₁, ran, rest⟩ := bind_eq_ok.mp done
    rw [append_cons] at room ⊢
    have length : files.length < NINODES - 2 := by
      rw [length_append, length_append, length_singleton] at room
      omega
    exact ih (built.add_of_ok length ran) room rest

theorem Built.foldlM_ok (built : Built files m) (room : (files ++ rest).length ≤ NINODES - 2)
    (acceptable : ∀ input ∈ rest, Acceptable input) (enough : blocks (files ++ rest) ≤ FSSIZE) :
    ∃ m', rest.foldlM add m = .ok m' := by
  induction rest generalizing files m with
  | nil => exact ⟨m, rfl⟩
  | cons input rest ih =>
    rw [append_cons] at room enough
    have length : files.length < NINODES - 2 := by
      rw [length_append, length_append, length_singleton] at room
      omega
    obtain ⟨m₁, ran⟩ := built.add_ok length (acceptable input mem_cons_self) ((blocks_mono _ rest).trans enough)
    obtain ⟨m', ran'⟩ := ih (built.add_of_ok length ran) room (fun other member =>
      acceptable other (mem_cons_of_mem input member)) enough
    refine ⟨m', ?_⟩
    rw [foldlM_cons, ran]
    exact ran'

end Runs

section Finish
variable {files : List Input} {m m' : Image}

def rounded (m : Image) : Dinode :=
  { (world m).inodes root with size := BitVec.ofNat 32 ((((world m).inodes root).size.toNat / BSIZE + 1) * BSIZE) }

def fileAt (m : Image) (inum : Nat) : File := ⟨m.disk, dinode sb m.disk inum⟩

/-- The finished image: the bit map is in place, and the root directory has its final size. -/
structure Finished (m m' : Image) : Prop where
  back : Back m root ((world m).file root) (rounded m) (putInode m root (rounded m))
  files : ∀ j : Fin NINODES, fileAt m' j = (world (putInode m root (rounded m))).file j
  disk : m'.disk = shadow (putInode m root (rounded m))
  freeinode : m'.freeinode = m.freeinode

theorem finish_spec (built : Built files m) : ∃ m', finish m = .ok m' ∧ Finished m m' := by
  have laid := built.whole.laid
  have read : rinode m ROOTINO = .ok ((world m).inodes root) := rinode_eq laid.length root.isLt
  have write : winode m ROOTINO (rounded m) = .ok (putInode m root (rounded m)) := winode_eq laid.length root.isLt _
  have high : m.freeblock < BSIZE * 8 := laid.high.trans_lt (by decide)
  refine ⟨wsect (putInode m root (rounded m)) (BitVec.ofNat 32 sb.bmapstart) (firstBits m.freeblock), ?_, ?_, fun j => ?_, rfl,
    rfl⟩
  · rw [finish, read]
    show (winode m ROOTINO (rounded m) >>= _) = _
    rw [write]
    exact if_pos high
  · refine putInode_back ?_ (fun _ _ => rfl) (rounded m) rfl
    rwa [World.put_file]
  · refine congrArg (File.mk _) (dinode_congr (fun b below => ?_) j.isLt)
    exact shadow_of_ne _ (Nat.ne_of_lt below)

/-- A well-formed image: the inodes that were handed out lie in the inode blocks, the blocks that they have are in the data
area, in one place each and in the bit map, and no block below the size of a file is missing. -/
structure WellFormed (m : Image) : Prop where
  inodes : ∀ inum, 1 ≤ inum → inum < m.freeinode →
    inum < sb.ninodes ∧ sb.inodestart ≤ (IBLOCK sb inum).toNat ∧ (IBLOCK sb inum).toNat < sb.bmapstart
  inside : ∀ inum slot, 1 ≤ inum → inum < m.freeinode → ref (fileAt m inum) slot ≠ 0 →
    nmeta ≤ (ref (fileAt m inum) slot).toNat ∧ (ref (fileAt m inum) slot).toNat < sb.size
  apart : ∀ inum inum' slot slot', 1 ≤ inum → inum < m.freeinode → 1 ≤ inum' → inum' < m.freeinode →
    ref (fileAt m inum) slot ≠ 0 → ref (fileAt m inum) slot = ref (fileAt m inum') slot' → inum = inum' ∧ slot = slot'
  bitmap : ∀ b, b < sb.size → (used sb m.disk b = true ↔
    b < nmeta ∨ ∃ inum slot, 1 ≤ inum ∧ inum < m.freeinode ∧ ref (fileAt m inum) slot ≠ 0 ∧
      (ref (fileAt m inum) slot).toNat = b)
  full : ∀ inum bn, 1 ≤ inum → inum < m.freeinode →
    bn < ((fileAt m inum).ip.size.toNat + BSIZE - 1) / BSIZE →
      ∃ inside : bn < MAXFILE, ref (fileAt m inum) (dataSlot ⟨bn, inside⟩) ≠ 0

section
variable (finished : Finished m m')
include finished

theorem Finished.ref_eq (j : Fin NINODES) (slot : Slot) : ref (fileAt m' j) slot = ref ((world m).file j) slot := by
  have same := finished.back.refs j slot
  rwa [World.put_file, ← finished.files j] at same

theorem Finished.content_eq (j : Fin NINODES) (k : Nat) : content (fileAt m' j) k = content ((world m).file j) k := by
  have same := finished.back.same j k
  rwa [World.put_file, ← finished.files j] at same

theorem Finished.contents_eq (j : Fin NINODES) (off count : Nat) :
    contents (fileAt m' j) off count = contents ((world m).file j) off count :=
  map_congr_left fun x _ => finished.content_eq j (off + x)

theorem Finished.size_other {j : Fin NINODES} (other : j ≠ root) : (fileAt m' j).ip = (world m).inodes j := by
  rw [finished.files j]
  show (world _).inodes j = _
  rw [finished.back.inodes, update_of_ne other]

theorem Finished.inode_root : (fileAt m' ROOTINO).ip = rounded m := by
  show (fileAt m' root).ip = _
  rw [finished.files root]
  show (world _).inodes root = _
  rw [finished.back.inodes, update_self]

theorem Finished.size_root (built : Built files m) (few : files.length ≤ NINODES - 2) :
    (fileAt m' ROOTINO).ip.size.toNat = (16 * (files.length + 2) / BSIZE + 1) * BSIZE := by
  have most : NINODES - 2 = 198 := rfl
  rw [finished.inode_root]
  show (BitVec.ofNat 32 _).toNat = _
  rw [built.size, BitVec.toNat_ofNat, Nat.mod_eq_of_lt]
  unfold BSIZE
  omega

omit finished in
theorem Built.allocated (built : Built files m) {j : Fin NINODES} {slot : Slot} (some : ref ((world m).file j) slot ≠ 0) :
    1 ≤ j.val ∧ j.val < m.freeinode := by
  by_contra outside
  have unused := built.unused j (by omega)
  exact some (ref_blank _ (congrArg Dinode.addrs unused) slot)

theorem Finished.used_eq {b : Nat} (inside : b < sb.size) : used sb m'.disk b = decide (b < m.freeblock) := by
  rw [finished.disk]
  exact used_shadow finished.back.laid.high inside

end

end Finish

section WellFormed
variable {files : List Input} {m m' : Image}

theorem Finished.wellFormed (built : Built files m) (few : files.length ≤ NINODES - 2) (finished : Finished m m')
    (uneven : (files.length + 2) % 64 ≠ 0) : WellFormed m' := by
  have number := built.freeinode
  have counter := finished.freeinode
  have most : NINODES - 2 = 198 := rfl
  have all : sb.ninodes = 200 := rfl
  have within : ∀ inum, inum < m'.freeinode → inum < NINODES := fun inum below => by unfold NINODES; omega
  refine ⟨fun inum _ below => ?_, fun inum slot _ below some => ?_, fun inum inum' slot slot' _ below _ below' some same => ?_,
    fun b inside => ?_, fun inum bn low below block => ?_⟩
  · obtain ⟨place, before⟩ := toNat_IBLOCK sb (within inum below)
    exact ⟨within inum below, place ▸ Nat.le_add_left _ _, before⟩
  · rw [finished.ref_eq ⟨inum, within inum below⟩] at some ⊢
    have bounds := built.whole.laid.inside some
    exact ⟨bounds.1, bounds.2.trans_le built.whole.laid.high⟩
  · rw [finished.ref_eq ⟨inum, within inum below⟩] at some
    rw [finished.ref_eq ⟨inum, within inum below⟩, finished.ref_eq ⟨inum', within inum' below'⟩] at same
    obtain ⟨inodes, slots⟩ := built.whole.laid.owned.apart _ _ slot slot' some same
    exact ⟨congrArg Fin.val inodes, slots⟩
  · rw [finished.used_eq inside, decide_eq_true_iff]
    constructor
    · intro below
      by_cases data : b < nmeta
      · exact .inl data
      · obtain ⟨j, slot, some, here⟩ := built.whole.laid.taken b (Nat.not_lt.mp data) below
        obtain ⟨low, high⟩ := built.allocated some
        rw [← finished.ref_eq] at some here
        exact .inr ⟨j, slot, low, counter ▸ high, some, here⟩
    · rintro (meta_ | ⟨inum, slot, -, below, some, here⟩)
      · exact meta_.trans_le built.whole.laid.low
      · rw [finished.ref_eq ⟨inum, within inum below⟩] at some here
        exact here ▸ (built.whole.laid.inside some).2
  · have small : bn < MAXFILE ∧ bn * BSIZE < ((world m).inodes ⟨inum, within inum below⟩).size.toNat := by
      by_cases first : inum = ROOTINO
      · subst first
        rw [finished.size_root built few] at block
        show bn < MAXFILE ∧ bn * BSIZE < ((world m).inodes root).size.toNat
        rw [built.size]
        have limit : MAXFILE = 268 := rfl
        unfold BSIZE at *
        omega
      · have other : (⟨inum, within inum below⟩ : Fin NINODES) ≠ root := Fin.ne_of_val_ne first
        rw [finished.size_other other] at block
        have limit := built.whole.small ⟨inum, within inum below⟩
        unfold BSIZE at *
        omega
    refine ⟨small.1, ?_⟩
    rw [finished.ref_eq ⟨inum, within inum below⟩]
    exact ((built.whole.filled _).data ⟨bn, small.1⟩).mpr small.2

theorem Finished.uneven (built : Built files m) (few : files.length ≤ NINODES - 2) (finished : Finished m m')
    (formed : WellFormed m') : (files.length + 2) % 64 ≠ 0 := by
  intro even
  have size := finished.size_root built few
  have counter : m'.freeinode = files.length + 2 := finished.freeinode.trans built.freeinode
  obtain ⟨inside, some⟩ := formed.full ROOTINO (16 * (files.length + 2) / BSIZE) le_rfl (show 1 < _ by omega) (by
    rw [size]
    unfold BSIZE
    omega)
  have begun : ref (fileAt m' root) (dataSlot ⟨16 * (files.length + 2) / BSIZE, inside⟩) ≠ 0 := some
  rw [finished.ref_eq, (built.whole.filled root).data, built.size] at begun
  have below : 16 * (files.length + 2) / BSIZE * BSIZE < 16 * (files.length + 2) := begun
  unfold BSIZE at below
  omega

end WellFormed

section Inodes
variable {m m' : Image}

theorem winode_freeinode {inum : Nat} {ip : Dinode} (done : winode m inum ip = .ok m') : m'.freeinode = m.freeinode := by
  rw [winode, rsect] at done
  split_ifs at done
  · exact Except.ok.inj done ▸ rfl
  · cases done

theorem point_freeinode (m : Image) (din : Dinode) (k : Fin (NDIRECT + 1)) : (point m din k).1.freeinode = m.freeinode := by
  rw [point]
  split_ifs <;> rfl

theorem locate_freeinode {din din' : Dinode} {fbn : Nat} {x : Blockno} (done : locate m din fbn = .ok (m', din', x)) :
    m'.freeinode = m.freeinode := by
  by_cases direct : fbn < NDIRECT
  · rw [locate_direct direct (k := ⟨fbn, direct.trans (Nat.lt_succ_self _)⟩) rfl] at done
    obtain ⟨rfl, -⟩ := Prod.mk.inj (Except.ok.inj done)
    exact point_freeinode m din _
  · rw [locate_indirect direct] at done
    by_cases inside : ((point m din (Fin.last NDIRECT)).2.addrs (Fin.last NDIRECT)).toNat <
        (point m din (Fin.last NDIRECT)).1.length
    · rw [entry_inside inside] at done
      obtain ⟨rfl, -⟩ := Prod.mk.inj (Except.ok.inj done)
      split_ifs
      · exact point_freeinode m din _
      · exact point_freeinode m din _
    · rw [entry_outside (Nat.not_lt.mp inside)] at done
      cases done

theorem appendLoop_freeinode {fuel off off' : Nat} {din din' : Dinode} {p : List Byte}
    (done : appendLoop fuel m din off p = .ok (m', din', off')) : m'.freeinode = m.freeinode := by
  induction fuel generalizing m din off p with
  | zero => exact (Prod.mk.inj (Except.ok.inj done)).1 ▸ rfl
  | succ fuel ih =>
    by_cases more : 0 < p.length
    · have inside : off / BSIZE < MAXFILE := by
        by_contra outside
        rw [appendLoop, if_pos more] at done
        cases (if_neg outside).symm.trans done
      by_cases found : ∃ m₁ din₁ x, locate m din (off / BSIZE) = .ok (m₁, din₁, x) ∧ x.toNat < m₁.length
      · obtain ⟨m₁, din₁, x, found, short⟩ := found
        rw [appendLoop_round fuel more inside found (if_pos short) rfl] at done
        rw [ih done, ← locate_freeinode found]
        rfl
      · obtain ⟨e, died⟩ := appendLoop_dies fuel more inside fun m₁ din₁ x located =>
          Nat.not_lt.mp fun short => found ⟨m₁, din₁, x, located, short⟩
        cases died.symm.trans done
    · rw [appendLoop, if_neg more] at done
      exact (Prod.mk.inj (Except.ok.inj done)).1 ▸ rfl

theorem iappend_freeinode {inum : Nat} {p : List Byte} (done : iappend m inum p = .ok m') :
    m'.freeinode = m.freeinode := by
  obtain ⟨din, -, rest⟩ := bind_eq_ok.mp done
  obtain ⟨found, ran, written⟩ := bind_eq_ok.mp rest
  exact (winode_freeinode written).trans (appendLoop_freeinode ran)

theorem chunks_freeinode {inum : Nat} {chunks : List (List Byte)}
    (done : chunks.foldlM (fun m chunk => iappend m inum chunk) m = .ok m') : m'.freeinode = m.freeinode := by
  induction chunks generalizing m with
  | nil => exact Except.ok.inj done ▸ rfl
  | cons chunk rest ih =>
    rw [foldlM_cons] at done
    obtain ⟨m₁, ran, later⟩ := bind_eq_ok.mp done
    exact (ih later).trans (iappend_freeinode ran)

theorem add_freeinode {input : Input} (done : add m input = .ok m') : m'.freeinode = m.freeinode + 1 := by
  obtain ⟨name, chunks, opened⟩ := accepts_of_add done
  rw [add, if_neg name, opened] at done
  obtain ⟨⟨m₁, inum⟩, taken, rest⟩ := bind_eq_ok.mp done
  obtain ⟨m₂, entered, filled⟩ := bind_eq_ok.mp rest
  obtain ⟨m₀, written, same⟩ := bind_eq_ok.mp taken
  obtain ⟨rfl, -⟩ := Prod.mk.inj (Except.ok.inj same)
  rw [chunks_freeinode filled, iappend_freeinode entered, winode_freeinode written]

theorem foldlM_freeinode {files : List Input} (done : files.foldlM add m = .ok m') :
    m'.freeinode = m.freeinode + files.length := by
  induction files generalizing m with
  | nil => exact Except.ok.inj done ▸ rfl
  | cons input rest ih =>
    rw [foldlM_cons] at done
    obtain ⟨m₁, ran, later⟩ := bind_eq_ok.mp done
    rw [ih later, add_freeinode ran, length_cons]
    omega

theorem finish_freeinode (done : finish m = .ok m') : m'.freeinode = m.freeinode := by
  obtain ⟨din, -, rest⟩ := bind_eq_ok.mp done
  obtain ⟨m₁, written, marked⟩ := bind_eq_ok.mp rest
  rw [← winode_freeinode written]
  rw [Program.balloc] at marked
  split_ifs at marked
  exact Except.ok.inj marked ▸ rfl

end Inodes

section Main
variable {files : List Input} {m m' : Image}

theorem main_built (done : main files = .ok m') (few : files.length ≤ NINODES - 2) :
    ∃ m, Built files m ∧ Finished m m' := by
  obtain ⟨m₀, made, rest⟩ := bind_eq_ok.mp done
  obtain ⟨m, added, ended⟩ := bind_eq_ok.mp rest
  obtain ⟨m₁, made', built⟩ := makeRoot_spec
  obtain rfl := Except.ok.inj (made.symm.trans made')
  have whole := built.foldlM few added
  rw [nil_append] at whole
  obtain ⟨m₂, ended', finished⟩ := finish_spec whole
  obtain rfl := Except.ok.inj (ended.symm.trans ended')
  exact ⟨m, whole, finished⟩

theorem main_ok (few : files.length ≤ NINODES - 2) (acceptable : ∀ input ∈ files, Acceptable input)
    (enough : blocks files ≤ FSSIZE) : ∃ m, main files = .ok m := by
  obtain ⟨m₀, made, built⟩ := makeRoot_spec
  obtain ⟨m₁, added⟩ := built.foldlM_ok few acceptable enough
  have whole := built.foldlM few added
  obtain ⟨m, ended, -⟩ := finish_spec whole
  exact ⟨m, bind_eq_ok.mpr ⟨m₀, made, bind_eq_ok.mpr ⟨m₁, added, ended⟩⟩⟩

theorem main_freeinode (done : main files = .ok m') : m'.freeinode = files.length + 2 := by
  obtain ⟨m₀, made, rest⟩ := bind_eq_ok.mp done
  obtain ⟨m, added, ended⟩ := bind_eq_ok.mp rest
  obtain ⟨m₁, made', built⟩ := makeRoot_spec
  obtain rfl := Except.ok.inj (made.symm.trans made')
  rw [finish_freeinode ended, foldlM_freeinode added, built.freeinode, length_nil]
  omega

/-- mkfs checks neither the number of its inodes nor whether the rounded size of the root directory promises a block that is
not there. -/
theorem well_formed_iff (done : main files = .ok m') :
    WellFormed m' ↔ files.length ≤ NINODES - 2 ∧ (files.length + 2) % 64 ≠ 0 := by
  have number := main_freeinode done
  constructor
  · intro formed
    have last := (formed.inodes (files.length + 1) (by omega) (by omega)).1
    have all : sb.ninodes = 200 := rfl
    have few : files.length ≤ NINODES - 2 := by
      unfold NINODES
      omega
    obtain ⟨m, built, finished⟩ := main_built done few
    exact ⟨few, finished.uneven built few formed⟩
  · rintro ⟨few, uneven⟩
    obtain ⟨m, built, finished⟩ := main_built done few
    exact finished.wellFormed built few uneven

/-- A file with so many full blocks and a byte more. -/
def sized (path : List Byte) (nonzero : 0 ∉ path) (full : Nat) : Input where
  path := path
  content := some (replicate full (replicate BSIZE 1) ++ [[2]])
  nonzero := nonzero
  sizes chunks member chunk inside := by
    cases Option.mem_some.mp member
    rcases mem_append.mp inside with early | last
    · rw [(mem_replicate.mp early).2]
      exact ⟨by decide, length_replicate.le⟩
    · rw [mem_singleton.mp last]
      exact ⟨by decide, by decide⟩

/-- user/_cat, which is one byte long, and README, whose last blocks are found through the indirect block. -/
def twoFiles : List Input :=
  [sized (userDir ++ [underscore, 0x63, 0x61, 0x74]) (by decide) 0,
    sized [0x69, 0x6e, 0x69, 0x74] (by decide) 13]

theorem two_files_well_formed : ∃ m, main twoFiles = .ok m ∧ WellFormed m := by
  have acceptable : ∀ input ∈ twoFiles, Acceptable input := by
    intro input member
    rcases mem_pair.mp member with rfl | rfl
    · exact ⟨by decide, ⟨_, rfl⟩, by decide +kernel⟩
    · exact ⟨by decide, ⟨_, rfl⟩, by decide +kernel⟩
  obtain ⟨m, done⟩ := main_ok (by decide) acceptable (by decide +kernel)
  exact ⟨m, done, (well_formed_iff done).mpr (by decide)⟩

def emptyFiles (n : Nat) : List Input :=
  List.replicate n ⟨[0x66], some [], by decide, fun chunks member => by simp [← Option.mem_some.mp member]⟩

/-- Sixty-two files and the two dots fill a block, and the root directory gets a second one that is not there. -/
theorem sixty_two_files_hole : ∃ m, main (emptyFiles 62) = .ok m ∧ ¬WellFormed m := by
  have acceptable : ∀ input ∈ emptyFiles 62, Acceptable input := by
    intro input member
    obtain ⟨-, rfl⟩ := mem_replicate.mp member
    exact ⟨by decide, ⟨[], rfl⟩, by decide⟩
  obtain ⟨m, done⟩ := main_ok (by decide) acceptable (by decide)
  refine ⟨m, done, fun formed => ?_⟩
  obtain ⟨m₀, built, finished⟩ := main_built done (by decide)
  exact finished.uneven built (by decide) formed (by decide)

end Main

end Xv6.Mkfs.Build
