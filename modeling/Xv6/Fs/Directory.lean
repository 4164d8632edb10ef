import Xv6.Fs.Transfer

/-! Directories and paths in fs.c: dirlookup, skipelem and namex. An inode is as ilock shows it, from the table or from the
disk; nothing that is dropped on the way is without links. -/

namespace Xv6.Fs.Directory

open Lib.Bytes Format Inode Blocks Transfer List
open Disklog.Commit (Blockno Block Disk)

section Names

def strncmp : Nat → (Nat → Byte) → (Nat → Byte) → Int
  | 0, _, _ => 0
  | n + 1, p, q =>
      if p 0 ≠ 0 ∧ p 0 = q 0 then strncmp n (fun i => p (i + 1)) (fun i => q (i + 1)) else (p 0).toNat - (q 0).toNat

def namecmp (s t : Nat → Byte) : Int := strncmp DIRSIZ s t

def chars (s : List Byte) (i : Nat) : Byte := s.getD i 0

theorem strncmp_eq_zero_iff (n : Nat) (s t : List Byte) (nonzero : 0 ∉ s) (nonzero' : 0 ∉ t) (short : s.length ≤ n)
    (short' : t.length ≤ n) : strncmp n (chars s) (chars t) = 0 ↔ s = t := by
  induction n generalizing s t with
  | zero =>
    rw [eq_nil_of_length_eq_zero (Nat.le_zero.mp short), eq_nil_of_length_eq_zero (Nat.le_zero.mp short')]
    exact iff_of_true rfl rfl
  | succ n ih =>
    cases s with
    | nil =>
      cases t with
      | nil => exact iff_of_true rfl rfl
      | cons y t =>
        have some : y ≠ 0 := fun zero => nonzero' (zero ▸ mem_cons_self)
        refine iff_of_false (fun same => some ?_) nofun
        rw [strncmp, if_neg fun both => both.1 rfl] at same
        refine BitVec.eq_of_toNat_eq ?_
        have none : (chars [] 0).toNat = 0 := rfl
        have first : (chars (y :: t) 0).toNat = y.toNat := rfl
        show y.toNat = 0
        omega
    | cons x s =>
      have some : x ≠ 0 := fun zero => nonzero (zero ▸ mem_cons_self)
      by_cases same : x = chars t 0
      · cases t with
        | nil => exact absurd same some
        | cons y t =>
          obtain rfl : x = y := same
          rw [strncmp, if_pos ⟨some, rfl⟩, cons_inj_right]
          exact ih s t (fun member => nonzero (mem_cons_of_mem _ member))
            (fun member => nonzero' (mem_cons_of_mem _ member)) (Nat.le_of_succ_le_succ short)
            (Nat.le_of_succ_le_succ short')
      · rw [strncmp, if_neg fun both => same both.2]
        refine iff_of_false (fun zero => same (BitVec.eq_of_toNat_eq ?_)) ?_
        · have first : (chars (x :: s) 0).toNat = x.toNat := rfl
          omega
        · rintro rfl
          exact same rfl

end Names

section Lookup

def direntInum (de : List Byte) : Nat := (chars de 0).toNat + 256 * (chars de 1).toNat

def direntName (de : List Byte) (i : Nat) : Byte := chars de (2 + i)

def kernel : Dest := ⟨fun _ _ => true⟩

def lookupLoop (sb : Layout) (name : List Byte) : Nat → File → Nat → Except String (File × Option (Nat × Nat))
  | 0, dp, _ => .ok (dp, none)
  | fuel + 1, dp, off =>
    if off < dp.ip.size.toNat then do
      let (dp, r, de) ← readi sb dp kernel (BitVec.ofNat 32 off) 16
      if r = 16 then
        if direntInum de ≠ 0 ∧ namecmp (chars name) (direntName de) = 0 then .ok (dp, some (direntInum de, off))
        else lookupLoop sb name fuel dp (off + 16)
      else .error "dirlookup read"
    else .ok (dp, none)

def dirlookup (sb : Layout) (dp : File) (name : List Byte) : Except String (File × Option (Nat × Nat)) :=
  if dp.ip.type = T_DIR then lookupLoop sb name (dp.ip.size.toNat / 16 + 1) dp 0 else .error "dirlookup not DIR"

def Matches (name de : List Byte) : Prop := direntInum de ≠ 0 ∧ namecmp (chars name) (direntName de) = 0

/-- The first entry with the name is found, and nothing changes, where the blocks up to it are there. -/
theorem lookupLoop_found {sb : Layout} {s : File} {name : List Byte} {last : Nat} (fuel : Nat) {e : Nat} (le : e ≤ last)
    (enough : last - e < fuel) (size : 16 * (last + 1) ≤ s.ip.size.toNat) (room : 16 * (last + 1) ≤ MAXFILE * BSIZE)
    (present : ∀ bn : Fin MAXFILE, bn.val * BSIZE < 16 * (last + 1) → ref s (dataSlot bn) ≠ 0)
    (others : ∀ k < last, ¬Matches name (contents s (16 * k) 16)) (here : Matches name (contents s (16 * last) 16)) :
    lookupLoop sb name fuel s (16 * e) = .ok (s, some (direntInum (contents s (16 * last) 16), 16 * last)) := by
  induction fuel generalizing e with
  | zero => omega
  | succ fuel ih =>
    have limit : MAXFILE * BSIZE < 2 ^ 32 := by decide
    have place : (BitVec.ofNat 32 (16 * e)).toNat = 16 * e := by rw [BitVec.toNat_ofNat, Nat.mod_eq_of_lt (by omega)]
    have count : (16 : BitVec 32).toNat = 16 := rfl
    have read : readi sb s kernel (BitVec.ofNat 32 (16 * e)) 16 = .ok (s, 16, contents s (16 * e) 16) := by
      rw [readi_present (fun _ _ => rfl) (by omega) (by omega) fun bn below => present bn (by omega), place]
      rfl
    rw [lookupLoop, if_pos (by omega), read]
    show (if direntInum (contents s (16 * e) 16) ≠ 0 ∧ namecmp (chars name) (direntName (contents s (16 * e) 16)) = 0 then
      Except.ok (s, some (direntInum (contents s (16 * e) 16), 16 * e))
      else lookupLoop sb name fuel s (16 * (e + 1))) = _
    by_cases final : e = last
    · subst final
      exact if_pos here
    · refine (if_neg (others e (by omega))).trans ?_
      exact ih (by omega) (by omega)

end Lookup

section Paths

def slash : Byte := 0x2f

/-- The next element of a path, cut to DIRSIZ bytes, and what follows. -/
def skipelem (path : List Byte) : Option (List Byte × List Byte) :=
  match path.dropWhile (· = slash) with
  | [] => none
  | c :: rest =>
      some (((c :: rest).takeWhile (· ≠ slash)).take DIRSIZ, ((c :: rest).dropWhile (· ≠ slash)).dropWhile (· = slash))

/-- The loop of namex from the inode ip on. Every round takes an element off the path. -/
def namexLoop (sb : Layout) (nameiparent : Bool) :
    Nat → World Nat → Nat → List Byte → Except String (World Nat × Option (Nat × List Byte))
  | 0, w, _, _ => .ok (w, none)
  | fuel + 1, w, ip, path =>
    match skipelem path with
    | none => .ok (w, if nameiparent then none else some (ip, []))
    | some (name, path) =>
        if (w.inodes ip).type = 0 then .error "ilock: no type"
        else if (w.inodes ip).type ≠ T_DIR then .ok (w, none)
        else if nameiparent ∧ path = [] then .ok (w, some (ip, name))
        else do
          let (dp, found) ← dirlookup sb (w.file ip) name
          match found with
          | none => .ok (w.put ip dp, none)
          | some (inum, _) => namexLoop sb nameiparent fuel (w.put ip dp) inum path

theorem namexLoop_found {sb : Layout} {nameiparent : Bool} {fuel ip inum off : Nat} {w : World Nat}
    {path name rest : List Byte} {dp : File} (element : skipelem path = some (name, rest))
    (type : (w.inodes ip).type = T_DIR) (inner : ¬(nameiparent = true ∧ rest = []))
    (found : dirlookup sb (w.file ip) name = .ok (dp, some (inum, off))) :
    namexLoop sb nameiparent (fuel + 1) w ip path = namexLoop sb nameiparent fuel (w.put ip dp) inum rest := by
  rw [namexLoop, element]
  simp only [type, found, if_neg inner]
  rfl

theorem namexLoop_nil (sb : Layout) (fuel : Nat) (w : World Nat) (ip : Nat) :
    namexLoop sb false (fuel + 1) w ip [] = .ok (w, some (ip, [])) := rfl

def namex (sb : Layout) (w : World Nat) (cwd : Nat) (path : List Byte) (nameiparent : Bool) :
    Except String (World Nat × Option (Nat × List Byte)) :=
  namexLoop sb nameiparent (path.length + 1) w (if path.head? = some slash then ROOTINO else cwd) path

def namei (sb : Layout) (w : World Nat) (cwd : Nat) (path : List Byte) : Except String (World Nat × Option Nat) := do
  let (w, found) ← namex sb w cwd path false
  .ok (w, found.map Prod.fst)

theorem skipelem_eq_none_iff (path : List Byte) : skipelem path = none ↔ path.dropWhile (· = slash) = [] := by
  rw [skipelem]
  split
  · rename_i slashes
    exact iff_of_true rfl slashes
  · rename_i more
    exact iff_of_false (by simp) (by simp [more])

/-- What follows an element is shorter than the path, and empty if it has no element itself. -/
theorem skipelem_rest {path name rest : List Byte} (element : skipelem path = some (name, rest)) :
    rest.length < path.length ∧ (skipelem rest = none → rest = []) := by
  rw [skipelem] at element
  split at element
  · cases element
  · rename_i c tail dropped
    cases element
    refine ⟨?_, fun none => by rwa [skipelem_eq_none_iff, dropWhile_idempotent] at none⟩
    have first : c ≠ slash := by
      have head := head_dropWhile_not (· = slash) (l := path) (by simp [dropped])
      simpa [dropped] using head
    have whole := length_dropWhile_le (· = slash) path
    rw [dropped] at whole
    rw [dropWhile_cons_of_pos (by simpa using first)]
    calc _ ≤ (tail.dropWhile (· ≠ slash)).length := length_dropWhile_le _ _
      _ ≤ tail.length := length_dropWhile_le _ _
      _ < path.length := whole

/-- A look into the directory that nameiparent found, for the name that it left. -/
def lookupLast (sb : Layout) : World Nat × Option (Nat × List Byte) → Except String (World Nat × Option Nat)
  | (w, none) => .ok (w, none)
  | (w, some (dir, name)) => do
      let (dp, found) ← dirlookup sb (w.file dir) name
      .ok (w.put dir dp, found.map Prod.fst)

theorem namexLoop_split (sb : Layout) {fuel : Nat} (w : World Nat) (ip : Nat) {path : List Byte}
    (enough : path.length < fuel) (some : skipelem path ≠ none) :
    (namexLoop sb false fuel w ip path).map (Prod.map id (Option.map Prod.fst)) =
      namexLoop sb true fuel w ip path >>= lookupLast sb := by
  induction fuel generalizing w ip path with
  | zero => omega
  | succ fuel ih =>
    obtain ⟨⟨name, rest⟩, element⟩ := Option.ne_none_iff_exists'.mp some
    obtain ⟨shorter, more⟩ := skipelem_rest element
    rw [namexLoop, namexLoop, element]
    simp only [Bool.false_eq_true, false_and, if_false, true_and]
    split_ifs with typeless other last
    · rfl
    · rfl
    · subst last
      obtain ⟨fuel, rfl⟩ : ∃ k, fuel = k + 1 := ⟨fuel - 1, by omega⟩
      show _ = (dirlookup sb (w.file ip) name >>= fun _ => _)
      cases dirlookup sb (w.file ip) name with
      | error message => rfl
      | ok result =>
        obtain ⟨dp, _ | _⟩ := result <;> rfl
    · cases dirlookup sb (w.file ip) name with
      | error message => rfl
      | ok result =>
        obtain ⟨dp, _ | ⟨inum, off⟩⟩ := result
        · rfl
        · exact ih (w.put ip dp) inum (by omega) fun none => last (more none)

/-- namei finds what the directory of nameiparent has under the name that nameiparent leaves. A path without a name stands
for the place where it starts. -/
theorem namei_eq_nameiparent (sb : Layout) (w : World Nat) (cwd : Nat) (path : List Byte) :
    namei sb w cwd path =
      if skipelem path = none then .ok (w, some (if path.head? = some slash then ROOTINO else cwd))
      else namex sb w cwd path true >>= lookupLast sb := by
  by_cases empty : skipelem path = none
  · rw [if_pos empty, namei, namex, namexLoop, empty]
    rfl
  · rw [if_neg empty, namei, namex, namex, ← namexLoop_split sb w _ (Nat.lt_succ_self _) empty]
    cases namexLoop sb false (path.length + 1) w (if path.head? = some slash then ROOTINO else cwd) path <;> rfl

end Paths

end Xv6.Fs.Directory
