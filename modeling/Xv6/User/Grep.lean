import Mathlib.Computability.Language

/-! user/grep.c: the matcher, and the loop that prints the matching lines. -/

namespace Xv6.User.Grep

open List

-- Strings are the characters before the terminator: *text is '\0' at the end of the list.
mutual

def matchhere : List Char → List Char → Bool
  | [], _ => true
  | [c], text =>
    if c = '$' then text.isEmpty
    else
      match text with
      | [] => false
      | t :: text => (c == '.' || c == t) && matchhere [] text
  | c :: d :: re, text =>
    if d = '*' then matchstar c re text
    else
      match text with
      | [] => false
      | t :: text => (c == '.' || c == t) && matchhere (d :: re) text
termination_by re text => (re.length, text.length)

def matchstar (c : Char) (re : List Char) : List Char → Bool
  | [] => matchhere re []
  | t :: text => matchhere re (t :: text) || ((t == c || c == '.') && matchstar c re text)
termination_by text => (re.length, text.length + 1)

end

def matchfrom (re : List Char) : List Char → Bool
  | [] => matchhere re []
  | t :: text => matchhere re (t :: text) || matchfrom re text

def matchRe (re text : List Char) : Bool :=
  match re with
  | '^' :: re => matchhere re text
  | re => matchfrom re text

section Meaning

/-- What a pattern is made of, the anchors apart. -/
inductive Item
  | one (x : Char)
  | star (x : Char)

def letter (x : Char) : Language Char := {w | ∃ c, (x = '.' ∨ x = c) ∧ w = [c]}

def Item.language : Item → Language Char
  | .one x => letter x
  | .star x => KStar.kstar (letter x)

/-- The items of a pattern without its ^, and whether a $ ends it. -/
def read : List Char → List Item × Bool
  | [] => ([], false)
  | [x] => if x = '$' then ([], true) else ([.one x], false)
  | x :: y :: re =>
    if y = '*' then (.star x :: (read re).1, (read re).2)
    else (.one x :: (read (y :: re)).1, (read (y :: re)).2)

/-- The text begins with a word of the language, and is at its end after it if that is asked. -/
def Leads (language : Language Char) (final : Bool) (text : List Char) : Prop :=
  ∃ word rest, text = word ++ rest ∧ word ∈ language ∧ (final = true → rest = [])

def Begins (pattern : List Item × Bool) : List Char → Prop := Leads (pattern.1.map Item.language).prod pattern.2

/-- Some part of the text is a word of the items; the part begins where the text does if a ^ is there. -/
def Matches (re text : List Char) : Prop :=
  match re with
  | '^' :: re => Begins (read re) text
  | re => ∃ before part, text = before ++ part ∧ Begins (read re) part

variable {x : Char} {language : Language Char} {final : Bool} {text : List Char}

theorem leads_one : Leads 1 final text ↔ (final = true → text = []) := by
  constructor
  · rintro ⟨word, rest, rfl, rfl, last⟩ ends
    rw [last ends]
    rfl
  · exact fun last => ⟨[], text, rfl, rfl, last⟩

theorem leads_letter : Leads (letter x * language) final text ↔
    ∃ t rest, text = t :: rest ∧ (x = '.' ∨ x = t) ∧ Leads language final rest := by
  constructor
  · rintro ⟨word, rest, rfl, member, last⟩
    obtain ⟨_, ⟨c, fits, rfl⟩, more, inside, rfl⟩ := Language.mem_mul.mp member
    exact ⟨c, more ++ rest, rfl, fits, more, rest, rfl, inside, last⟩
  · rintro ⟨t, _, rfl, fits, word, rest, rfl, member, last⟩
    exact ⟨t :: word, rest, rfl, Language.mem_mul.mpr ⟨[t], ⟨t, fits, rfl⟩, word, member, rfl⟩, last⟩

theorem leads_star : Leads (KStar.kstar (letter x) * language) final text ↔ Leads language final text ∨
    ∃ t rest, text = t :: rest ∧ (x = '.' ∨ x = t) ∧ Leads (KStar.kstar (letter x) * language) final rest := by
  have unfolds : KStar.kstar (letter x) * language = language + letter x * (KStar.kstar (letter x) * language) := by
    nth_rewrite 1 [← Language.one_add_self_mul_kstar_eq_kstar (letter x)]
    rw [add_mul, one_mul, mul_assoc]
  rw [← leads_letter]
  nth_rewrite 1 [unfolds]
  constructor
  · rintro ⟨word, rest, split, skip | take, last⟩
    · exact .inl ⟨word, rest, split, skip, last⟩
    · exact .inr ⟨word, rest, split, take, last⟩
  · rintro (⟨word, rest, split, skip, last⟩ | ⟨word, rest, split, take, last⟩)
    · exact ⟨word, rest, split, .inl skip, last⟩
    · exact ⟨word, rest, split, .inr take, last⟩

theorem matchstar_iff {c : Char} {re : List Char} (here : ∀ text, matchhere re text = true ↔ Leads language final text)
    (text : List Char) : matchstar c re text = true ↔ Leads (KStar.kstar (letter c) * language) final text := by
  induction text with
  | nil => rw [matchstar, leads_star, here]; simp
  | cons t text ih =>
    rw [matchstar, leads_star, Bool.or_eq_true, here, Bool.and_eq_true, ih]
    simp [or_comm, @eq_comm _ t c]

theorem matchone_iff {c : Char} {re : List Char} {f : List Char → Bool} (ends : f [] = false)
    (step : ∀ t text, f (t :: text) = ((c == '.' || c == t) && matchhere re text))
    (here : ∀ text, matchhere re text = true ↔ Leads language final text) (text : List Char) :
    f text = true ↔ Leads (letter c * language) final text := by
  rw [leads_letter]
  cases text with
  | nil => simp [ends]
  | cons t text => simp [step, here]

theorem matchhere_iff (re text : List Char) : matchhere re text = true ↔ Begins (read re) text := by
  induction re using read.induct generalizing text with
  | case1 => simp [matchhere, read, Begins, leads_one]
  | case2 => cases text <;> simp [matchhere, read, Begins, leads_one]
  | case3 x other =>
    rw [read, if_neg other, Begins, map_cons, prod_cons]
    refine @matchone_iff _ _ x [] _ (by simp [matchhere, other]) (fun t text => by simp [matchhere, other]) (fun text => ?_) text
    simp [matchhere, leads_one]
  | case4 x re ih =>
    have loops : matchhere (x :: '*' :: re) text = matchstar x re text := by cases text <;> rw [matchhere, if_pos rfl]
    rw [loops, read, if_pos rfl, Begins, map_cons, prod_cons]
    exact matchstar_iff ih text
  | case5 x y re other ih =>
    rw [read, if_neg other, Begins, map_cons, prod_cons]
    exact matchone_iff (by rw [matchhere, if_neg other]) (fun t text => by rw [matchhere, if_neg other]) ih text

theorem matchfrom_iff (re text : List Char) :
    matchfrom re text = true ↔ ∃ before part, text = before ++ part ∧ Begins (read re) part := by
  induction text with
  | nil => simp [matchfrom, matchhere_iff]
  | cons t text ih =>
    rw [matchfrom, Bool.or_eq_true, matchhere_iff, ih]
    constructor
    · rintro (here | ⟨before, part, rfl, later⟩)
      · exact ⟨[], t :: text, rfl, here⟩
      · exact ⟨t :: before, part, rfl, later⟩
    · rintro ⟨_ | ⟨_, before⟩, part, split, found⟩
      · exact .inl (split ▸ found)
      · exact .inr ⟨before, part, (List.cons.inj split).2, found⟩

/-- The matcher, which ends for every pattern and text, finds what the pattern means. -/
theorem match_finds_meaning (re text : List Char) : matchRe re text = true ↔ Matches re text := by
  unfold matchRe Matches
  split
  · exact matchhere_iff _ text
  · exact matchfrom_iff re text

end Meaning

def BUFSIZE : Nat := 1024

def strchr (c : Char) : List Char → Option (List Char × List Char)
  | [] => none
  | x :: text =>
    if x = '\x00' then none
    else if x = c then some ([], text)
    else (strchr c text).map fun (line, rest) => (x :: line, rest)

theorem strchr_some {c : Char} {text line rest : List Char} (found : strchr c text = some (line, rest)) :
    text = line ++ c :: rest ∧ c ∉ line := by
  fun_induction strchr c text generalizing line with
  | case1 | case2 => cases found
  | case3 text nonzero =>
    cases found
    exact ⟨rfl, not_mem_nil⟩
  | case4 x text nonzero other ih =>
    obtain ⟨⟨line, rest⟩, later, same⟩ := Option.map_eq_some_iff.mp found
    cases same
    obtain ⟨rfl, absent⟩ := ih later
    exact ⟨rfl, not_mem_cons_of_ne_of_not_mem (Ne.symm other) absent⟩

theorem strchr_none {c : Char} {text : List Char} (line : '\x00' ∉ text) (none : strchr c text = none) : c ∉ text := by
  fun_induction strchr c text with
  | case1 => exact not_mem_nil
  | case2 => exact absurd mem_cons_self line
  | case3 => cases none
  | case4 x text nonzero other ih =>
    rw [mem_cons, not_or] at line
    exact not_mem_cons_of_ne_of_not_mem (Ne.symm other) (ih line.2 (Option.map_eq_none_iff.mp none))

/-- The inner loop: what it writes for the lines of the buffer, and what it leaves. -/
def grepLines (re text : List Char) : List (List Char) × List Char :=
  match _found : strchr '\n' text with
  | none => ([], text)
  | some (line, rest) =>
    let (out, left) := grepLines re rest
    (if matchRe re line then (line ++ ['\n']) :: out else out, left)
termination_by text.length
decreasing_by
  rw [(strchr_some _found).1, length_append, length_cons]
  omega

/-- The bytes that read gives: none for no space or at the end, else as many as it chooses. -/
def readSize (choice space rest : Nat) : Nat := if min space rest = 0 then 0 else 1 + choice % min space rest

theorem readSize_le (choice space rest : Nat) : readSize choice space rest ≤ min space rest := by
  unfold readSize
  split
  next none => rw [none]
  next some =>
    have := Nat.mod_lt choice (Nat.pos_of_ne_zero some)
    omega

/-- The outer loop, with the unfinished line at the start of the buffer and the rest of the file. -/
def grepLoop (re : List Char) (choice : Nat → Nat) (k : Nat) (held rest : List Char) : List (List Char) :=
  let n := readSize (choice k) (BUFSIZE - held.length - 1) rest.length
  if 0 < n then
    let (out, left) := grepLines re (held ++ rest.take n)
    out ++ grepLoop re choice (k + 1) left (rest.drop n)
  else []
termination_by rest.length
decreasing_by
  have := readSize_le (choice k) (BUFSIZE - held.length - 1) rest.length
  rw [length_drop]
  omega

def grep (re : List Char) (choice : Nat → Nat) (content : List Char) : List (List Char) := grepLoop re choice 0 [] content

section Lines

def terminated (content : List Char) : List (List Char) := (content.splitOn '\n').dropLast

def printed (re : List Char) (lines : List (List Char)) : List (List Char) :=
  (lines.filter (matchRe re)).map (· ++ ['\n'])

def fits (line : List Char) : Bool := line.length + 1 < BUFSIZE

variable {re text line rest : List Char}

theorem terminated_open (absent : '\n' ∉ line) : terminated line = [] := by
  rw [terminated, splitOn_eq_singleton absent]
  rfl

theorem terminated_line (absent : '\n' ∉ line) : terminated (line ++ '\n' :: rest) = line :: terminated rest := by
  rw [terminated, splitOn_append_cons_self_of_not_mem absent, dropLast_cons_of_ne_nil (splitOn_ne_nil _ _)]
  rfl

theorem grepLines_spec (line : '\x00' ∉ text) : ∃ lines left, grepLines re text = (printed re lines, left) ∧ '\n' ∉ left ∧
    '\x00' ∉ left ∧ left.length ≤ text.length ∧ (∀ l ∈ lines, l.length < text.length) ∧
    ∀ more, terminated (text ++ more) = lines ++ terminated (left ++ more) := by
  fun_induction grepLines re text with
  | case1 text none => exact ⟨[], text, rfl, strchr_none line none, line, le_rfl, nofun, fun _ => rfl⟩
  | case2 text first rest found out left after ih =>
    obtain ⟨rfl, absent⟩ := strchr_some found
    simp only [mem_append, mem_cons, not_or] at line
    obtain ⟨lines, left', result, noLine, noNul, short, each, split⟩ := ih line.2.2
    obtain ⟨rfl, rfl⟩ := Prod.mk.inj (after.symm.trans result)
    simp only [length_append, length_cons]
    refine ⟨first :: lines, left, ?_, noLine, noNul, by omega, ?_, fun more => ?_⟩
    · simp only [printed, filter_cons]
      split <;> rfl
    · intro l member
      rcases mem_cons.mp member with rfl | later
      · omega
      · have := each l later
        omega
    · rw [append_assoc, cons_append, terminated_line absent, split more, cons_append]

/-- A line with no newline in the space of the buffer ends the loop. -/
theorem grepLoop_prints (choice : Nat → Nat) (k : Nat) (held rest : List Char) (part : '\n' ∉ held)
    (room : held.length < BUFSIZE) (line : '\x00' ∉ held ++ rest) :
    grepLoop re choice k held rest = printed re ((terminated (held ++ rest)).takeWhile fits) := by
  fun_induction grepLoop re choice k held rest with
  | case1 k held rest n some out left after ih =>
    have size : n ≤ min (BUFSIZE - held.length - 1) rest.length := readSize_le _ _ _
    have whole : held ++ rest = (held ++ rest.take n) ++ rest.drop n := by rw [append_assoc, take_append_drop]
    rw [whole, mem_append, not_or] at line
    have short : (held ++ rest.take n).length < BUFSIZE := by
      rw [length_append, length_take]
      omega
    obtain ⟨lines, left', result, noLine, noNul, less, each, split⟩ := @grepLines_spec re _ line.1
    obtain ⟨rfl, rfl⟩ := Prod.mk.inj (after.symm.trans result)
    have all : ∀ l ∈ lines, fits l = true := fun l member => decide_eq_true (by have := each l member; omega)
    rw [ih noLine (lt_of_le_of_lt less short) (by simpa [noNul] using line.2), whole, split, takeWhile_append_of_pos all]
    simp [printed]
  | case2 k held rest n none =>
    have stop : min (BUFSIZE - held.length - 1) rest.length = 0 := by
      by_contra some
      exact none (by simp only [n, readSize, if_neg some]; omega)
    rcases Nat.min_eq_zero_iff.mp stop with full | last
    · by_cases ends : '\n' ∈ rest
      · obtain ⟨more, after, rfl, absent⟩ := eq_append_cons_of_mem ends
        have long : fits (held ++ more) = false := decide_eq_false (by rw [length_append]; omega)
        rw [← append_assoc, terminated_line (by simp [part, absent]), takeWhile_cons, long]
        rfl
      · rw [terminated_open (by simp [part, ends])]
        rfl
    · rw [length_eq_zero_iff.mp last, append_nil, terminated_open part]
      rfl

/-- grep prints the matching lines if none is at or after a line that does not fit the buffer. -/
theorem grep_prints_matching_lines (re content : List Char) (choice : Nat → Nat) (line : '\x00' ∉ content) :
    grep re choice content = printed re (terminated content) ↔
      ∀ l ∈ (terminated content).dropWhile fits, matchRe re l = false := by
  have prints := @grepLoop_prints re choice 0 [] content not_mem_nil (by decide) line
  have whole : printed re (terminated content) = printed re ((terminated content).takeWhile fits) ++
      printed re ((terminated content).dropWhile fits) := by
    rw [printed, printed, printed, ← map_append, ← filter_append, takeWhile_append_dropWhile]
  rw [grep, prints, nil_append, whole, self_eq_append_right, printed, map_eq_nil_iff, filter_eq_nil_iff]
  simp only [Bool.not_eq_true]

def fourLines : List Char := "ab\ncb\nb\nba\nab".toList

/-- The pattern ^.b$ matches the first two of the four terminated lines. -/
theorem grep_prints_matching_lines_some : '\x00' ∉ fourLines ∧
    grep ['^', '.', 'b', '$'] (fun _ => 0) fourLines = [['a', 'b', '\n'], ['c', 'b', '\n']] := by
  have line : '\x00' ∉ fourLines := by decide +kernel
  have lines : terminated fourLines = [['a', 'b'], ['c', 'b'], ['b'], ['b', 'a']] := by decide +kernel
  have short : (terminated fourLines).dropWhile fits = [] := by decide +kernel
  have prints := (grep_prints_matching_lines ['^', '.', 'b', '$'] fourLines (fun _ => 0) line).mpr (short ▸ nofun)
  exact ⟨line, prints.trans (by simp [lines, printed, matchRe, matchhere])⟩

theorem grep_long (choice : Nat → Nat) (absent : '\n' ∉ line) (long : fits line = false)
    (noNul : '\x00' ∉ line ++ '\n' :: rest) : grep re choice (line ++ '\n' :: rest) = [] := by
  rw [grep, grepLoop_prints choice 0 [] (line ++ '\n' :: rest) not_mem_nil (by decide) noNul,
    nil_append, terminated_line absent, takeWhile_cons, long]
  rfl

/-- The line b after a line of 1023 characters is not printed. -/
theorem grep_stops_at_long_line : matchRe ['b'] ['b'] = true ∧
    ['b'] ∈ terminated (List.replicate 1023 'a' ++ '\n' :: ['b', '\n']) ∧
    ∀ choice, grep ['b'] choice (List.replicate 1023 'a' ++ '\n' :: ['b', '\n']) = [] := by
  have only : ∀ c ∈ List.replicate 1023 'a', c = 'a' := fun c => eq_of_mem_replicate
  have absent : '\n' ∉ List.replicate 1023 'a' := fun member => absurd (only _ member) (by decide)
  refine ⟨by simp [matchRe, matchfrom, matchhere], ?_, fun choice => grep_long choice absent ?_ fun member => ?_⟩
  · rw [terminated_line absent]
    exact mem_cons_of_mem _ (by decide)
  · rw [fits, length_replicate]
    decide
  · rcases mem_append.mp member with first | last
    · exact absurd (only _ first) (by decide)
    · exact absurd last (by decide)

end Lines

end Xv6.User.Grep
