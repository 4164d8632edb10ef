import Xv6.User.Grammar

/-! The shell's parser over the characters of a line accepts the lines of its grammar, with their trees. -/

namespace Xv6.User.Parser

open Lib.Parsing Sh Grammar List

section Simulation
variable {σ τ α β : Type} (R : σ → τ → Prop) (W : α → β → Prop)

/-- Trees of one shape with related strings. -/
inductive CmdRel : Cmd α → Cmd β → Prop
  | exec {argv argv'} (words : List.Forall₂ W argv argv') : CmdRel (.exec argv) (.exec argv')
  | redir {c c' file file'} (mode fd : Nat) (cmd : CmdRel c c') (word : W file file') :
      CmdRel (.redir c file mode fd) (.redir c' file' mode fd)
  | pipe {l l' r r'} (left : CmdRel l l') (right : CmdRel r r') : CmdRel (.pipe l r) (.pipe l' r')
  | list {l l' r r'} (left : CmdRel l l') (right : CmdRel r r') : CmdRel (.list l r) (.list l' r')
  | back {c c'} (cmd : CmdRel c c') : CmdRel (.back c) (.back c')

/-- The same kind of token, with related strings where it is a word. -/
def TokenRel (t : Char × α) (t' : Char × β) : Prop := t.1 = t'.1 ∧ (t.1 = 'a' → W t.2 t'.2)

/-- Two scanners that see the same tokens. -/
structure Scans (scan : Scanner σ α) (scan' : Scanner τ β) : Prop where
  peek : ∀ toks ⊆ symbols, Sim R Eq (peeks scan toks) (peeks scan' toks)
  token : Sim R (TokenRel W) (token scan) (token scan')

variable {R W} {scan : Scanner σ α} {scan' : Scanner τ β} {c : Cmd α} {c' : Cmd β}

theorem Scans.ite {γ δ : Type} {V : γ → δ → Prop} (scans : Scans R W scan scan') {toks : List Char} (among : toks ⊆ symbols)
    {x y : Parse σ γ} {x' y' : Parse τ δ} (yes : Sim R V x x') (no : Sim R V y y') :
    Sim R V (do if ← peeks scan toks then x else y) (do if ← peeks scan' toks then x' else y') := by
  refine Sim.bind (scans.peek toks among) fun found found' same => ?_
  subst same
  cases found
  · exact no
  · exact yes

theorem CmdRel.redirect (tok : Char) {file : α} {file' : β} (trees : CmdRel W c c') (word : W file file') :
    CmdRel W (redirect tok c file) (redirect tok c' file') := by
  unfold Sh.redirect
  split_ifs
  · exact .redir _ _ trees word
  · exact .redir _ _ trees word
  · exact .redir _ _ trees word
  · exact trees

theorem CmdRel.addArg {word : α} {word' : β} (trees : CmdRel W c c') (words : W word word') :
    CmdRel W (addArg c word) (addArg c' word') := by
  induction trees with
  | exec argv => exact .exec (rel_append argv (.cons words .nil))
  | redir mode fd _ file ih => exact .redir mode fd ih file
  | pipe left right => exact .pipe left right
  | list left right => exact .list left right
  | back cmd => exact .back cmd

section
variable (scans : Scans R W scan scan')
include scans

theorem Scans.parseredirs (fuel : Nat) (trees : CmdRel W c c') :
    Sim R (CmdRel W) (parseredirs scan fuel c) (parseredirs scan' fuel c') := by
  induction fuel generalizing c c' with
  | zero => exact Sim.stuck
  | succ fuel ih =>
    refine scans.ite (by decide) ?_ (Sim.pure trees)
    refine Sim.bind scans.token fun tok tok' same => Sim.bind scans.token fun file file' word => ?_
    obtain ⟨kind, text⟩ := word
    dsimp only
    rw [← same.1, ← kind]
    split_ifs with missing
    · exact Sim.fail _
    · exact ih (trees.redirect tok.1 (text (not_not.mp missing)))

theorem Scans.parseargs (fuel argc : Nat) (trees : CmdRel W c c') :
    Sim R (CmdRel W) (parseargs scan fuel argc c) (parseargs scan' fuel argc c') := by
  induction fuel generalizing argc c c' with
  | zero => exact Sim.stuck
  | succ fuel ih =>
    refine scans.ite (by decide) (Sim.pure trees) ?_
    refine Sim.bind scans.token fun tok tok' same => ?_
    obtain ⟨kind, text⟩ := same
    dsimp only
    rw [← kind]
    split_ifs with last other many
    · exact Sim.pure trees
    · exact Sim.fail _
    · exact Sim.fail _
    · exact Sim.bind (scans.parseredirs fuel (trees.addArg (text (not_not.mp other)))) fun _ _ next => ih (argc + 1) next

theorem Scans.parsebacks (fuel : Nat) (trees : CmdRel W c c') :
    Sim R (CmdRel W) (parsebacks scan fuel c) (parsebacks scan' fuel c') := by
  induction fuel generalizing c c' with
  | zero => exact Sim.stuck
  | succ fuel ih =>
    exact scans.ite (by decide) (Sim.bind scans.token fun _ _ _ => ih (.back trees)) (Sim.pure trees)

theorem Scans.parts (fuel : Nat) : Sim R (CmdRel W) (parseline scan fuel) (parseline scan' fuel) ∧
    Sim R (CmdRel W) (parsepipe scan fuel) (parsepipe scan' fuel) ∧
    Sim R (CmdRel W) (parseexec scan fuel) (parseexec scan' fuel) ∧
    Sim R (CmdRel W) (parseblock scan fuel) (parseblock scan' fuel) := by
  induction fuel with
  | zero => exact ⟨Sim.stuck, Sim.stuck, Sim.stuck, Sim.stuck⟩
  | succ fuel ih =>
    obtain ⟨line, pipe, exec, block⟩ := ih
    refine ⟨?_, ?_, ?_, ?_⟩
    · refine Sim.bind pipe fun c c' trees => Sim.bind (scans.parsebacks fuel trees) fun b b' backs => ?_
      refine scans.ite (by decide) (Sim.bind scans.token fun _ _ _ => ?_) (Sim.pure backs)
      exact Sim.bind line fun _ _ right => Sim.pure (.list backs right)
    · refine Sim.bind exec fun c c' trees => ?_
      refine scans.ite (by decide) (Sim.bind scans.token fun _ _ _ => ?_) (Sim.pure trees)
      exact Sim.bind pipe fun _ _ right => Sim.pure (.pipe trees right)
    · refine scans.ite (by decide) block ?_
      exact Sim.bind (scans.parseredirs fuel (.exec .nil)) fun _ _ trees => scans.parseargs fuel 0 trees
    · refine scans.ite (by decide) (Sim.bind scans.token fun _ _ _ => ?_) (Sim.fail _)
      refine Sim.bind line fun _ _ trees => scans.ite (by decide) ?_ (Sim.fail _)
      exact Sim.bind scans.token fun _ _ _ => scans.parseredirs fuel trees

end

end Simulation

def wordChar (c : Char) : Bool := !strchr whitespace c && !strchr symbols c

/-- The tokens of a line: symbols, and words as long as they go. -/
def tokens : List Char → List Tok
  | [] => []
  | c :: text =>
    if strchr whitespace c then tokens text
    else if c = '|' then .bar :: tokens text
    else if c = '(' then .open :: tokens text
    else if c = ')' then .close :: tokens text
    else if c = ';' then .semi :: tokens text
    else if c = '&' then .amp :: tokens text
    else if c = '<' then .redir .less :: tokens text
    else if c = '>' then
      if text.head? = some '>' then .redir .append :: tokens text.tail else .redir .greater :: tokens text
    else .word (c :: text.takeWhile wordChar) :: tokens (text.dropWhile wordChar)
termination_by text => text.length
decreasing_by
  all_goals simp only [length_cons, length_tail]
  all_goals first | omega | exact Nat.lt_succ_of_le (length_dropWhile_le _ _)

section Text
variable {text : List Char} {s : Nat} {p : Char → Bool}

theorem charAt_eq : charAt text s = (text.drop s).headD '\x00' := by
  rw [charAt, getD_eq_getElem?_getD, headD_eq_head?_getD, List.head?_drop]

variable (p : Char → Bool)

theorem skipWhile_spec (text : List Char) (s : Nat) :
    text.drop (skipWhile p text s) = (text.drop s).dropWhile p ∧
      skipWhile p text s = s + ((text.drop s).takeWhile p).length := by
  fun_induction skipWhile p text s with
  | case1 s goes ih =>
    obtain ⟨inside, passes⟩ := goes
    rw [charAt_eq, drop_eq_getElem_cons inside, headD_cons] at passes
    rw [drop_eq_getElem_cons inside, dropWhile_cons_of_pos passes, takeWhile_cons_of_pos passes,
      length_cons]
    exact ⟨ih.1, by omega⟩
  | case2 s stops =>
    by_cases inside : s < text.length
    · have fails : ¬p text[s] = true := fun passes => stops ⟨inside, by
        rw [charAt_eq, drop_eq_getElem_cons inside, headD_cons]
        exact passes⟩
      rw [drop_eq_getElem_cons inside, dropWhile_cons_of_neg fails, takeWhile_cons_of_neg fails]
      exact ⟨rfl, rfl⟩
    · rw [drop_eq_nil_of_le (not_lt.mp inside)]
      exact ⟨rfl, rfl⟩

theorem tokens_skip (l : List Char) : tokens (l.dropWhile (strchr whitespace)) = tokens l := by
  induction l with
  | nil => rfl
  | cons c l ih =>
    by_cases blank : strchr whitespace c = true
    · rw [dropWhile_cons_of_pos blank, ih, tokens, if_pos blank]
    · rw [dropWhile_cons_of_neg blank]

/-- The string between two pointers is the word w, and no longer. -/
structure Located (text : List Char) (p : Nat × Nat) (w : List Char) : Prop where
  length : p.2 = p.1 + w.length
  within : p.2 ≤ text.length
  read : text.drop p.1 = w ++ text.drop p.2
  chars : ∀ c ∈ w, wordChar c = true
  maximal : ∀ c ∈ (text.drop p.2).head?, wordChar c = false

theorem head_dropWhile (l : List Char) : ∀ c ∈ (l.dropWhile p).head?, p c = false := by
  induction l with
  | nil => nofun
  | cons a l ih =>
    by_cases passes : p a = true
    · rwa [dropWhile_cons_of_pos passes]
    · rw [dropWhile_cons_of_neg passes]
      rintro c ⟨⟩
      exact Bool.eq_false_iff.mpr passes

variable {m : List Char} {c : Char}

theorem drop_succ (here : text.drop s = c :: m) : text.drop (s + 1) = m := by
  rw [← tail_drop, here, tail_cons]

theorem located_word (here : text.drop s = c :: m) (char : wordChar c = true) :
    Located text (s, skipWhile wordChar text s) (c :: m.takeWhile wordChar) ∧
      text.drop (skipWhile wordChar text s) = m.dropWhile wordChar := by
  obtain ⟨rest, length⟩ := skipWhile_spec wordChar text s
  rw [here, dropWhile_cons_of_pos char] at rest
  rw [here, takeWhile_cons_of_pos char] at length
  have split : c :: m = (c :: m.takeWhile wordChar) ++ m.dropWhile wordChar := by
    rw [cons_append, takeWhile_append_dropWhile]
  refine ⟨⟨length, ?_, ?_, ?_, ?_⟩, rest⟩
  · have total : (text.drop s).length = text.length - s := length_drop
    have shorter : (c :: m.takeWhile wordChar).length ≤ (c :: m).length := by
      rw [split, length_append]
      exact Nat.le_add_right _ _
    rw [here] at total
    have : 0 < (c :: m).length := Nat.succ_pos _
    dsimp only
    omega
  · dsimp only
    rw [here, rest]
    exact split
  · intro x member
    rcases mem_cons.mp member with rfl | later
    · exact char
    · exact mem_takeWhile_imp later
  · dsimp only
    rw [rest]
    exact head_dropWhile wordChar m

theorem tokenAt_spec (here : text.drop s = c :: m) (solid : strchr whitespace c = false)
    (nonzero : c ≠ '\x00') : ∃ t rest, tokens (c :: m) = t :: rest ∧ (tokenAt text s).1 = t.code ∧
      tokens (text.drop (tokenAt text s).2) = rest ∧ (t.code = 'a' → Located text (s, (tokenAt text s).2) t.text) ∧
      ∀ toks ⊆ symbols, toks.contains t.lead = toks.contains c := by
  have first : charAt text s = c := by rw [charAt_eq, here, headD_cons]
  have next : text.drop (s + 1) = m := drop_succ here
  by_cases single : c = '|' ∨ c = '(' ∨ c = ')' ∨ c = ';' ∨ c = '&' ∨ c = '<'
  · have reads : tokenAt text s = (c, s + 1) := by simp only [tokenAt, first, if_neg nonzero, if_pos single]
    rw [reads, next, tokens]
    rcases single with rfl | rfl | rfl | rfl | rfl | rfl
    · exact ⟨.bar, tokens m, rfl, rfl, rfl, nofun, fun _ _ => rfl⟩
    · exact ⟨.open, tokens m, rfl, rfl, rfl, nofun, fun _ _ => rfl⟩
    · exact ⟨.close, tokens m, rfl, rfl, rfl, nofun, fun _ _ => rfl⟩
    · exact ⟨.semi, tokens m, rfl, rfl, rfl, nofun, fun _ _ => rfl⟩
    · exact ⟨.amp, tokens m, rfl, rfl, rfl, nofun, fun _ _ => rfl⟩
    · exact ⟨.redir .less, tokens m, rfl, rfl, rfl, nofun, fun _ _ => rfl⟩
  by_cases greater : c = '>'
  · subst greater
    have second : charAt text (s + 1) = m.headD '\x00' := by rw [charAt_eq, next]
    have reads : tokenAt text s = if m.headD '\x00' = '>' then ('+', s + 2) else ('>', s + 1) := by
      simp only [tokenAt, first, if_neg nonzero, if_neg single, second, if_true]
    rw [reads, tokens]
    cases m with
    | nil => exact ⟨.redir .greater, tokens [], rfl, rfl, congrArg tokens next, nofun, fun _ _ => rfl⟩
    | cons d m =>
      by_cases twice : d = '>'
      · subst twice
        exact ⟨.redir .append, tokens m, rfl, rfl, congrArg tokens (drop_succ next), nofun, fun _ _ => rfl⟩
      · have other : (d :: m).head? ≠ some '>' := fun same => twice (Option.some.inj same)
        rw [headD_cons, if_neg twice]
        refine ⟨.redir .greater, tokens (d :: m), ?_, rfl, congrArg tokens next, nofun, fun _ _ => rfl⟩
        simp only [if_neg other]
        rfl
  · have outside : c ∉ symbols := by
      simp only [not_or] at single
      simp [symbols, single, greater]
    have char : wordChar c = true := by
      rw [wordChar, solid]
      simpa [strchr] using outside
    have reads : tokenAt text s = ('a', skipWhile wordChar text s) := by
      simp only [tokenAt, first, if_neg nonzero, if_neg single, if_neg greater]
      rfl
    obtain ⟨located, rest⟩ := located_word here char
    rw [reads]
    refine ⟨.word (c :: m.takeWhile wordChar), _, ?_, rfl, congrArg tokens rest, fun _ => located, fun toks among => ?_⟩
    · simp only [not_or] at single
      rw [tokens, if_neg (Bool.eq_false_iff.mp solid)]
      simp only [single, greater, if_false]
    · have letter : 'a' ∉ toks := fun member => absurd (among member) (by decide)
      have this : c ∉ toks := fun member => outside (among member)
      simp only [Tok.lead, contains_eq_mem, letter, this]

/-- A pointer into the line, before the given tokens. -/
def Before (text : List Char) (s : Nat) (ts : List Tok) : Prop := tokens (text.drop s) = ts ∧ s ≤ text.length

theorem skipWhile_le (within : s ≤ text.length) : skipWhile p text s ≤ text.length := by
  rw [(skipWhile_spec p text s).2]
  have shorter := (takeWhile_sublist p (l := text.drop s)).length_le
  rw [length_drop] at shorter
  omega

theorem tokenAt_le (within : s ≤ text.length) : (tokenAt text s).2 ≤ text.length := by
  have nonzero : ∀ s, charAt text s ≠ '\x00' → s < text.length := by
    intro s nonzero
    by_contra outside
    rw [charAt_eq, drop_eq_nil_of_le (not_lt.mp outside)] at nonzero
    exact nonzero rfl
  simp only [tokenAt]
  split_ifs with last single greater twice
  · exact within
  · exact nonzero s last
  · exact nonzero (s + 1) (twice ▸ by decide)
  · exact nonzero s last
  · exact skipWhile_le _ within

theorem scans (line : '\x00' ∉ text) : Scans (Before text) (Located text) (scanner text) tokenScanner := by
  -- what both functions see after the white space
  have skipped : ∀ s, text.drop (skipWhile (strchr whitespace) text s) = (text.drop s).dropWhile (strchr whitespace) :=
    fun s => (skipWhile_spec _ text s).1
  have begins : ∀ s c m, (text.drop s).dropWhile (strchr whitespace) = c :: m →
      strchr whitespace c = false ∧ c ≠ '\x00' := by
    intro s c m here
    refine ⟨head_dropWhile _ (text.drop s) c (by rw [here]; rfl), fun zero => line ?_⟩
    have member : c ∈ (text.drop s).dropWhile (strchr whitespace) := here ▸ mem_cons_self
    exact zero ▸ mem_of_mem_drop (dropWhile_sublist _ |>.subset member)
  constructor
  · rintro toks among s ts ⟨rfl, within⟩
    have after : tokens (text.drop (skipWhile (strchr whitespace) text s)) = tokens (text.drop s) := by
      rw [skipped, tokens_skip]
    refine ⟨?_, after, skipWhile_le _ within⟩
    show (charAt text _ != '\x00' && toks.contains (charAt text _)) = ((tokens (text.drop s)).head?.any _)
    rw [charAt_eq, skipped, ← tokens_skip (text.drop s)]
    cases here : (text.drop s).dropWhile (strchr whitespace) with
    | nil => rw [tokens]; rfl
    | cons c m =>
      obtain ⟨solid, nonzero⟩ := begins s c m here
      obtain ⟨t, rest, first, -, -, -, lead⟩ := tokenAt_spec ((skipped s).trans here) solid nonzero
      rw [first, headD_cons, List.head?_cons, Option.any_some, lead toks among]
      simp [nonzero]
  · rintro s ts ⟨rfl, within⟩
    have bound := skipWhile_le (strchr whitespace) (tokenAt_le (skipWhile_le (strchr whitespace) within))
    show TokenRel (Located text) (gettoken text s).1 (tokenScanner.gettoken (tokens (text.drop s))).1 ∧
      Before text (gettoken text s).2 (tokenScanner.gettoken (tokens (text.drop s))).2
    simp only [gettoken, Before]
    rw [skipped, tokens_skip, ← tokens_skip (text.drop s)]
    cases here : (text.drop s).dropWhile (strchr whitespace) with
    | nil =>
      have last : charAt text (skipWhile (strchr whitespace) text s) = '\x00' := by
        rw [charAt_eq, skipped, here, headD_nil]
      simp only [tokenAt, last, if_true]
      rw [skipped, here, tokens]
      rw [tokenAt, last] at bound
      exact ⟨⟨rfl, nofun⟩, rfl, bound⟩
    | cons c m =>
      obtain ⟨solid, nonzero⟩ := begins s c m here
      obtain ⟨t, rest, first, code, after, word, -⟩ := tokenAt_spec ((skipped s).trans here) solid nonzero
      rw [first]
      exact ⟨⟨code, fun letter => word (code.symm.trans letter)⟩, after, bound⟩

/-- No word goes on from the character before s to the one there. -/
def Edge (text : List Char) (s : Nat) : Prop :=
  (0 < s → wordChar (charAt text (s - 1)) = false) ∨ ∀ c, text[s]? = some c → wordChar c = false

theorem edge_skip (edge : Edge text s) : Edge text (skipWhile (strchr whitespace) text s) := by
  fun_induction skipWhile (strchr whitespace) text s with
  | case1 s goes ih => exact ih (.inl fun _ => by rw [wordChar, Nat.add_sub_cancel, goes.2]; rfl)
  | case2 => exact edge

theorem stops_at (here : text[skipWhile p text s]? = some c) : p c = false := by
  rw [← List.head?_drop, (skipWhile_spec p text s).1] at here
  exact head_dropWhile p _ c here

theorem edge_token (edge : Edge text s) : Edge text (tokenAt text s).2 := by
  simp only [tokenAt]
  split_ifs with last single greater twice
  · exact edge
  · refine .inl fun _ => ?_
    rw [Nat.add_sub_cancel]
    rcases single with same | same | same | same | same | same <;> rw [same] <;> rfl
  · exact .inl fun _ => by rw [show s + 2 - 1 = s + 1 from rfl, twice]; rfl
  · exact .inl fun _ => by rw [Nat.add_sub_cancel, greater]; rfl
  · exact .inr fun c here => stops_at wordChar here

/-- The pointers are those of a word that goes on at neither end. -/
structure Maximal (text : List Char) (p : Nat × Nat) : Prop where
  nonempty : p.1 < p.2
  within : p.2 ≤ text.length
  chars : ∀ c ∈ (text.drop p.1).take (p.2 - p.1), wordChar c = true
  left : 0 < p.1 → wordChar (charAt text (p.1 - 1)) = false
  right : ∀ c, text[p.2]? = some c → wordChar c = false

theorem maximal_token (here : text.drop s = c :: m) (solid : strchr whitespace c = false)
    (edge : Edge text s) (word : (tokenAt text s).1 = 'a') : Maximal text (s, (tokenAt text s).2) := by
  have first : charAt text s = c := by rw [charAt_eq, here, headD_cons]
  have reads : (tokenAt text s).2 = skipWhile wordChar text s ∧ c ∉ symbols := by
    simp only [tokenAt, first] at word ⊢
    split_ifs at word ⊢ with last single greater twice
    · simp [last] at word
    · rcases single with rfl | rfl | rfl | rfl | rfl | rfl <;> simp at word
    · simp at word
    · simp [greater] at word
    · simp only [not_or] at single
      exact ⟨rfl, by simp [symbols, single, greater]⟩
  have char : wordChar c = true := by
    rw [wordChar, solid]
    simpa [strchr] using reads.2
  obtain ⟨located, -⟩ := located_word here char
  rw [reads.1]
  refine ⟨?_, located.within, fun x member => ?_, fun positive => ?_, fun x => stops_at wordChar⟩
  · rw [located.length]
    exact Nat.lt_add_of_pos_right (Nat.succ_pos _)
  · rw [located.length, Nat.add_sub_cancel_left, located.read, take_left] at member
    exact located.chars x member
  · refine edge.elim (fun left => left positive) fun right => ?_
    rw [right c (by rw [← List.head?_drop, here]; rfl)] at char
    cases char

theorem scans_maximal : Scans (fun s s' => s = s' ∧ Edge text s) (fun p p' => p = p' ∧ Maximal text p)
    (scanner text) (scanner text) := by
  constructor
  · rintro toks - s _ ⟨rfl, edge⟩
    exact ⟨rfl, rfl, edge_skip edge⟩
  · rintro s _ ⟨rfl, edge⟩
    refine ⟨⟨rfl, fun word => ⟨rfl, ?_⟩⟩, rfl, edge_skip (edge_token (edge_skip edge))⟩
    cases here : text.drop (skipWhile (strchr whitespace) text s) with
    | nil =>
      have last : charAt text (skipWhile (strchr whitespace) text s) = '\x00' := by rw [charAt_eq, here]; rfl
      have none : (gettoken text s).1.1 = '\x00' := by simp only [gettoken, tokenAt, last, if_true]
      exact absurd (none.symm.trans word) (by decide)
    | cons c m =>
      exact maximal_token here (stops_at _ (by rw [← List.head?_drop, here]; rfl)) (edge_skip edge) word

def words {α : Type} : Cmd α → List α
  | .exec argv => argv
  | .redir cmd file _ _ => words cmd ++ [file]
  | .pipe left right => words left ++ words right
  | .list left right => words left ++ words right
  | .back cmd => words cmd

/-- The second buffer is the first with a NUL at each of the given places. -/
def Cuts (ends : List Nat) (buffer buffer' : List Char) : Prop :=
  ∀ i, buffer'[i]? = if i ∈ ends then buffer[i]?.map fun _ => '\x00' else buffer[i]?

section Cuts
variable {ends more : List Nat} {buffer buffer' buffer'' : List Char}

theorem Cuts.none : Cuts [] buffer buffer := fun _ => (if_neg not_mem_nil).symm

theorem Cuts.append (first : Cuts ends buffer buffer') (second : Cuts more buffer' buffer'') :
    Cuts (ends ++ more) buffer buffer'' := by
  intro i
  rw [second i, first i]
  simp only [mem_append]
  by_cases early : i ∈ ends <;> by_cases late : i ∈ more <;> simp [early, late, Function.comp_def]

theorem Cuts.set (e : Nat) : Cuts [e] buffer (buffer.set e '\x00') := by
  intro i
  simp only [List.getElem?_set, mem_singleton]
  by_cases same : e = i
  · subst same
    by_cases inside : e < buffer.length
    · simp [inside]
    · simp [inside]
  · rw [if_neg same, if_neg fun equal => same equal.symm]

theorem Cuts.argv (argv : List (Nat × Nat)) :
    Cuts (argv.map Prod.snd) buffer (argv.foldl (fun buffer word => buffer.set word.2 '\x00') buffer) := by
  induction argv generalizing buffer with
  | nil => exact Cuts.none
  | cons word argv ih => exact (Cuts.set word.2).append ih

theorem Cuts.nulterminate (c : Cmd (Nat × Nat)) : Cuts ((words c).map Prod.snd) buffer (nulterminate c buffer) := by
  induction c generalizing buffer with
  | exec argv => exact Cuts.argv argv
  | redir cmd file mode fd ih =>
    rw [words, map_append]
    exact ih.append (Cuts.set file.2)
  | pipe left right ih ih' | list left right ih ih' =>
    rw [words, map_append]
    exact ih.append ih'
  | back cmd ih => exact ih

end Cuts

theorem takeWhile_eq {l w : List Char} (same : ∀ i < w.length, l[i]? = w[i]?) (stop : l[w.length]? = some '\x00')
    (nonzero : '\x00' ∉ w) : (l.takeWhile (· ≠ '\x00')) = w := by
  induction w generalizing l with
  | nil =>
    cases l with
    | nil => rfl
    | cons a l =>
      obtain rfl : a = '\x00' := Option.some.inj stop
      rfl
  | cons b w ih =>
    have first := same 0 (Nat.succ_pos _)
    cases l with
    | nil => cases first
    | cons a l =>
      obtain rfl : a = b := Option.some.inj first
      have other : a ≠ '\x00' := fun zero => nonzero (zero ▸ mem_cons_self)
      rw [takeWhile_cons_of_pos (by simpa using other)]
      rw [ih (fun i inside => same (i + 1) (Nat.succ_lt_succ inside)) stop fun zero => nonzero (mem_cons_of_mem _ zero)]

theorem cstring_located {c : Cmd (Nat × Nat)} {p : Nat × Nat} {w : List Char} (line : '\x00' ∉ text)
    (all : ∀ p ∈ words c, ∃ w, Located text p w) (member : p ∈ words c) (located : Located text p w) :
    cstring (nulterminate c (text ++ ['\x00'])) p.1 = w := by
  have cuts : Cuts ((words c).map Prod.snd) (text ++ ['\x00']) (nulterminate c (text ++ ['\x00'])) := Cuts.nulterminate c
  have chars : ∀ i < w.length, text[p.1 + i]? = w[i]? := by
    intro i inside
    rw [← List.getElem?_drop, located.read, List.getElem?_append_left inside]
  refine takeWhile_eq (fun i inside => ?_) ?_ fun zero => ?_
  · -- no end of a word is inside a word
    have kept : p.1 + i ∉ (words c).map Prod.snd := by
      intro among
      obtain ⟨p', member', same⟩ := mem_map.mp among
      obtain ⟨w', located'⟩ := all p' member'
      have here : (text.drop p'.2).head? = some w[i] := by
        rw [List.head?_drop, same, chars i inside, List.getElem?_eq_getElem inside]
      have stops := located'.maximal w[i] here
      rw [located.chars _ (getElem_mem inside)] at stops
      cases stops
    have short : p.1 + i < text.length := by
      have := located.length
      have := located.within
      omega
    rw [List.getElem?_drop, cuts, if_neg kept, List.getElem?_append_left short]
    exact chars i inside
  · have listed : p.2 ∈ (words c).map Prod.snd := mem_map.mpr ⟨p, member, rfl⟩
    have inside : p.2 < (text ++ ['\x00']).length := by
      rw [length_append]
      exact Nat.lt_succ_of_le located.within
    rw [List.getElem?_drop, ← located.length, cuts, if_pos listed, List.getElem?_eq_getElem inside]
    rfl
  · have inside : '\x00' ∈ text.drop p.1 := located.read ▸ mem_append_left _ zero
    exact line (mem_of_mem_drop inside)

end Text

section Trees
variable {α β : Type} {W : α → β → Prop} {c : Cmd α} {c' : Cmd β}

theorem exists_related {l : List α} {l' : List β} (lists : List.Forall₂ W l l') : ∀ p ∈ l, ∃ w, W p w := by
  induction lists with
  | nil => nofun
  | cons first _ ih =>
    intro p member
    rcases mem_cons.mp member with rfl | later
    · exact ⟨_, first⟩
    · exact ih p later

theorem map_eq_of_related {l : List α} {l' : List β} (lists : List.Forall₂ W l l') {f : α → β}
    (reads : ∀ p ∈ l, ∀ w, W p w → f p = w) : l.map f = l' := by
  induction lists with
  | nil => rfl
  | cons first _ ih =>
    rw [map_cons, reads _ mem_cons_self _ first, ih fun p member => reads p (mem_cons_of_mem _ member)]

theorem CmdRel.words (trees : CmdRel W c c') : ∀ p ∈ words c, ∃ w, W p w := by
  induction trees with
  | exec argv => exact exists_related argv
  | redir mode fd _ word ih =>
    intro p member
    rcases mem_append.mp member with inner | file
    · exact ih p inner
    · exact ⟨_, mem_singleton.mp file ▸ word⟩
  | pipe left right ih ih' | list left right ih ih' => exact fun p member => (mem_append.mp member).elim (ih p) (ih' p)
  | back cmd ih => exact ih

theorem CmdRel.map_eq (trees : CmdRel W c c') {f : α → β} (reads : ∀ p ∈ Parser.words c, ∀ w, W p w → f p = w) :
    c.map f = c' := by
  induction trees with
  | exec argv => rw [Cmd.map, map_eq_of_related argv reads]
  | redir mode fd _ word ih =>
    rw [Cmd.map, ih fun p member => reads p (mem_append_left _ member), reads _ (by simp [Parser.words]) _ word]
  | pipe left right ih ih' | list left right ih ih' =>
    rw [Cmd.map, ih fun p member => reads p (mem_append_left _ member),
      ih' fun p member => reads p (mem_append_right _ member)]
  | back cmd ih => rw [Cmd.map, ih reads]

end Trees

/-- The tree that a successful parse leaves, with the strings of its buffer. -/
def Parses (fuel : Nat) (text : List Char) (tree : Cmd (List Char)) : Prop :=
  ∃ c buffer, parsecmd fuel text = some (.ok (c, buffer)) ∧ c.map (fun p => cstring buffer p.1) = tree

section Line
variable {text : List Char} {fuel : Nat}

theorem tokens_eq_nil {l : List Char} (none : tokens l = []) : l.dropWhile (strchr whitespace) = [] := by
  rw [← tokens_skip] at none
  cases here : l.dropWhile (strchr whitespace) with
  | nil => rfl
  | cons c m =>
    have solid := head_dropWhile (strchr whitespace) l c (by rw [here]; rfl)
    rw [here, tokens, if_neg (Bool.eq_false_iff.mp solid)] at none
    split_ifs at none

theorem parseline_agrees (line : '\x00' ∉ text) (fuel : Nat) : Agrees (Before text) (CmdRel (Located text))
    (parseline (scanner text) fuel 0) (parseline tokenScanner fuel (tokens text)) :=
  ((scans line).parts fuel).1 0 (tokens text) ⟨rfl, Nat.zero_le _⟩

theorem peek_end {s : Nat} {ts : List Tok} (before : Before text s ts) : (peek text [] s).2 = text.length ↔ ts = [] := by
  obtain ⟨rfl, within⟩ := before
  have skipped := (skipWhile_spec (strchr whitespace) text s).1
  have bound := skipWhile_le (strchr whitespace) within
  show skipWhile (strchr whitespace) text s = text.length ↔ _
  constructor
  · intro last
    rw [last, drop_length] at skipped
    rw [← tokens_skip, ← skipped, tokens]
  · intro none
    rw [tokens_eq_nil none, drop_eq_nil_iff] at skipped
    omega

theorem parsecmd_cases (line : '\x00' ∉ text) (fuel : Nat) :
    (parseline tokenScanner fuel (tokens text) = none ∧ parsecmd fuel text = none) ∨
    (∃ message, parseline tokenScanner fuel (tokens text) = some (.error message) ∧ parsecmd fuel text = some (.error message)) ∨
    ∃ tree rest c s, parseline tokenScanner fuel (tokens text) = done tree rest ∧ parseline (scanner text) fuel 0 = done c s ∧
      CmdRel (Located text) c tree ∧ (rest = [] → parsecmd fuel text = some (.ok (c, nulterminate c (text ++ ['\x00'])))) ∧
      (rest ≠ [] → ∃ message, parsecmd fuel text = some (.error message)) := by
  have agrees := parseline_agrees line fuel
  simp only [parsecmd]
  generalize parseline (scanner text) fuel 0 = left at *
  generalize parseline tokenScanner fuel (tokens text) = right at *
  rcases left with _ | message | ⟨c, s⟩ <;> rcases right with _ | message' | ⟨tree, rest⟩
  · exact .inl ⟨rfl, rfl⟩
  · cases agrees
  · cases agrees
  · cases agrees
  · obtain rfl : message = message' := agrees
    exact .inr (.inl ⟨message, rfl, rfl⟩)
  · cases agrees
  · cases agrees
  · cases agrees
  · obtain ⟨trees, before⟩ := agrees
    refine .inr (.inr ⟨tree, rest, c, s, rfl, rfl, trees, fun none => ?_, fun more => ⟨_, if_pos fun last => ?_⟩⟩)
    · exact if_neg (not_not.mpr ((peek_end before).mpr none))
    · exact more ((peek_end before).mp last)

/-- The parser gives a tree for the lines of the grammar, the one of the derivation, and prints an error for all others. -/
theorem parsecmd_accepts_grammar (text : List Char) (line : '\x00' ∉ text) : ∃ enough, ∀ fuel ≥ enough,
    (∀ tree, Parses fuel text tree ↔ Derives .line (tokens text) tree) ∧
      ((¬∃ tree, Derives .line (tokens text) tree) → ∃ message, parsecmd fuel text = some (.error message)) := by
  refine ⟨4 * (tokens text).length + 4, fun fuel enough => ?_⟩
  have complete : ∀ tree, Derives .line (tokens text) tree →
      parseline tokenScanner fuel (tokens text) = done tree [] := by
    intro tree derives
    have parsed : parsePart .line fuel (tokens text ++ []) = done tree [] :=
      part_complete derives (.inl rfl) (by rw [append_nil]; exact enough)
    rwa [append_nil] at parsed
  have fails : ∀ message, parsecmd fuel text = some (.error message) → (∀ tree, ¬Derives .line (tokens text) tree) →
      (∀ tree, Parses fuel text tree ↔ Derives .line (tokens text) tree) ∧
      ((¬∃ tree, Derives .line (tokens text) tree) → ∃ message, parsecmd fuel text = some (.error message)) := by
    refine fun message failed none => ⟨fun tree => ⟨fun ⟨c, buffer, parsed, _⟩ => ?_, fun derives => absurd derives (none tree)⟩,
      fun _ => ⟨message, failed⟩⟩
    cases failed.symm.trans parsed
  rcases parsecmd_cases line fuel with ⟨result, -⟩ | ⟨message, result, failed⟩ | ⟨tree, rest, c, s, result, -, trees, ended, more⟩
  · exact absurd result ((parts_end fuel).1 _ enough)
  · exact fails message failed fun tree derives => by cases result.symm.trans (complete tree derives)
  · by_cases last : rest = []
    · subst last
      obtain ⟨ts, same, derives⟩ := (parts_sound fuel).1 _ _ _ result
      rw [append_nil] at same
      rw [← same] at derives
      have strings := trees.map_eq fun p member w located => cstring_located line trees.words member located
      refine ⟨fun tree' => ⟨fun ⟨d, buffer, parsed, strings'⟩ => ?_, fun derives' => ?_⟩, fun none => absurd ⟨tree, derives⟩ none⟩
      · obtain ⟨rfl, rfl⟩ := Prod.mk.inj (Except.ok.inj (Option.some.inj ((ended rfl).symm.trans parsed)))
        exact strings'.symm.trans strings ▸ derives
      · cases result.symm.trans (complete tree' derives')
        exact ⟨c, _, ended rfl, strings⟩
    · obtain ⟨message, failed⟩ := more last
      exact fails message failed fun tree derives => by cases result.symm.trans (complete tree derives); exact last rfl

/-- After nulterminate every string of the tree is the word that stood there, and no terminator is inside another word. -/
theorem nulterminate_cuts_words {c : Cmd (Nat × Nat)} {buffer : List Char} (line : '\x00' ∉ text)
    (parsed : parsecmd fuel text = some (.ok (c, buffer))) :
    (∀ p ∈ words c, Maximal text p ∧ cstring buffer p.1 = (text.drop p.1).take (p.2 - p.1)) ∧
      ∀ p ∈ words c, ∀ q ∈ words c, ¬(p.1 ≤ q.2 ∧ q.2 < p.2) := by
  have edges := ((@scans_maximal text).parts fuel).1 0 0 ⟨rfl, .inl fun positive => absurd positive (lt_irrefl 0)⟩
  obtain ⟨s, result, located, rfl⟩ : ∃ s, parseline (scanner text) fuel 0 = done c s ∧ (∀ p ∈ words c, ∃ w, Located text p w) ∧
      nulterminate c (text ++ ['\x00']) = buffer := by
    rcases parsecmd_cases line fuel with ⟨-, none⟩ | ⟨message, -, failed⟩ | ⟨tree, rest, c', s, -, result, trees, ended, more⟩
    · cases none.symm.trans parsed
    · cases failed.symm.trans parsed
    · by_cases last : rest = []
      · cases (ended last).symm.trans parsed
        exact ⟨s, result, trees.words, rfl⟩
      · obtain ⟨message, failed⟩ := more last
        cases failed.symm.trans parsed
  rw [result] at edges
  have maximal : ∀ p ∈ words c, Maximal text p := by
    intro p member
    obtain ⟨_, -, maximal⟩ := edges.1.words p member
    exact maximal
  refine ⟨fun p member => ⟨maximal p member, ?_⟩, fun p member q other inside => ?_⟩
  · obtain ⟨w, word⟩ := located p member
    rw [cstring_located line located member word, word.length, Nat.add_sub_cancel_left, word.read, take_left]
  · have short : q.2 < text.length := lt_of_lt_of_le inside.2 (maximal p member).within
    have stop := (maximal q other).right text[q.2] (List.getElem?_eq_getElem short)
    have char : text[q.2] ∈ (text.drop p.1).take (p.2 - p.1) := by
      refine mem_of_getElem? (i := q.2 - p.1) ?_
      rw [List.getElem?_take_of_lt (by omega), List.getElem?_drop, Nat.add_sub_cancel' inside.1, List.getElem?_eq_getElem short]
    rw [(maximal p member).chars _ char] at stop
    cases stop

/-- Words that end at a blank, at a symbol and at the end of the line, in a list of pipes with redirections. -/
def piped : List Char := "(cat a<b|wc -l>d;ls)>>e".toList

theorem nulterminate_cuts_words_piped : '\x00' ∉ piped ∧ ∃ c buffer, parsecmd 20 piped = some (.ok (c, buffer)) ∧
    (words c).map (cstring buffer ·.1) = ["cat".toList, "a".toList, "b".toList, "wc".toList, "-l".toList, "d".toList,
      "ls".toList, "e".toList] ∧
    (∀ p ∈ words c, Maximal piped p ∧ cstring buffer p.1 = (piped.drop p.1).take (p.2 - p.1)) ∧
      ∀ p ∈ words c, ∀ q ∈ words c, ¬(p.1 ≤ q.2 ∧ q.2 < p.2) := by
  have line : '\x00' ∉ piped := by decide +kernel
  have played : (parsecmd 20 piped).bind (fun r => r.toOption.map fun r => (words r.1).map (cstring r.2 ·.1)) =
      some ["cat".toList, "a".toList, "b".toList, "wc".toList, "-l".toList, "d".toList, "ls".toList, "e".toList] := by
    decide +kernel
  obtain ⟨r, parsed, accepted⟩ := Option.bind_eq_some_iff.mp played
  cases r with
  | error message => cases accepted
  | ok r =>
    obtain ⟨c, buffer⟩ := r
    exact ⟨line, c, buffer, parsed, Option.some.inj accepted, nulterminate_cuts_words line parsed⟩

end Line

theorem parsecmd_accepts_grammar_background : '\x00' ∉ ['l', 's', ' ', '&'] ∧
    ∃ enough, ∀ fuel ≥ enough, Parses fuel ['l', 's', ' ', '&'] (.back (.exec [['l', 's']])) := by
  refine ⟨by decide, ?_⟩
  obtain ⟨enough, exact⟩ := parsecmd_accepts_grammar ['l', 's', ' ', '&'] (by decide)
  refine ⟨enough, fun fuel more => ((exact fuel more).1 _).mpr ?_⟩
  have read : tokens ['l', 's', ' ', '&'] = [.word ['l', 's'], .amp] := by
    simp [tokens, strchr, whitespace, symbols, wordChar]
  rw [read]
  exact .line 1 (.pipe (.simple [.word ['l', 's']] (by decide)))

end Xv6.User.Parser
