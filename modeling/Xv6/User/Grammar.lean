import Xv6.User.Sh

/-! The grammar of the shell over its tokens, and the parser over a list of tokens. -/

namespace Xv6.User.Grammar

open Lib.Parsing Sh List Option

inductive Op
  | less
  | greater
  | append
deriving DecidableEq

inductive Tok
  | bar
  | open
  | close
  | semi
  | amp
  | redir (op : Op)
  | word (text : List Char)
deriving DecidableEq

def Op.mode : Op → Nat
  | .less => O_RDONLY
  | .greater => O_WRONLY ||| O_CREATE ||| O_TRUNC
  | .append => O_WRONLY ||| O_CREATE

def Op.fd : Op → Nat
  | .less => 0
  | .greater => 1
  | .append => 1

/-- A redirection or a word of a simple command. -/
inductive Item
  | redir (op : Op) (file : List Char)
  | word (text : List Char)

def Item.tokens : Item → List Tok
  | .redir op file => [.redir op, .word file]
  | .word text => [.word text]

def Item.file : Item → Option (Op × List Char)
  | .redir op file => some (op, file)
  | .word _ => none

def Item.arg : Item → Option (List Char)
  | .redir _ _ => none
  | .word text => some text

def redirected (cmd : Cmd (List Char)) (files : List (Op × List Char)) : Cmd (List Char) :=
  files.foldl (fun cmd f => .redir cmd f.2 f.1.mode f.1.fd) cmd

def backed (cmd : Cmd (List Char)) : Nat → Cmd (List Char)
  | 0 => cmd
  | n + 1 => backed (.back cmd) n

inductive Part
  | line
  | pipe
  | cmd

/-- line ::= pipe '&'* [';' line]; pipe ::= cmd ['|' pipe]; cmd ::= '(' line ')' redir* | (redir | word)*, with the trees. -/
inductive Derives : Part → List Tok → Cmd (List Char) → Prop
  | line {ts c} (n : Nat) (first : Derives .pipe ts c) : Derives .line (ts ++ List.replicate n .amp) (backed c n)
  | lines {ts c ts' c'} (n : Nat) (first : Derives .pipe ts c) (rest : Derives .line ts' c') :
      Derives .line (ts ++ List.replicate n .amp ++ .semi :: ts') (.list (backed c n) c')
  | pipe {ts c} (only : Derives .cmd ts c) : Derives .pipe ts c
  | pipes {ts c ts' c'} (first : Derives .cmd ts c) (rest : Derives .pipe ts' c') :
      Derives .pipe (ts ++ .bar :: ts') (.pipe c c')
  | block {ts c} (files : List (Op × List Char)) (inner : Derives .line ts c) :
      Derives .cmd (.open :: ts ++ .close :: files.flatMap fun f => [.redir f.1, .word f.2]) (redirected c files)
  | simple (items : List Item) (few : (items.filterMap Item.arg).length ≤ MAXARGS - 1) :
      Derives .cmd (items.flatMap Item.tokens) (redirected (.exec (items.filterMap Item.arg)) (items.filterMap Item.file))

def Tok.lead : Tok → Char
  | .bar => '|'
  | .open => '('
  | .close => ')'
  | .semi => ';'
  | .amp => '&'
  | .redir .less => '<'
  | .redir _ => '>'
  | .word _ => 'a'

def Tok.code : Tok → Char
  | .redir .append => '+'
  | t => t.lead

def Tok.text : Tok → List Char
  | .word text => text
  | _ => []

def tokenScanner : Scanner (List Tok) (List Char) where
  peek toks ts := (ts.head?.any fun t => toks.contains t.lead, ts)
  gettoken
    | [] => (('\x00', []), [])
    | t :: ts => ((t.code, t.text), ts)

section Redirs
variable {fuel : Nat} {c c' : Cmd (List Char)} {ts rest : List Tok}

theorem parseredirs_file {op : Op} {file : List Char} : parseredirs tokenScanner (fuel + 1) c (.redir op :: .word file :: ts) =
    parseredirs tokenScanner fuel (.redir c file op.mode op.fd) ts := by
  cases op <;> rfl

/-- The next token does not begin a redirection. -/
def Plain (ts : List Tok) : Prop := ∀ op rest, ts ≠ .redir op :: rest

theorem parseredirs_plain (plain : Plain ts) : parseredirs tokenScanner (fuel + 1) c ts = done c ts := by
  cases ts with
  | nil => rfl
  | cons t ts =>
    cases t with
    | redir op => exact absurd rfl (plain op ts)
    | _ => rfl

theorem parseredirs_sound (parsed : parseredirs tokenScanner fuel c ts = done c' rest) :
    Plain rest ∧ ∃ files : List (Op × List Char), ts = (files.flatMap fun f => [Tok.redir f.1, .word f.2]) ++ rest ∧
      c' = redirected c files := by
  induction fuel generalizing c ts with
  | zero => cases parsed
  | succ fuel ih =>
    by_cases plain : Plain ts
    · rw [parseredirs_plain plain] at parsed
      cases parsed
      exact ⟨plain, [], rfl, rfl⟩
    · simp only [Plain, not_forall, not_not] at plain
      obtain ⟨op, ts, rfl⟩ := plain
      rcases ts with _ | ⟨t, ts⟩
      · cases op <;> cases parsed
      · cases t with
        | word file =>
          rw [parseredirs_file] at parsed
          obtain ⟨plain, files, rfl, rfl⟩ := ih parsed
          exact ⟨plain, (op, file) :: files, rfl, rfl⟩
        | redir op' => cases op <;> cases op' <;> cases parsed
        | _ => cases op <;> cases parsed

theorem parseredirs_complete (plain : Plain rest) (files : List (Op × List Char)) (enough : files.length < fuel) :
    parseredirs tokenScanner fuel c ((files.flatMap fun f => [Tok.redir f.1, .word f.2]) ++ rest) =
      done (redirected c files) rest := by
  induction files generalizing fuel c with
  | nil =>
    obtain ⟨fuel, rfl⟩ := Nat.exists_eq_add_of_lt enough
    exact parseredirs_plain plain
  | cons f files ih =>
    obtain ⟨fuel, rfl⟩ : ∃ more, fuel = more + 1 := ⟨fuel - 1, by omega⟩
    exact parseredirs_file.trans (ih (Nat.lt_of_succ_lt_succ enough))

theorem parseredirs_ends (enough : ts.length < fuel) : parseredirs tokenScanner fuel c ts ≠ none := by
  induction fuel generalizing c ts with
  | zero => omega
  | succ fuel ih =>
    by_cases plain : Plain ts
    · rw [parseredirs_plain plain]
      exact some_ne_none _
    · simp only [Plain, not_forall, not_not] at plain
      obtain ⟨op, ts, rfl⟩ := plain
      rcases ts with _ | ⟨t, ts⟩
      · cases op <;> exact some_ne_none _
      · cases t with
        | word file =>
          rw [parseredirs_file]
          exact ih (by simp only [length_cons] at enough; omega)
        | redir op' => cases op <;> cases op' <;> exact some_ne_none _
        | _ => cases op <;> exact some_ne_none _

end Redirs

section Backs
variable {fuel n : Nat} {c c' : Cmd (List Char)} {ts rest : List Tok}

theorem parsebacks_amp : parsebacks tokenScanner (fuel + 1) c (.amp :: ts) = parsebacks tokenScanner fuel (.back c) ts := rfl

theorem parsebacks_other (other : ts.head? ≠ some .amp) : parsebacks tokenScanner (fuel + 1) c ts = done c ts := by
  rcases ts with _ | ⟨t, ts⟩
  · rfl
  · cases t with
    | amp => exact absurd rfl other
    | redir op => cases op <;> rfl
    | _ => rfl

theorem parsebacks_sound (parsed : parsebacks tokenScanner fuel c ts = done c' rest) :
    ∃ n, ts = List.replicate n .amp ++ rest ∧ c' = backed c n := by
  induction fuel generalizing c ts with
  | zero => cases parsed
  | succ fuel ih =>
    by_cases other : ts.head? = some .amp
    · obtain ⟨ts, rfl⟩ := List.head?_eq_some_iff.mp other
      obtain ⟨n, rfl, rfl⟩ := ih (parsebacks_amp.symm.trans parsed)
      exact ⟨n + 1, rfl, rfl⟩
    · rw [parsebacks_other other] at parsed
      cases parsed
      exact ⟨0, rfl, rfl⟩

theorem parsebacks_complete (other : rest.head? ≠ some .amp) (enough : n < fuel) :
    parsebacks tokenScanner fuel c (List.replicate n .amp ++ rest) = done (backed c n) rest := by
  induction n generalizing fuel c with
  | zero =>
    obtain ⟨fuel, rfl⟩ := Nat.exists_eq_add_of_lt enough
    exact parsebacks_other other
  | succ n ih =>
    obtain ⟨fuel, rfl⟩ : ∃ more, fuel = more + 1 := ⟨fuel - 1, by omega⟩
    exact ih (Nat.lt_of_succ_lt_succ enough)

theorem parsebacks_ends (enough : ts.length < fuel) : parsebacks tokenScanner fuel c ts ≠ none := by
  induction fuel generalizing c ts with
  | zero => omega
  | succ fuel ih =>
    by_cases other : ts.head? = some .amp
    · obtain ⟨ts, rfl⟩ := List.head?_eq_some_iff.mp other
      exact ih (Nat.lt_of_succ_lt_succ enough)
    · rw [parsebacks_other other]
      exact some_ne_none _

end Backs

section Args
variable {fuel argc : Nat} {c c' : Cmd (List Char)} {ts rest : List Tok}

def Item.apply (c : Cmd (List Char)) : Item → Cmd (List Char)
  | .redir op file => .redir c file op.mode op.fd
  | .word text => addArg c text

variable (files : List (Op × List Char))

theorem addArg_redirected (text : List Char) : addArg (redirected c files) text = redirected (addArg c text) files := by
  induction files generalizing c with
  | nil => rfl
  | cons f files ih => exact ih

theorem redirected_append (files more : List (Op × List Char)) :
    redirected c (files ++ more) = redirected (redirected c files) more := foldl_append

theorem foldl_apply (items : List Item) (argv : List (List Char)) (files : List (Op × List Char)) :
    items.foldl Item.apply (redirected (.exec argv) files) =
      redirected (.exec (argv ++ items.filterMap Item.arg)) (files ++ items.filterMap Item.file) := by
  induction items generalizing argv files with
  | nil => simp
  | cons item items ih =>
    cases item with
    | redir op file =>
      have next : Item.apply (redirected (.exec argv) files) (.redir op file) =
          redirected (.exec argv) (files ++ [(op, file)]) := (redirected_append files [(op, file)]).symm
      rw [foldl_cons, next, ih, append_assoc]
      rfl
    | word text =>
      rw [foldl_cons, Item.apply, addArg_redirected, addArg, ih, append_assoc]
      rfl

def asItems (files : List (Op × List Char)) : List Item := files.map fun f => .redir f.1 f.2

theorem asItems_tokens : (asItems files).flatMap Item.tokens = files.flatMap fun f => [.redir f.1, .word f.2] := by
  rw [asItems, flatMap_map]
  rfl

theorem asItems_apply : (asItems files).foldl Item.apply c = redirected c files := by
  rw [asItems, foldl_map]
  rfl

theorem asItems_args : (asItems files).filterMap Item.arg = [] := by
  induction files with
  | nil => rfl
  | cons f files ih => exact ih

theorem length_le_tokens (items : List Item) : items.length ≤ (items.flatMap Item.tokens).length := by
  induction items with
  | nil => exact le_rfl
  | cons item items ih =>
    rw [flatMap_cons, length_append, length_cons]
    cases item <;> simp only [Item.tokens, length_cons, length_nil] <;> omega

theorem args_word (text : List Char) (items : List Item) :
    (Item.word text :: items).filterMap Item.arg = text :: items.filterMap Item.arg := rfl

def Ends (ts : List Tok) : Prop := ts = [] ∨ ∃ t rest, ts = t :: rest ∧ (t = .bar ∨ t = .close ∨ t = .amp ∨ t = .semi)

theorem Ends.plain (ends : Ends ts) : Plain ts := by
  rintro op rest rfl
  rcases ends with none | ⟨t, rest', same, kind⟩
  · cases none
  · obtain ⟨rfl, -⟩ := List.cons.inj same
    simp at kind

theorem Ends.not_open (ends : Ends ts) : ts.head? ≠ some .open := by
  rcases ends with rfl | ⟨t, rest, rfl, kind⟩
  · exact nofun
  · rintro same
    obtain rfl := Option.some.inj same
    simp at kind

theorem parseargs_ends_at (ends : Ends ts) : parseargs tokenScanner (fuel + 1) argc c ts = done c ts := by
  rcases ends with rfl | ⟨t, rest, rfl, rfl | rfl | rfl | rfl⟩ <;> rfl

theorem parseargs_word {text : List Char} (few : argc + 1 < MAXARGS) :
    parseargs tokenScanner (fuel + 1) argc c (.word text :: ts) =
      (parseredirs tokenScanner fuel (addArg c text) >>= parseargs tokenScanner fuel (argc + 1)) ts := by
  show (if MAXARGS ≤ argc + 1 then _ else _ : Parse (List Tok) (Cmd (List Char))) ts = _
  rw [if_neg few.not_ge]
  rfl

theorem parseargs_many {text : List Char} (many : MAXARGS ≤ argc + 1) :
    parseargs tokenScanner (fuel + 1) argc c (.word text :: ts) = some (.error "too many args\n") := by
  show (if MAXARGS ≤ argc + 1 then _ else _ : Parse (List Tok) (Cmd (List Char))) ts = _
  rw [if_pos many]
  rfl

theorem parseargs_cases (ts : List Tok) : Ends ts ∨ (∃ text rest, ts = .word text :: rest) ∨
    ∃ message, ∀ fuel argc c, parseargs tokenScanner (fuel + 1) argc c ts = some (.error message) := by
  rcases ts with _ | ⟨t, rest⟩
  · exact .inl (.inl rfl)
  · cases t with
    | word text => exact .inr (.inl ⟨text, rest, rfl⟩)
    | «open» => exact .inr (.inr ⟨_, fun _ _ _ => rfl⟩)
    | redir op => cases op <;> exact .inr (.inr ⟨_, fun _ _ _ => rfl⟩)
    | bar | close | semi | amp => exact .inl (.inr ⟨_, rest, rfl, by simp⟩)

theorem parseargs_sound (parsed : parseargs tokenScanner fuel argc c ts = done c' rest) :
    Ends rest ∧ ∃ items : List Item, ts = items.flatMap Item.tokens ++ rest ∧ c' = items.foldl Item.apply c ∧
      (items = [] ∨ argc + (items.filterMap Item.arg).length < MAXARGS) := by
  induction fuel generalizing argc c ts with
  | zero => cases parsed
  | succ fuel ih =>
    rcases parseargs_cases ts with ends | ⟨text, ts, rfl⟩ | ⟨message, fails⟩
    · rw [parseargs_ends_at ends] at parsed
      cases parsed
      exact ⟨ends, [], rfl, rfl, .inl rfl⟩
    · by_cases few : argc + 1 < MAXARGS
      · rw [parseargs_word few] at parsed
        obtain ⟨c₁, ts₁, first, loop⟩ := bind_eq_done parsed
        obtain ⟨-, files, rfl, rfl⟩ := parseredirs_sound first
        obtain ⟨ends, items, rfl, rfl, bound⟩ := ih loop
        refine ⟨ends, .word text :: (asItems files ++ items), ?_, ?_, .inr ?_⟩
        · rw [flatMap_cons, flatMap_append, asItems_tokens, append_assoc, append_assoc]
          rfl
        · rw [foldl_cons, foldl_append, asItems_apply]
          rfl
        · have count : ((Item.word text :: (asItems files ++ items)).filterMap Item.arg).length =
              (items.filterMap Item.arg).length + 1 := by
            rw [args_word, filterMap_append, asItems_args]
            rfl
          rcases bound with rfl | bound
          · rw [count]
            exact few
          · omega
      · rw [parseargs_many (not_lt.mp few)] at parsed
        cases parsed
    · rw [fails] at parsed
      cases parsed

theorem parseargs_complete (ends : Ends rest) (items : List Item) {fuel' : Nat}
    (few : argc + (items.filterMap Item.arg).length < MAXARGS) (enough : items.length < fuel) (enough' : items.length < fuel') :
    (parseredirs tokenScanner fuel c >>= parseargs tokenScanner fuel' argc) (items.flatMap Item.tokens ++ rest) =
      done (items.foldl Item.apply c) rest := by
  induction items generalizing fuel fuel' argc c with
  | nil =>
    obtain ⟨fuel, rfl⟩ := Nat.exists_eq_add_of_lt enough
    obtain ⟨fuel', rfl⟩ := Nat.exists_eq_add_of_lt enough'
    exact (bind_done (parseredirs_plain ends.plain)).trans (parseargs_ends_at ends)
  | cons item items ih =>
    obtain ⟨fuel, rfl⟩ : ∃ more, fuel = more + 1 := ⟨fuel - 1, by omega⟩
    obtain ⟨fuel', rfl⟩ : ∃ more, fuel' = more + 1 := ⟨fuel' - 1, by omega⟩
    have less := Nat.lt_of_succ_lt_succ enough
    have less' := Nat.lt_of_succ_lt_succ enough'
    cases item with
    | redir op file =>
      have ran := ih (c := .redir c file op.mode op.fd) few less (Nat.lt_of_succ_lt enough')
      exact (congrArg (Option.bind · _) parseredirs_file).trans ran
    | word text =>
      have plain : Plain (.word text :: (items.flatMap Item.tokens ++ rest)) := nofun
      rw [args_word, length_cons] at few
      have loop : parseargs tokenScanner (fuel' + 1) argc c (.word text :: (items.flatMap Item.tokens ++ rest)) = _ :=
        (parseargs_word (by omega)).trans (ih (by omega) less' less')
      exact (bind_done (parseredirs_plain plain)).trans loop

theorem parseargs_stops (enough : ts.length < fuel) : parseargs tokenScanner fuel argc c ts ≠ none := by
  induction fuel generalizing argc c ts with
  | zero => omega
  | succ fuel ih =>
    rcases parseargs_cases ts with ends | ⟨text, ts, rfl⟩ | ⟨message, fails⟩
    · rw [parseargs_ends_at ends]
      exact some_ne_none _
    · have less : ts.length < fuel := Nat.lt_of_succ_lt_succ enough
      by_cases few : argc + 1 < MAXARGS
      · rw [parseargs_word few]
        refine bind_ne_none (parseredirs_ends less) fun c₁ rest first => ih ?_
        obtain ⟨-, files, rfl, -⟩ := parseredirs_sound first
        rw [length_append] at less
        omega
      · rw [parseargs_many (not_lt.mp few)]
        exact some_ne_none _
    · rw [fails]
      exact some_ne_none _

end Args

section Parts
variable {fuel : Nat} {c : Cmd (List Char)} {ts rest : List Tok}

/-- The tokens that are one character and nothing else begins with. -/
def Tok.mark : Tok → Bool
  | .redir _ => false
  | .word _ => false
  | _ => true

theorem lead_eq {t t₀ : Tok} (mark : t₀.mark = true) (same : t.lead = t₀.lead) : t = t₀ := by
  cases t₀ <;> try cases mark
  all_goals
    cases t with
    | redir op => cases op <;> simp [Tok.lead] at same
    | _ => first | rfl | simp [Tok.lead] at same

theorem peeks_mark (t₀ : Tok) (mark : t₀.mark = true) (ts : List Tok) :
    (peeks tokenScanner [t₀.lead] ts = done true ts ∧ ∃ rest, ts = t₀ :: rest) ∨
    (peeks tokenScanner [t₀.lead] ts = done false ts ∧ ts.head? ≠ some t₀) := by
  rcases ts with _ | ⟨t, ts⟩
  · exact .inr ⟨rfl, nofun⟩
  · by_cases same : t = t₀
    · subst same
      exact .inl ⟨by simp [peeks, tokenScanner, done], ts, rfl⟩
    · have other : t.lead ≠ t₀.lead := fun lead => same (lead_eq mark lead)
      exact .inr ⟨by simp [peeks, tokenScanner, done, other], by simpa using same⟩

theorem token_cons {t : Tok} : token tokenScanner (t :: ts) = done (t.code, t.text) ts := rfl

/-- What each part of the parser takes off the tokens is derived from the grammar. -/
theorem parts_sound (fuel : Nat) :
    (∀ ts c rest, parseline tokenScanner fuel ts = done c rest → ∃ ts', ts = ts' ++ rest ∧ Derives .line ts' c) ∧
    (∀ ts c rest, parsepipe tokenScanner fuel ts = done c rest → ∃ ts', ts = ts' ++ rest ∧ Derives .pipe ts' c) ∧
    (∀ ts c rest, parseexec tokenScanner fuel ts = done c rest → ∃ ts', ts = ts' ++ rest ∧ Derives .cmd ts' c) ∧
    (∀ ts c rest, parseblock tokenScanner fuel ts = done c rest → ∃ ts', ts = ts' ++ rest ∧ Derives .cmd ts' c) := by
  induction fuel with
  | zero => exact ⟨nofun, nofun, nofun, nofun⟩
  | succ fuel ih =>
    obtain ⟨line, pipe, exec, block⟩ := ih
    refine ⟨fun ts c rest parsed => ?_, fun ts c rest parsed => ?_, fun ts c rest parsed => ?_, fun ts c rest parsed => ?_⟩
    · rw [parseline] at parsed
      obtain ⟨c₁, ts₁, first, parsed⟩ := bind_eq_done parsed
      obtain ⟨c₂, ts₂, backs, parsed⟩ := bind_eq_done parsed
      obtain ⟨front, rfl, derives⟩ := pipe _ _ _ first
      obtain ⟨n, rfl, rfl⟩ := parsebacks_sound backs
      rcases peeks_mark .semi rfl ts₂ with ⟨found, ts₃, rfl⟩ | ⟨missing, -⟩
      · obtain ⟨_, _, consumed, parsed⟩ := bind_eq_done ((bind_done found).symm.trans parsed)
        cases consumed
        obtain ⟨right, ts₄, last, parsed⟩ := bind_eq_done parsed
        cases parsed
        obtain ⟨back, rfl, derives'⟩ := line _ _ _ last
        exact ⟨_, by simp, .lines n derives derives'⟩
      · have finished := (bind_done missing).symm.trans parsed
        cases finished
        exact ⟨_, by simp, .line n derives⟩
    · rw [parsepipe] at parsed
      obtain ⟨c₁, ts₁, first, after⟩ := bind_eq_done parsed
      obtain ⟨front, same, derives⟩ := exec _ _ _ first
      rcases peeks_mark .bar rfl ts₁ with ⟨found, ts₂, rfl⟩ | ⟨missing, -⟩
      · obtain ⟨_, _, consumed, after⟩ := bind_eq_done ((bind_done found).symm.trans after)
        cases consumed
        obtain ⟨right, ts₃, last, after⟩ := bind_eq_done after
        cases after
        obtain ⟨back, rfl, derives'⟩ := pipe _ _ _ last
        exact ⟨_, by simp [same], .pipes derives derives'⟩
      · cases (bind_done missing).symm.trans after
        exact ⟨front, same, .pipe derives⟩
    · rw [parseexec] at parsed
      rcases peeks_mark .open rfl ts with ⟨found, _, rfl⟩ | ⟨missing, -⟩
      · exact block _ _ _ ((bind_done found).symm.trans parsed)
      · obtain ⟨c₁, ts₁, first, after⟩ := bind_eq_done ((bind_done missing).symm.trans parsed)
        obtain ⟨-, files, same, rfl⟩ := parseredirs_sound first
        obtain ⟨-, items, rfl, rfl, bound⟩ := parseargs_sound after
        have tree := foldl_apply (asItems files ++ items) [] []
        rw [foldl_append, asItems_apply, nil_append, nil_append] at tree
        have few : ((asItems files ++ items).filterMap Item.arg).length ≤ MAXARGS - 1 := by
          rw [filterMap_append, asItems_args, nil_append]
          rcases bound with rfl | bound
          · exact Nat.zero_le _
          · omega
        refine ⟨(asItems files ++ items).flatMap Item.tokens, ?_, tree ▸ .simple _ few⟩
        rw [same, flatMap_append, asItems_tokens, append_assoc]
    · rw [parseblock] at parsed
      rcases peeks_mark .open rfl ts with ⟨found, ts₁, rfl⟩ | ⟨missing, -⟩
      · obtain ⟨_, _, consumed, after⟩ := bind_eq_done ((bind_done found).symm.trans parsed)
        cases consumed
        obtain ⟨c₁, ts₂, inner, after⟩ := bind_eq_done after
        obtain ⟨front, same, derives⟩ := line _ _ _ inner
        rcases peeks_mark .close rfl ts₂ with ⟨found', ts₃, rfl⟩ | ⟨missing, -⟩
        · obtain ⟨_, _, consumed, after⟩ := bind_eq_done ((bind_done found').symm.trans after)
          cases consumed
          obtain ⟨-, files, rfl, rfl⟩ := parseredirs_sound after
          exact ⟨_, by simp [same], .block files derives⟩
        · cases (bind_done missing).symm.trans after
      · cases (bind_done missing).symm.trans parsed

theorem parts_end (fuel : Nat) :
    (∀ ts, 4 * ts.length + 4 ≤ fuel → parseline tokenScanner fuel ts ≠ none) ∧
    (∀ ts, 4 * ts.length + 3 ≤ fuel → parsepipe tokenScanner fuel ts ≠ none) ∧
    (∀ ts, 4 * ts.length + 2 ≤ fuel → parseexec tokenScanner fuel ts ≠ none) ∧
    (∀ ts, 4 * ts.length + 1 ≤ fuel → parseblock tokenScanner fuel ts ≠ none) := by
  induction fuel with
  | zero => exact ⟨nofun, nofun, nofun, nofun⟩
  | succ fuel ih =>
    obtain ⟨line, pipe, exec, block⟩ := ih
    obtain ⟨lineSound, pipeSound, execSound, -⟩ := parts_sound fuel
    refine ⟨fun ts enough => ?_, fun ts enough => ?_, fun ts enough => ?_, fun ts enough => ?_⟩
    · rw [parseline]
      refine bind_ne_none (pipe ts (by omega)) fun c₁ ts₁ first => ?_
      obtain ⟨front, rfl, -⟩ := pipeSound _ _ _ first
      rw [length_append] at enough
      refine bind_ne_none (parsebacks_ends (by omega)) fun c₂ ts₂ backs => ?_
      obtain ⟨n, rfl, -⟩ := parsebacks_sound backs
      rw [length_append] at enough
      rcases peeks_mark .semi rfl ts₂ with ⟨found, ts₃, rfl⟩ | ⟨missing, -⟩
      · refine (bind_done found).trans_ne ?_
        rw [length_cons] at enough
        refine bind_ne_none (some_ne_none _) fun _ _ consumed => ?_
        cases consumed
        exact bind_ne_none (line ts₃ (by omega)) fun _ _ _ => some_ne_none _
      · refine (bind_done missing).trans_ne ?_
        exact some_ne_none _
    · rw [parsepipe]
      refine bind_ne_none (exec ts (by omega)) fun c₁ ts₁ first => ?_
      obtain ⟨front, rfl, -⟩ := execSound _ _ _ first
      rw [length_append] at enough
      rcases peeks_mark .bar rfl ts₁ with ⟨found, ts₂, rfl⟩ | ⟨missing, -⟩
      · refine (bind_done found).trans_ne ?_
        rw [length_cons] at enough
        refine bind_ne_none (some_ne_none _) fun _ _ consumed => ?_
        cases consumed
        exact bind_ne_none (pipe ts₂ (by omega)) fun _ _ _ => some_ne_none _
      · refine (bind_done missing).trans_ne ?_
        exact some_ne_none _
    · rw [parseexec]
      rcases peeks_mark .open rfl ts with ⟨found, _, rfl⟩ | ⟨missing, -⟩
      · refine (bind_done found).trans_ne ?_
        exact block _ (by omega)
      · refine (bind_done missing).trans_ne ?_
        refine bind_ne_none (parseredirs_ends (by omega)) fun c₁ ts₁ first => parseargs_stops ?_
        obtain ⟨-, files, rfl, -⟩ := parseredirs_sound first
        rw [length_append] at enough
        omega
    · rw [parseblock]
      rcases peeks_mark .open rfl ts with ⟨found, ts₁, rfl⟩ | ⟨missing, -⟩
      · refine (bind_done found).trans_ne ?_
        rw [length_cons] at enough
        refine bind_ne_none (some_ne_none _) fun _ _ consumed => ?_
        cases consumed
        refine bind_ne_none (line ts₁ (by omega)) fun c₁ ts₂ inner => ?_
        obtain ⟨front, rfl, -⟩ := lineSound _ _ _ inner
        rw [length_append] at enough
        rcases peeks_mark .close rfl ts₂ with ⟨found', ts₃, rfl⟩ | ⟨missing, -⟩
        · refine (bind_done found').trans_ne ?_
          rw [length_cons] at enough
          refine bind_ne_none (some_ne_none _) fun _ _ consumed => ?_
          cases consumed
          exact parseredirs_ends (by omega)
        · refine (bind_done missing).trans_ne ?_
          exact some_ne_none _
      · refine (bind_done missing).trans_ne ?_
        exact some_ne_none _

def parsePart : Part → Nat → Parse (List Tok) (Cmd (List Char))
  | .line => parseline tokenScanner
  | .pipe => parsepipe tokenScanner
  | .cmd => parseexec tokenScanner

/-- The tokens that may come after a part. -/
def Follow : Part → List Tok → Prop
  | .line, ts => ts = [] ∨ ∃ rest, ts = .close :: rest
  | .pipe, ts => Ends ts ∧ ts.head? ≠ some .bar
  | .cmd, ts => Ends ts

/-- The fuel that a part needs beyond four units for each token. -/
def Part.depth : Part → Nat
  | .line => 4
  | .pipe => 3
  | .cmd => 2

theorem Follow.pipe_of_line (follow : Follow .line rest) : Follow .pipe rest ∧ rest.head? ≠ some .amp ∧ rest.head? ≠ some .semi := by
  rcases follow with rfl | ⟨rest, rfl⟩
  · exact ⟨⟨.inl rfl, nofun⟩, nofun, nofun⟩
  · exact ⟨⟨.inr ⟨_, rest, rfl, by simp⟩, by simp⟩, by simp, by simp⟩

theorem Follow.amps (n : Nat) (follow : Follow .pipe rest) : Follow .pipe (List.replicate n .amp ++ rest) := by
  cases n with
  | zero => exact follow
  | succ n => exact ⟨.inr ⟨.amp, _, rfl, by simp⟩, by simp [replicate_succ]⟩

theorem peeks_missing {t₀ : Tok} (mark : t₀.mark = true) (other : ts.head? ≠ some t₀) :
    peeks tokenScanner [t₀.lead] ts = done false ts := by
  rcases peeks_mark t₀ mark ts with ⟨_, rest, rfl⟩ | ⟨missing, _⟩
  · exact absurd rfl other
  · exact missing

theorem peeks_found (t₀ : Tok) (mark : t₀.mark = true) : peeks tokenScanner [t₀.lead] (t₀ :: ts) = done true (t₀ :: ts) := by
  rcases peeks_mark t₀ mark (t₀ :: ts) with ⟨found, _⟩ | ⟨_, other⟩
  · exact found
  · exact absurd rfl other

/-- What the grammar derives is what the parser takes, with its tree. -/
theorem part_complete {p : Part} (derives : Derives p ts c) (follow : Follow p rest)
    (enough : 4 * (ts ++ rest).length + p.depth ≤ fuel) : parsePart p fuel (ts ++ rest) = done c rest := by
  induction derives generalizing rest fuel with
  | @line ts c n first ih =>
    obtain ⟨fuel, rfl⟩ : ∃ more, fuel = more + 1 := ⟨fuel - 1, by rw [Part.depth] at enough; omega⟩
    obtain ⟨behind, single, final⟩ := follow.pipe_of_line
    simp only [append_assoc, Part.depth, length_append, length_replicate] at enough ⊢
    have piped : parsepipe tokenScanner fuel _ = done _ _ := ih (Follow.amps n behind) (by simp [Part.depth]; omega)
    refine (bind_done piped).trans ((bind_done (parsebacks_complete single (by omega))).trans ?_)
    exact bind_done (peeks_missing rfl final)
  | @lines ts c ts' c' n first last ih ih' =>
    obtain ⟨fuel, rfl⟩ : ∃ more, fuel = more + 1 := ⟨fuel - 1, by rw [Part.depth] at enough; omega⟩
    have behind : Follow .pipe (.semi :: (ts' ++ rest)) := ⟨.inr ⟨_, _, rfl, by simp⟩, by simp⟩
    simp only [append_assoc, cons_append, Part.depth, length_append, length_replicate,
      length_cons] at enough ⊢
    have piped : parsepipe tokenScanner fuel _ = done _ _ := ih (Follow.amps n behind) (by simp [Part.depth]; omega)
    have rest' : parseline tokenScanner fuel _ = done _ _ := ih' follow (by simp [Part.depth]; omega)
    refine (bind_done piped).trans ((bind_done (parsebacks_complete (by simp) (by omega))).trans ?_)
    refine (bind_done (peeks_found .semi rfl)).trans ((bind_done token_cons).trans ?_)
    exact bind_done rest'
  | @pipe ts c only ih =>
    obtain ⟨fuel, rfl⟩ : ∃ more, fuel = more + 1 := ⟨fuel - 1, by rw [Part.depth] at enough; omega⟩
    have executed : parseexec tokenScanner fuel _ = done _ _ := ih follow.1 (by simp only [Part.depth] at enough ⊢; omega)
    exact (bind_done executed).trans (bind_done (peeks_missing rfl follow.2))
  | @pipes ts c ts' c' first last ih ih' =>
    obtain ⟨fuel, rfl⟩ : ∃ more, fuel = more + 1 := ⟨fuel - 1, by rw [Part.depth] at enough; omega⟩
    have behind : Follow .cmd (.bar :: (ts' ++ rest)) := .inr ⟨_, _, rfl, by simp⟩
    simp only [append_assoc, cons_append, Part.depth, length_append, length_cons] at enough ⊢
    have executed : parseexec tokenScanner fuel _ = done _ _ := ih behind (by simp [Part.depth]; omega)
    have rest' : parsepipe tokenScanner fuel _ = done _ _ := ih' follow (by simp [Part.depth]; omega)
    refine (bind_done executed).trans ((bind_done (peeks_found .bar rfl)).trans ((bind_done token_cons).trans ?_))
    exact bind_done rest'
  | @block ts c files inner ih =>
    have behind : Follow .line (.close :: ((files.flatMap fun f => [Tok.redir f.1, .word f.2]) ++ rest)) := .inr ⟨_, rfl⟩
    simp only [append_assoc, cons_append, Part.depth, length_append, length_cons] at enough ⊢
    obtain ⟨fuel, rfl⟩ : ∃ more, fuel = more + 2 := ⟨fuel - 2, by omega⟩
    have length := length_le_tokens (asItems files)
    rw [asItems_tokens, asItems, length_map] at length
    have lined : parseline tokenScanner fuel _ = done _ _ := ih behind (by simp [Part.depth] at enough ⊢; omega)
    refine (bind_done (peeks_found .open rfl)).trans ?_
    refine (bind_done (peeks_found .open rfl)).trans ((bind_done token_cons).trans ((bind_done lined).trans ?_))
    refine (bind_done (peeks_found .close rfl)).trans ((bind_done token_cons).trans ?_)
    exact parseredirs_complete follow.plain files (by omega)
  | simple items few =>
    obtain ⟨fuel, rfl⟩ : ∃ more, fuel = more + 1 := ⟨fuel - 1, by rw [Part.depth] at enough; omega⟩
    have length := length_le_tokens items
    simp only [Part.depth, length_append] at enough
    have other : (items.flatMap Item.tokens ++ rest).head? ≠ some .open := by
      cases items with
      | nil => exact follow.not_open
      | cons item items => cases item <;> simp [Item.tokens]
    have tree := foldl_apply items [] []
    rw [nil_append, nil_append] at tree
    rw [← tree]
    refine (bind_done (peeks_missing rfl other)).trans ?_
    exact parseargs_complete follow items (by rw [MAXARGS] at few ⊢; omega) (by omega) (by omega)

end Parts

end Xv6.User.Grammar
