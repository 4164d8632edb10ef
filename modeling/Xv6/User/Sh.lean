import Xv6.Lib.Parsing

/-! The parser of user/sh.c. -/

namespace Xv6.User.Sh

open Lib.Parsing

def MAXARGS : Nat := 10

def O_RDONLY : Nat := 0x000
def O_WRONLY : Nat := 0x001
def O_CREATE : Nat := 0x200
def O_TRUNC : Nat := 0x400

inductive Cmd (α : Type) : Type
  | exec (argv : List α)
  | redir (cmd : Cmd α) (file : α) (mode fd : Nat)
  | pipe (left right : Cmd α)
  | list (left right : Cmd α)
  | back (cmd : Cmd α)

def whitespace : List Char := [' ', '\t', '\r', '\n', '\x0b']

def symbols : List Char := ['<', '|', '>', '&', ';', '(', ')']

def strchr (s : List Char) (c : Char) : Bool := s.contains c

def charAt (text : List Char) (s : Nat) : Char := text.getD s '\x00'

def skipWhile (test : Char → Bool) (text : List Char) (s : Nat) : Nat :=
  if s < text.length ∧ test (charAt text s) = true then skipWhile test text (s + 1) else s
termination_by text.length - s

/-- The switch of gettoken: what it returns, and the pointer after it. -/
def tokenAt (text : List Char) (s : Nat) : Char × Nat :=
  let c := charAt text s
  if c = '\x00' then (c, s)
  else if c = '|' ∨ c = '(' ∨ c = ')' ∨ c = ';' ∨ c = '&' ∨ c = '<' then (c, s + 1)
  else if c = '>' then if charAt text (s + 1) = '>' then ('+', s + 2) else (c, s + 1)
  else ('a', skipWhile (fun c => !strchr whitespace c && !strchr symbols c) text s)

def gettoken (text : List Char) (s : Nat) : (Char × Nat × Nat) × Nat :=
  let q := skipWhile (strchr whitespace) text s
  let (ret, eq) := tokenAt text q
  ((ret, q, eq), skipWhile (strchr whitespace) text eq)

def peek (text : List Char) (toks : List Char) (s : Nat) : Bool × Nat :=
  let s := skipWhile (strchr whitespace) text s
  (charAt text s != '\x00' && strchr toks (charAt text s), s)

/-- What the parser reads its tokens from: the two functions above, over a pointer and pairs of pointers. -/
structure Scanner (σ α : Type) where
  peek : List Char → σ → Bool × σ
  gettoken : σ → (Char × α) × σ

def scanner (text : List Char) : Scanner Nat (Nat × Nat) where
  peek := peek text
  gettoken := gettoken text

section Parser
variable {σ α : Type} (scan : Scanner σ α)

def peeks (toks : List Char) : Parse σ Bool := fun s => some (.ok (scan.peek toks s))

def token : Parse σ (Char × α) := fun s => some (.ok (scan.gettoken s))

def panic (message : String) : Parse σ α := fail (message ++ "\n")

def redirect (tok : Char) (cmd : Cmd α) (file : α) : Cmd α :=
  if tok = '<' then .redir cmd file O_RDONLY 0
  else if tok = '>' then .redir cmd file (O_WRONLY ||| O_CREATE ||| O_TRUNC) 1
  else if tok = '+' then .redir cmd file (O_WRONLY ||| O_CREATE) 1
  else cmd

def parseredirs : Nat → Cmd α → Parse σ (Cmd α)
  | 0, _ => stuck
  | fuel + 1, cmd => do
    if ← peeks scan ['<', '>'] then
      let (tok, _) ← token scan
      let (kind, file) ← token scan
      if kind ≠ 'a' then panic "missing file for redirection"
      else parseredirs fuel (redirect tok cmd file)
    else pure cmd

/-- Adds a word to argv of the execcmd, which may be inside redirections already. -/
def addArg : Cmd α → α → Cmd α
  | .exec argv, word => .exec (argv ++ [word])
  | .redir cmd file mode fd, word => .redir (addArg cmd word) file mode fd
  | cmd, _ => cmd

def parseargs : Nat → Nat → Cmd α → Parse σ (Cmd α)
  | 0, _, _ => stuck
  | fuel + 1, argc, ret => do
    if ← peeks scan ['|', ')', '&', ';'] then pure ret
    else
      let (tok, word) ← token scan
      if tok = '\x00' then pure ret
      else if tok ≠ 'a' then panic "syntax"
      else
        let ret := addArg ret word
        let argc := argc + 1
        if MAXARGS ≤ argc then panic "too many args"
        else
          let ret ← parseredirs scan fuel ret
          parseargs fuel argc ret

def parsebacks : Nat → Cmd α → Parse σ (Cmd α)
  | 0, _ => stuck
  | fuel + 1, cmd => do
    if ← peeks scan ['&'] then
      let _ ← token scan
      parsebacks fuel (.back cmd)
    else pure cmd

mutual

def parseline : Nat → Parse σ (Cmd α)
  | 0 => stuck
  | fuel + 1 => do
    let cmd ← parsepipe fuel
    let cmd ← parsebacks scan fuel cmd
    if ← peeks scan [';'] then
      let _ ← token scan
      let right ← parseline fuel
      pure (.list cmd right)
    else pure cmd

def parsepipe : Nat → Parse σ (Cmd α)
  | 0 => stuck
  | fuel + 1 => do
    let cmd ← parseexec fuel
    if ← peeks scan ['|'] then
      let _ ← token scan
      let right ← parsepipe fuel
      pure (.pipe cmd right)
    else pure cmd

def parseexec : Nat → Parse σ (Cmd α)
  | 0 => stuck
  | fuel + 1 => do
    if ← peeks scan ['('] then parseblock fuel
    else
      let ret ← parseredirs scan fuel (.exec [])
      parseargs scan fuel 0 ret

def parseblock : Nat → Parse σ (Cmd α)
  | 0 => stuck
  | fuel + 1 => do
    if ← peeks scan ['('] then
      let _ ← token scan
      let cmd ← parseline fuel
      if ← peeks scan [')'] then
        let _ ← token scan
        parseredirs scan fuel cmd
      else panic "syntax - missing )"
    else panic "parseblock"

end

end Parser

/-- Writes a NUL at the end of every string, in the buffer of the line. -/
def nulterminate : Cmd (Nat × Nat) → List Char → List Char
  | .exec argv, buffer => argv.foldl (fun buffer word => buffer.set word.2 '\x00') buffer
  | .redir cmd file _ _, buffer => (nulterminate cmd buffer).set file.2 '\x00'
  | .pipe left right, buffer => nulterminate right (nulterminate left buffer)
  | .list left right, buffer => nulterminate right (nulterminate left buffer)
  | .back cmd, buffer => nulterminate cmd buffer

/-- The tree and the buffer, for a line of text before its NUL; or what is printed before the exit. -/
def parsecmd (fuel : Nat) (text : List Char) : Option (Except String (Cmd (Nat × Nat) × List Char)) :=
  match parseline (scanner text) fuel 0 with
  | none => none
  | some (.error message) => some (.error message)
  | some (.ok (cmd, s)) =>
    let s := (peek text [] s).2
    if s ≠ text.length then some (.error ("leftovers: " ++ String.ofList (text.drop s) ++ "\n" ++ "syntax\n"))
    else some (.ok (cmd, nulterminate cmd (text ++ ['\x00'])))

def cstring (buffer : List Char) (q : Nat) : List Char := (buffer.drop q).takeWhile (· ≠ '\x00')

def Cmd.map {α β : Type} (f : α → β) : Cmd α → Cmd β
  | .exec argv => .exec (argv.map f)
  | .redir cmd file mode fd => .redir (cmd.map f) (f file) mode fd
  | .pipe left right => .pipe (left.map f) (right.map f)
  | .list left right => .list (left.map f) (right.map f)
  | .back cmd => .back (cmd.map f)

end Xv6.User.Sh
