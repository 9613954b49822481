import LearnTogether.Base.Exec

/-!
# Reading a shell command

What a POSIX shell makes of a string that is one simple command: token recognition byte by byte (`step`), the words
and redirections (`parse`), quote removal and pathname expansion (`expand`).  `read` gives `none` for a string that is
something else: several commands, a compound command, an unfinished quote, a here-document, or a word whose meaning
depends on an expansion other than pathname expansion.

A `$` or a backquote outside of single quotes is always counted as an expansion: what a `$` means that starts none is
left open by the standard.  Brace expansion is not POSIX, and a shell that does it nevertheless, as bash does under the
name of `sh`, is not modelled.  Which pathnames match a pattern depends on the locale too, as the ranges of a bracket
expression do; so `glob` is not restricted.
-/

namespace Shell

/-- What a byte means to the shell outside of quotes; `hash` and `tilde` mean nothing inside a word. -/
inductive Class
  | blank | newline | semicolon
  | hash | tilde
  | backslash | singleQuote | doubleQuote
  | expansion
  | less | greater
  | control
  | other
  deriving DecidableEq

def classify (b : UInt8) : Class :=
  if b = 32 ∨ b = 9 then .blank
  else if b = 10 then .newline
  else if b = 59 then .semicolon
  else if b = 35 then .hash
  else if b = 126 then .tilde
  else if b = 92 then .backslash
  else if b = 39 then .singleQuote
  else if b = 34 then .doubleQuote
  else if b = 36 ∨ b = 96 then .expansion
  else if b = 60 then .less
  else if b = 62 then .greater
  else if b = 38 ∨ b = 124 ∨ b = 40 ∨ b = 41 then .control
  else .other

/-- The byte stands for itself inside an unquoted word. -/
def plain (b : UInt8) : Bool :=
  match classify b with
  | .hash | .tilde | .other => true
  | _ => false

def quoting (b : UInt8) : Bool :=
  match classify b with
  | .backslash | .singleQuote | .doubleQuote => true
  | _ => false

structure Piece where
  byte : UInt8
  quoted : Bool
  deriving DecidableEq

abbrev Word := List Piece

/-- Quote removal. -/
def bytes (w : Word) : List UInt8 := w.map Piece.byte

inductive Op
  | input | output | append | clobber | dupInput | dupOutput | readWrite
  deriving DecidableEq

inductive Token
  | word (w : Word)
  | redirect (fd : Nat) (op : Op)
  deriving DecidableEq

/-- What the bytes before have left open: a backslash, outside of quotes or between double quotes, quotes, a comment,
or `<` or `>`. -/
inductive Mode
  | plain
  | escape
  | single
  | double
  | doubleEscape
  | comment
  | redirect (fd : Nat) (output : Bool)
  deriving DecidableEq

def Mode.unquoted : Mode → Bool
  | .plain | .comment | .redirect _ _ => true
  | _ => false

/-- `word` is the word that is being read; after the end of the command nothing may follow but comments. -/
structure State where
  mode : Mode := .plain
  word : Option Word := none
  ended : Bool := false
  tokens : List Token := []
  deriving DecidableEq

namespace State

def endWord (s : State) : State :=
  match s.word with
  | some w => { s with word := none, tokens := s.tokens ++ [.word w] }
  | none => s

def append (s : State) (ps : Word) : State := { s with word := some (s.word.getD [] ++ ps), mode := .plain }

/-- The digits before a redirection operator are the number of the file descriptor. -/
def ioNumber (s : State) : Option Nat :=
  match s.word with
  | some w =>
    if w ≠ [] ∧ w.all fun p => !p.quoted && decide (48 ≤ p.byte ∧ p.byte ≤ 57) then
      some (w.foldl (fun n p => 10 * n + (p.byte.toNat - 48)) 0)
    else none
  | none => none

/-- `<` or `>`. -/
def redirect (s : State) (output : Bool) : State :=
  match s.ioNumber with
  | some fd => { s with word := none, mode := .redirect fd output }
  | none => { s.endWord with mode := .redirect (if output then 1 else 0) output }

/-- The end of a command; an empty line is no command. -/
def endLine (s : State) : State :=
  { s.endWord with mode := .plain, ended := s.ended || s.word.isSome || !s.tokens.isEmpty }

/-- A byte outside of quotes. -/
def plainStep (s : State) (b : UInt8) : Option State :=
  match classify b with
  | .blank => some s.endWord
  | .newline => some s.endLine
  | .hash => if s.word.isNone then some { s with mode := .comment } else some (s.append [⟨b, false⟩])
  | c =>
    if s.ended then none
    else
      match c with
      | .semicolon => if s.endWord.tokens.isEmpty then none else some s.endLine
      | .tilde => if s.word.isNone then none else some (s.append [⟨b, false⟩])
      | .backslash => some { s with mode := .escape }
      | .singleQuote => some { s with word := some (s.word.getD []), mode := .single }
      | .doubleQuote => some { s with word := some (s.word.getD []), mode := .double }
      | .less => some (s.redirect false)
      | .greater => some (s.redirect true)
      | .expansion | .control => none
      | _ => some (s.append [⟨b, false⟩])

/-- The operator that starts with `<` or `>` and goes on with `b`, if there is one. -/
def longOp (output : Bool) (b : UInt8) : Option Op :=
  if output then
    if b = 62 then some .append else if b = 38 then some .dupOutput else if b = 124 then some .clobber else none
  else if b = 62 then some .readWrite else if b = 38 then some .dupInput else none

def step (s : State) (b : UInt8) : Option State :=
  match s.mode with
  | .plain => s.plainStep b
  | .escape => if b = 10 then some { s with mode := .plain } else some (s.append [⟨b, true⟩])
  | .single =>
    if b = 39 then some { s with mode := .plain } else some { s.append [⟨b, true⟩] with mode := .single }
  | .double =>
    match classify b with
    | .doubleQuote => some { s with mode := .plain }
    | .backslash => some { s with mode := .doubleEscape }
    | .expansion => none
    | _ => some { s.append [⟨b, true⟩] with mode := .double }
  | .doubleEscape =>
    match classify b with
    | .doubleQuote | .backslash | .expansion => some { s.append [⟨b, true⟩] with mode := .double }
    | .newline => some { s with mode := .double }
    | _ => some { s.append [⟨92, true⟩, ⟨b, true⟩] with mode := .double }
  | .comment => if b = 10 then some s.endLine else some s
  | .redirect fd output =>
    match longOp output b with
    | some op => some { s with mode := .plain, tokens := s.tokens ++ [.redirect fd op] }
    | none =>
      -- `<<` starts a here-document
      if !output && b = 60 then none
      else
        plainStep { s with
          mode := .plain
          tokens := s.tokens ++ [.redirect fd (if output then .output else .input)] } b

def steps : State → List UInt8 → Option State := Exec.exec step

/-- The tokens, when the string may end here. -/
def finish (s : State) : Option (List Token) :=
  match s.mode with
  | .plain | .comment => some s.endWord.tokens
  | _ => none

end State

structure Redirect where
  fd : Nat
  op : Op
  target : Word
  deriving DecidableEq

/-- A simple command, if its first word is neither a reserved word nor an assignment. -/
structure Command where
  words : List Word := []
  redirects : List Redirect := []
  deriving DecidableEq

def parse : List Token → Option Command
  | [] => some {}
  | .word w :: ts => (parse ts).map fun c => { c with words := w :: c.words }
  | .redirect fd op :: .word w :: ts => (parse ts).map fun c => { c with redirects := ⟨fd, op, w⟩ :: c.redirects }
  | .redirect _ _ :: _ => none

def read (line : List UInt8) : Option Command := do
  let s ← State.steps {} line
  let tokens ← s.finish
  parse tokens

/-- A bracket expression goes on after `[`: it is closed in the same component of the pathname. -/
def closesBracket (w : Word) : Bool :=
  let w := if w.head? = some ⟨33, false⟩ then w.tail else w
  match w with
  | [] => false
  | p :: w => p.byte ≠ 47 && (w.takeWhile fun q => decide (q.byte ≠ 47)).contains ⟨93, false⟩

/-- The word is a pattern for pathname expansion. -/
def isPattern : Word → Bool
  | [] => false
  | p :: w => p = ⟨42, false⟩ || p = ⟨63, false⟩ || (p = ⟨91, false⟩ && closesBracket w) || isPattern w

/-- Pathname expansion and quote removal; `glob` finds the pathnames that match a pattern. -/
def expand (glob : Word → List (List UInt8)) (w : Word) : List (List UInt8) :=
  if isPattern w ∧ glob w ≠ [] then glob w else [bytes w]

/-- What a simple command runs: the arguments, from the name of the command on, and the redirections. -/
structure Invocation where
  argv : List (List UInt8)
  redirects : List (Nat × Op × List UInt8)
  deriving DecidableEq

/-- The invocation that the string leads to in a directory described by `glob`. -/
def run (glob : Word → List (List UInt8)) (line : List UInt8) : Option Invocation :=
  (read line).map fun c => ⟨c.words.flatMap (expand glob), c.redirects.map fun r => (r.fd, r.op, bytes r.target)⟩

end Shell
