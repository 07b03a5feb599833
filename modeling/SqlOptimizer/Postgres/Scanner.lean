import Mathlib.Data.List.DropRight
import Mathlib.Data.List.Infix
import SqlOptimizer.Logic.Transducers

/-!
The scanner of `src_backend_parser_scan.c` on the characters that printed expressions are
made of. It reads one character at a time; the state is the token under way.

The result is `none` where the scanner reports an error, and for the tokens that are in no
printed expression: quoted identifiers, parameters, dollar quotes, strings with a prefix
letter, `::`, `:=`, `..`, `=>`, brackets and semicolons. The placeholder `?`, which
libpg_query adds to the rules of PostgreSQL, is an operator character like the others.
-/

set_option autoImplicit false
set_option relaxedAutoImplicit false

namespace SqlOptimizer.Postgres.Scanner

open Logic.Transducers

inductive Token where
  | word (w : String)
  | string (s : String)
  | integer (n : Nat)
  | float (text : String)
  | operator (o : String)
  | lpar
  | rpar
  | comma
  | dot
  deriving DecidableEq, Repr

/-- `space`. -/
def spaces : List Char := [' ', '\t', '\n', '\r', '\x0c']

def isSpace (c : Char) : Bool := c ∈ spaces

/-- `newline`. -/
def isNewline (c : Char) : Bool := c = '\n' || c = '\r'

/-- `ident_start`. -/
def isIdentStart (c : Char) : Bool := c.isAlpha || c = '_' || 128 ≤ c.toNat

/-- `ident_cont`. -/
def isIdentCont (c : Char) : Bool := isIdentStart c || c.isDigit || c = '$'

/-- `op_chars`. -/
def opChars : List Char :=
  ['~', '!', '@', '#', '^', '&', '|', '`', '?', '+', '-', '*', '/', '%', '<', '>', '=']

def isOpChar (c : Char) : Bool := c ∈ opChars

/-- The characters that let an operator end in a sign. -/
def isSpecial (c : Char) : Bool := c ∈ ['~', '!', '@', '#', '^', '&', '|', '`', '?', '%']

def isSign (c : Char) : Bool := c = '+' || c = '-'

/-- The token under way. -/
inductive Mode where
  | blank
  | dot
  | word (w : List Char)
  /-- A word `u` and an ampersand. -/
  | unicode (w : List Char)
  | integer (ds : List Char)
  | decimal (ds : List Char)
  /-- A number and the letter of an exponent, which may have no digits. -/
  | exponent (ds : List Char) (e : Char)
  | exponentSign (ds : List Char) (e sign : Char)
  | real (ds : List Char)
  | operator (os : List Char)
  | string (s : List Char)
  /-- A string whose quote was the last character. -/
  | quote (s : List Char)
  /-- A string with blanks after it. It goes on at a quote behind a newline. -/
  | quoteBlank (s : List Char) (newline : Bool)
  | quoteDash (s : List Char) (newline : Bool)
  | quoteComment (s : List Char) (newline : Bool)
  | lineComment
  | blockComment (depth : Nat) (last : Char)
  deriving DecidableEq, Repr

/-- `downcase_truncate_identifier`; the names of a parse tree are short enough. -/
def wordToken (w : List Char) : Token := .word (String.ofList (w.map Char.toLower))

def digitsValue (ds : List Char) : Nat := ds.foldl (fun n c => 10 * n + (c.toNat - '0'.toNat)) 0

/-- `process_integer_literal`. -/
def numberToken (ds : List Char) : Token :=
  if ds.all Char.isDigit && digitsValue ds < 2 ^ 31 then .integer (digitsValue ds)
  else .float (String.ofList ds)

def operatorToken (os : List Char) : Option Token :=
  if os = ['=', '>'] then none
  else if os = ['!', '='] then some (.operator "<>")
  else some (.operator (String.ofList os))

/-- The operators of a run of operator characters: the last signs are operators of their
own unless a special character is among them. -/
def operatorTokens : List Char → Option (List Token)
  | [] => some []
  | o :: os =>
      if (o :: os).any isSpecial then (operatorToken (o :: os)).map fun t => [t]
      else (operatorToken (o :: os.rdropWhile isSign)).map fun t =>
        t :: (os.rtakeWhile isSign).map fun c => .operator (String.ofList [c])

/-- The tokens of the token under way when the text ends or another token starts. -/
def pending : Mode → Option (List Token)
  | .blank | .lineComment => some []
  | .dot => some [.dot]
  | .word w => some [wordToken w]
  | .unicode w => some [wordToken w, .operator "&"]
  | .integer ds | .decimal ds | .real ds => some [numberToken ds]
  | .exponent ds e => some [numberToken ds, wordToken [e]]
  | .exponentSign ds e sign =>
      some [numberToken ds, wordToken [e], .operator (String.ofList [sign])]
  | .operator os => operatorTokens os
  | .quote s | .quoteBlank s _ | .quoteComment s _ => some [.string (String.ofList s)]
  | .quoteDash s _ => some [.string (String.ofList s), .operator "-"]
  | .string _ | .blockComment _ _ => none

/-- The first character of a token. -/
def start (c : Char) : Option (List Token × Mode) :=
  if isSpace c then some ([], .blank)
  else if c = '\'' then some ([], .string [])
  else if c.isDigit then some ([], .integer [c])
  else if isIdentStart c then some ([], .word [c])
  else if isOpChar c then some ([], .operator [c])
  else if c = '(' then some ([.lpar], .blank)
  else if c = ')' then some ([.rpar], .blank)
  else if c = ',' then some ([.comma], .blank)
  else if c = '.' then some ([], .dot)
  else none

/-- The token under way ends before the character. -/
def close (m : Mode) (c : Char) : Option (List Token × Mode) :=
  (pending m).bind fun ts => emit ts (start c)

/-- The letters that a quote may follow in one token. -/
def isLiteralPrefix (w : List Char) : Bool :=
  w.map Char.toLower ∈ [['b'], ['e'], ['n'], ['x']]

def wordStep (w : List Char) (c : Char) : Option (List Token × Mode) :=
  if isIdentCont c then some ([], .word (w ++ [c]))
  else if c = '\'' && isLiteralPrefix w then none
  else if c = '&' && w.map Char.toLower = ['u'] then some ([], .unicode w)
  else close (.word w) c

/-- A comment opener ends a run of operator characters. -/
def operatorStep (os : List Char) (c : Char) : Option (List Token × Mode) :=
  if !isOpChar c then close (.operator os) c
  else if c = '-' && os.getLast? = some '-' then
    (operatorTokens os.dropLast).map fun ts => (ts, .lineComment)
  else if c = '*' && os.getLast? = some '/' then
    (operatorTokens os.dropLast).map fun ts => (ts, .blockComment 0 ' ')
  else some ([], .operator (os ++ [c]))

/-- After the quote of a string and blanks. -/
def quoteStep (s : List Char) (newline : Bool) (c : Char) : Option (List Token × Mode) :=
  if isSpace c then some ([], .quoteBlank s (newline || isNewline c))
  else if c = '-' then some ([], .quoteDash s newline)
  else if c = '\'' && newline then some ([], .string s)
  else close (.quoteBlank s newline) c

/-- A block comment ends. -/
def closeComment : Nat → Mode
  | 0 => .blank
  | depth + 1 => .blockComment depth ' '

def isExponentLetter (c : Char) : Bool := c = 'e' || c = 'E'

def step : Mode → Char → Option (List Token × Mode)
  | .blank, c => start c
  | .dot, c =>
      if c.isDigit then some ([], .decimal ['.', c])
      else if c = '.' then none
      else close .dot c
  | .word w, c => wordStep w c
  | .unicode w, c =>
      if c = '\'' || c = '"' then none else emit [wordToken w] (operatorStep ['&'] c)
  | .integer ds, c =>
      if c.isDigit then some ([], .integer (ds ++ [c]))
      else if c = '.' then some ([], .decimal (ds ++ [c]))
      else if isExponentLetter c then some ([], .exponent ds c)
      else close (.integer ds) c
  | .decimal ds, c =>
      if c.isDigit then some ([], .decimal (ds ++ [c]))
      else if c = '.' && ds.getLast? = some '.' then none
      else if isExponentLetter c then some ([], .exponent ds c)
      else close (.decimal ds) c
  | .exponent ds e, c =>
      if c.isDigit then some ([], .real (ds ++ [e, c]))
      else if isSign c then some ([], .exponentSign ds e c)
      else emit [numberToken ds] (wordStep [e] c)
  | .exponentSign ds e sign, c =>
      if c.isDigit then some ([], .real (ds ++ [e, sign, c]))
      else emit [numberToken ds, wordToken [e]] (operatorStep [sign] c)
  | .real ds, c => if c.isDigit then some ([], .real (ds ++ [c])) else close (.real ds) c
  | .operator os, c => operatorStep os c
  | .string s, c => if c = '\'' then some ([], .quote s) else some ([], .string (s ++ [c]))
  | .quote s, c => if c = '\'' then some ([], .string (s ++ [c])) else quoteStep s false c
  | .quoteBlank s newline, c => quoteStep s newline c
  | .quoteDash s newline, c =>
      if c = '-' then some ([], .quoteComment s newline)
      else emit [.string (String.ofList s)] (operatorStep ['-'] c)
  | .quoteComment s newline, c =>
      if isNewline c then some ([], .quoteBlank s true) else some ([], .quoteComment s newline)
  | .lineComment, c => if isNewline c then some ([], .blank) else some ([], .lineComment)
  | .blockComment depth last, c =>
      if last = '*' && c = '/' then some ([], closeComment depth)
      else if last = '/' && c = '*' then some ([], .blockComment (depth + 1) ' ')
      else some ([], .blockComment depth c)

/-- The tokens of a text. -/
def scan (text : String) : Option (List Token) := output step pending .blank text.toList

end SqlOptimizer.Postgres.Scanner
