/-!
# Tokens of JSON text

A text is read one character at a time by a machine that is between tokens,
inside a string, or inside a run of characters that belong to a number or a
word.  A run is judged when it ends: it is a numeral of the JSON grammar, one of
the three words of JSON, or no token at all.

The characters of a string are kept as pieces, a plain character or a `\u`
escape with its code.  A string is a text if its escapes are code points or
well-formed surrogate pairs; a string that is no text is still a token.
-/

namespace TaskLoom.Json

/-- A numeral: plain digits, or any other number of the grammar. -/
inductive Numeral where
  /-- Digits only, without sign, fraction and exponent. -/
  | natural (n : Nat)
  /-- A number with a sign, a fraction or an exponent, as it is written. -/
  | other (run : List Char)
deriving DecidableEq, Repr

/-- A part of a string. -/
inductive Piece where
  | plain (c : Char)
  /-- A `\u` escape. -/
  | unit (code : Nat)
deriving DecidableEq, Repr

/-- A token of JSON text. -/
inductive Token where
  | openBrace
  | closeBrace
  | openBracket
  | closeBracket
  | colon
  | comma
  | null
  | bool (b : Bool)
  | numeral (n : Numeral)
  | string (pieces : List Piece)
deriving DecidableEq, Repr

/-! ## Strings -/

/-- The text that pieces stand for: an escape in the surrogate range counts only
as the first half of a pair whose second half follows at once. -/
def decode : List Piece → Option (List Char)
  | [] => some []
  | .plain c :: rest => (decode rest).map (c :: ·)
  | .unit hi :: .unit lo :: rest =>
    if 0xD800 ≤ hi ∧ hi < 0xDC00 then
      if 0xDC00 ≤ lo ∧ lo < 0xE000 then
        let code := 0x10000 + (hi - 0xD800) * 0x400 + (lo - 0xDC00)
        (decode rest).map (Char.ofNat code :: ·)
      else none
    else if 0xDC00 ≤ hi ∧ hi < 0xE000 then none
    else (decode (.unit lo :: rest)).map (Char.ofNat hi :: ·)
  | .unit code :: rest =>
    if 0xD800 ≤ code ∧ code < 0xE000 then none
    else (decode rest).map (Char.ofNat code :: ·)

/-- The value of a hexadecimal digit. -/
def hexValue (c : Char) : Option Nat :=
  if '0' ≤ c ∧ c ≤ '9' then some (c.toNat - '0'.toNat)
  else if 'a' ≤ c ∧ c ≤ 'f' then some (c.toNat - 'a'.toNat + 10)
  else if 'A' ≤ c ∧ c ≤ 'F' then some (c.toNat - 'A'.toNat + 10)
  else none

/-- The character that a letter stands for after a backslash. -/
def shortEscape : Char → Option Char
  | '"' => some '"'
  | '\\' => some '\\'
  | '/' => some '/'
  | 'b' => some '\x08'
  | 'f' => some '\x0c'
  | 'n' => some '\n'
  | 'r' => some '\r'
  | 't' => some '\t'
  | _ => none

/-! ## Numerals and words -/

/-- The value of decimal digits. -/
def naturalOf (digits : List Char) : Nat :=
  digits.foldl (fun n c => n * 10 + (c.toNat - '0'.toNat)) 0

/-- An exponent: a mark, perhaps a sign, and digits. -/
def isExponent : List Char → Bool
  | mark :: sign :: rest =>
    (mark == 'e' || mark == 'E') &&
      (if sign == '+' || sign == '-' then !rest.isEmpty && rest.all Char.isDigit
       else sign.isDigit && rest.all Char.isDigit)
  | _ => false

/-- What may follow the digits before the point: a fraction, an exponent or both. -/
def isTail : List Char → Bool
  | [] => true
  | '.' :: rest =>
    let fraction := rest.takeWhile Char.isDigit
    let exponent := rest.dropWhile Char.isDigit
    !fraction.isEmpty && (exponent.isEmpty || isExponent exponent)
  | rest => isExponent rest

/-- The digits before the point: a zero alone, or digits that start with another. -/
def isWhole : List Char → Bool
  | [] => false
  | ['0'] => true
  | '0' :: _ => false
  | digits => digits.all Char.isDigit

/-- A run of characters as a numeral of the JSON grammar. -/
def Numeral.ofRun (run : List Char) : Option Numeral :=
  let unsigned := match run with
    | '-' :: rest => rest
    | rest => rest
  let whole := unsigned.takeWhile Char.isDigit
  let tail := unsigned.dropWhile Char.isDigit
  if isWhole whole && isTail tail then
    if run.all Char.isDigit then some (.natural (naturalOf run)) else some (.other run)
  else none

/-- A run of characters as a token. -/
def Token.ofRun (run : List Char) : Option Token :=
  if run = ['n', 'u', 'l', 'l'] then some .null
  else if run = ['t', 'r', 'u', 'e'] then some (.bool true)
  else if run = ['f', 'a', 'l', 's', 'e'] then some (.bool false)
  else (Numeral.ofRun run).map .numeral

/-! ## The machine -/

/-- Where the reader is.  Collected characters and pieces are kept last first. -/
inductive Mode where
  | between
  | run (chars : List Char)
  | text (pieces : List Piece)
  /-- After a backslash. -/
  | escape (pieces : List Piece)
  /-- Inside a `\u` escape, with the digits still to come. -/
  | code (pieces : List Piece) (missing value : Nat)
deriving DecidableEq, Repr

/-- The reader: where it is, and the tokens so far, last first. -/
structure Reader where
  mode : Mode
  tokens : List Token
deriving DecidableEq, Repr

/-- Whether a character can stand in a numeral or a word. -/
def isRunChar (c : Char) : Bool :=
  c.isAlphanum || c == '-' || c == '+' || c == '.'

/-- The token that a punctuation mark is. -/
def punctuation : Char → Option Token
  | '\x7b' => some .openBrace
  | '\x7d' => some .closeBrace
  | '[' => some .openBracket
  | ']' => some .closeBracket
  | ':' => some .colon
  | ',' => some .comma
  | _ => none

/-- Reads a character between tokens. -/
def Reader.begin (tokens : List Token) (c : Char) : Option Reader :=
  if c = ' ' ∨ c = '\t' ∨ c = '\n' ∨ c = '\r' then some ⟨.between, tokens⟩
  else if c = '"' then some ⟨.text [], tokens⟩
  else if isRunChar c then some ⟨.run [c], tokens⟩
  else (punctuation c).map fun token => ⟨.between, token :: tokens⟩

/-- Reads one character. -/
def Reader.step (r : Reader) (c : Char) : Option Reader :=
  match r.mode with
  | .between => Reader.begin r.tokens c
  | .run chars =>
    if isRunChar c then some { r with mode := .run (c :: chars) }
    else (Token.ofRun chars.reverse).bind fun token => Reader.begin (token :: r.tokens) c
  | .text pieces =>
    if c = '"' then some ⟨.between, .string pieces.reverse :: r.tokens⟩
    else if c = '\\' then some { r with mode := .escape pieces }
    else if c.toNat < 0x20 then none
    else some { r with mode := .text (.plain c :: pieces) }
  | .escape pieces =>
    if c = 'u' then some { r with mode := .code pieces 4 0 }
    else (shortEscape c).map fun plain => { r with mode := .text (.plain plain :: pieces) }
  | .code pieces missing value =>
    (hexValue c).map fun digit =>
      let value := value * 16 + digit
      if missing ≤ 1 then { r with mode := .text (.unit value :: pieces) }
      else { r with mode := .code pieces (missing - 1) value }

/-- The tokens of a text that ends here. -/
def Reader.finish (r : Reader) : Option (List Token) :=
  match r.mode with
  | .between => some r.tokens.reverse
  | .run chars => (Token.ofRun chars.reverse).map fun token => (token :: r.tokens).reverse
  | _ => none

/-- The tokens of a text, if it consists of tokens. -/
def tokens (text : List Char) : Option (List Token) :=
  (text.foldlM Reader.step ⟨.between, []⟩).bind Reader.finish

end TaskLoom.Json
