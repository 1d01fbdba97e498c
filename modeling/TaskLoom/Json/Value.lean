import TaskLoom.Json.Token

/-!
# JSON values

Tokens are put together by a machine with a stack: the arrays and objects that
are open, each with what it holds so far.  It looks at one token at a time and
never back, so a text of any depth is read in one pass.

An object keeps all its fields in order, repeated ones too.  A string that is no
text (see `TaskLoom.Json.decode`) is `none`.

`Json.print` writes a value without blanks.
-/

namespace TaskLoom

/-- A JSON value. -/
inductive Json where
  | null
  | bool (b : Bool)
  | numeral (n : Json.Numeral)
  | string (text : Option String)
  | array (items : List Json)
  | object (fields : List (Option String × Json))
deriving Repr, Inhabited

namespace Json

/-! ## Reading -/

/-- An array or object that is open around the value being read.  What it holds
is kept last first. -/
inductive Frame where
  | items (items : List Json)
  | field (fields : List (Option String × Json)) (key : Option String)
deriving Repr

/-- What comes next. -/
inductive Builder where
  | value (stack : List Frame)
  | firstItem (stack : List Frame)
  | firstField (stack : List Frame)
  | field (fields : List (Option String × Json)) (stack : List Frame)
  | colon (fields : List (Option String × Json)) (key : Option String) (stack : List Frame)
  | afterItem (items : List Json) (stack : List Frame)
  | afterField (fields : List (Option String × Json)) (stack : List Frame)
  | finished (json : Json)
deriving Repr

namespace Builder

/-- Puts a complete value where it belongs. -/
def complete (json : Json) : List Frame → Builder
  | [] => .finished json
  | .items items :: stack => .afterItem (json :: items) stack
  | .field fields key :: stack => .afterField ((key, json) :: fields) stack

/-- The text of a string token. -/
def textOf (pieces : List Piece) : Option String :=
  (decode pieces).map String.ofList

/-- Reads the first token of a value. -/
def start (stack : List Frame) : Token → Option Builder
  | .null => some (complete .null stack)
  | .bool b => some (complete (.bool b) stack)
  | .numeral n => some (complete (.numeral n) stack)
  | .string pieces => some (complete (.string (textOf pieces)) stack)
  | .openBracket => some (.firstItem stack)
  | .openBrace => some (.firstField stack)
  | _ => none

/-- Reads one token. -/
def step : Builder → Token → Option Builder
  | .value stack, token => start stack token
  | .firstItem stack, .closeBracket => some (complete (.array []) stack)
  | .firstItem stack, token => start (.items [] :: stack) token
  | .firstField stack, .closeBrace => some (complete (.object []) stack)
  | .firstField stack, .string pieces => some (.colon [] (textOf pieces) stack)
  | .field fields stack, .string pieces => some (.colon fields (textOf pieces) stack)
  | .colon fields key stack, .colon => some (.value (.field fields key :: stack))
  | .afterItem items stack, .comma => some (.value (.items items :: stack))
  | .afterItem items stack, .closeBracket => some (complete (.array items.reverse) stack)
  | .afterField fields stack, .comma => some (.field fields stack)
  | .afterField fields stack, .closeBrace => some (complete (.object fields.reverse) stack)
  | _, _ => none

end Builder

/-- The value that tokens stand for. -/
def ofTokens (tokens : List Token) : Option Json :=
  match tokens.foldlM Builder.step (.value []) with
  | some (.finished json) => some json
  | _ => none

/-- The value of a text. -/
def parse (text : String) : Option Json :=
  (tokens text.toList).bind ofTokens

/-! ## Writing -/

/-- The hexadecimal digit of a number below sixteen. -/
def hexDigit (n : Nat) : Char :=
  Char.ofNat (if n < 10 then 48 + n else 87 + n)

/-- How a character stands in a string. -/
def escape (c : Char) : List Char :=
  if c = '"' then ['\\', '"']
  else if c = '\\' then ['\\', '\\']
  else if c.toNat < 0x20 then
    ['\\', 'u', '0', '0', hexDigit (c.toNat / 16), hexDigit (c.toNat % 16)]
  else [c]

/-- A string in quotes. -/
def quote (text : String) : List Char :=
  '"' :: (text.toList.flatMap escape ++ ['"'])

/-- A lone half of a surrogate pair, the shortest string that is no text. -/
def lone : List Char :=
  ['"', '\\', 'u', 'd', '8', '0', '0', '"']

/-- A string, text or not. -/
def quoteOrLone : Option String → List Char
  | some text => quote text
  | none => lone

/-- A numeral as it is written. -/
def Numeral.print : Numeral → List Char
  | .natural n => Nat.toDigits 10 n
  | .other run => run

mutual

/-- A value without blanks. -/
def print : Json → List Char
  | .null => ['n', 'u', 'l', 'l']
  | .bool true => ['t', 'r', 'u', 'e']
  | .bool false => ['f', 'a', 'l', 's', 'e']
  | .numeral n => n.print
  | .string text => quoteOrLone text
  | .array [] => ['[', ']']
  | .array (item :: items) => '[' :: (print item ++ printItems items)
  | .object [] => ['\x7b', '\x7d']
  | .object ((key, json) :: fields) =>
    '\x7b' :: (quoteOrLone key ++ ':' :: (print json ++ printFields fields))

/-- The items after the first, with the closing bracket. -/
def printItems : List Json → List Char
  | [] => [']']
  | item :: items => ',' :: (print item ++ printItems items)

/-- The fields after the first, with the closing brace. -/
def printFields : List (Option String × Json) → List Char
  | [] => ['\x7d']
  | (key, json) :: fields => ',' :: (quoteOrLone key ++ ':' :: (print json ++ printFields fields))

end

end Json

end TaskLoom
