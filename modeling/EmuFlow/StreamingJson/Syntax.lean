import Mathlib.Data.List.TakeWhile

/-!
# Streaming JSON: concrete syntax

The texts that Python's `json` decoder accepts, as trees that keep every character: white space
sits in the tree, so that `render` gives the text back. What Python makes of a text is the `value`
of its tree.
-/

namespace EmuFlow.StreamingJson

abbrev Text := List Char

def isJsonSpace (c : Char) : Bool := c = ' ' || c = '\t' || c = '\n' || c = '\r'

/-- `str.isspace` for one character. -/
def isPySpace (c : Char) : Bool :=
  let n := c.toNat
  (9 ≤ n && n ≤ 13) || (28 ≤ n && n ≤ 32) || n = 0x85 || n = 0xA0 || n = 0x1680 ||
    (0x2000 ≤ n && n ≤ 0x200A) || n = 0x2028 || n = 0x2029 || n = 0x202F || n = 0x205F || n = 0x3000

theorem isPySpace_of_isJsonSpace {c : Char} (h : isJsonSpace c = true) : isPySpace c = true := by
  simp only [isJsonSpace, Bool.or_eq_true, decide_eq_true_eq] at h
  rcases h with ((rfl | rfl) | rfl) | rfl <;> decide

abbrev Space := { text : Text // ∀ c ∈ text, isJsonSpace c = true }

def noSpace : Space := ⟨[], fun _ h => absurd h List.not_mem_nil⟩

/-! ## numbers -/

def isDigit (c : Char) : Bool := '0' ≤ c && c ≤ '9'

/-- The integer part: `0`, or digits that do not start with `0`. -/
def scanNatural : Text → Option (Text × Text)
  | [] => none
  | c :: text =>
    if c = '0' then some ([c], text)
    else if isDigit c then some (c :: text.takeWhile isDigit, text.dropWhile isDigit)
    else none

def scanInteger : Text → Option (Text × Text)
  | [] => none
  | c :: text =>
    if c = '-' then (scanNatural text).map fun part => (c :: part.1, part.2)
    else scanNatural (c :: text)

/-- `(\.[0-9]+)?` -/
def scanFraction : Text → Text × Text
  | [] => ([], [])
  | c :: text =>
    if c = '.' ∧ text.takeWhile isDigit ≠ [] then
      (c :: text.takeWhile isDigit, text.dropWhile isDigit)
    else ([], c :: text)

def isSign (c : Char) : Bool := c = '+' || c = '-'

/-- `([eE][-+]?[0-9]+)?` -/
def scanExponent : Text → Text × Text
  | [] => ([], [])
  | [c] => ([], [c])
  | c :: d :: rest =>
    if c = 'e' ∨ c = 'E' then
      if isSign d ∧ rest.takeWhile isDigit ≠ [] then
        (c :: d :: rest.takeWhile isDigit, rest.dropWhile isDigit)
      else if isDigit d then
        (c :: d :: rest.takeWhile isDigit, rest.dropWhile isDigit)
      else ([], c :: d :: rest)
    else ([], c :: d :: rest)

/-- `NUMBER_RE.match`: the longest number the text starts with. -/
def scanNumber (text : Text) : Option (Text × Text) :=
  (scanInteger text).map fun integer =>
    let fraction := scanFraction integer.2
    let exponent := scanExponent fraction.2
    (integer.1 ++ fraction.1 ++ exponent.1, exponent.2)

abbrev Numeral := { text : Text // scanNumber text = some (text, []) }

def isNumberChar (c : Char) : Bool :=
  isDigit c || c = '-' || c = '+' || c = '.' || c = 'e' || c = 'E'

/-! ## strings -/

def hexValue (c : Char) : Option ℕ :=
  if '0' ≤ c ∧ c ≤ '9' then some (c.toNat - '0'.toNat)
  else if 'a' ≤ c ∧ c ≤ 'f' then some (c.toNat - 'a'.toNat + 10)
  else if 'A' ≤ c ∧ c ≤ 'F' then some (c.toNat - 'A'.toNat + 10)
  else none

/-- `_decode_uXXXX` -/
def decodeHex (a b c d : Char) : Option ℕ :=
  match hexValue a, hexValue b, hexValue c, hexValue d with
  | some a, some b, some c, some d => some (((a * 16 + b) * 16 + c) * 16 + d)
  | _, _, _, _ => none

def backslash : Char → Option Char
  | '"' => some '"'
  | '\\' => some '\\'
  | '/' => some '/'
  | 'b' => some '\x08'
  | 'f' => some '\x0c'
  | 'n' => some '\n'
  | 'r' => some '\r'
  | 't' => some '\t'
  | _ => none

/-- A piece of a string between its quotes. A control character is refused (`strict`). -/
inductive Piece where
  | plain (c : Char) (h : c ≠ '"' ∧ c ≠ '\\' ∧ 32 ≤ c.toNat)
  | escaped (c : Char) (h : (backslash c).isSome = true)
  | unicode (a b c d : Char) (h : (decodeHex a b c d).isSome = true)

def Piece.render : Piece → Text
  | .plain c _ => [c]
  | .escaped c _ => ['\\', c]
  | .unicode a b c d _ => ['\\', 'u', a, b, c, d]

/-- The code point of a piece, with `true` for one given by its number. -/
def Piece.unit : Piece → ℕ × Bool
  | .plain c _ => (c.toNat, false)
  | .escaped c h => (((backslash c).get h).toNat, false)
  | .unicode a b c d h => ((decodeHex a b c d).get h, true)

def joinSurrogates : List (ℕ × Bool) → List ℕ
  | [] => []
  | [(n, _)] => [n]
  | (n, true) :: (m, true) :: rest =>
    if 0xD800 ≤ n ∧ n ≤ 0xDBFF ∧ 0xDC00 ≤ m ∧ m ≤ 0xDFFF then
      (0x10000 + ((n - 0xD800) * 1024 + (m - 0xDC00))) :: joinSurrogates rest
    else n :: joinSurrogates ((m, true) :: rest)
  | (n, _) :: next :: rest => n :: joinSurrogates (next :: rest)

abbrev Pieces := List Piece

/-- A Python `str`, by its code points. -/
abbrev PyStr := List ℕ

def Pieces.value (pieces : Pieces) : PyStr := joinSurrogates (pieces.map Piece.unit)

def Pieces.render (pieces : Pieces) : Text := pieces.flatMap Piece.render ++ ['"']

/-! ## values -/

inductive Literal where
  | null | true | false | nan | infinity | negativeInfinity
deriving DecidableEq

def Literal.render : Literal → Text
  | .null => ['n', 'u', 'l', 'l']
  | .true => ['t', 'r', 'u', 'e']
  | .false => ['f', 'a', 'l', 's', 'e']
  | .nan => ['N', 'a', 'N']
  | .infinity => ['I', 'n', 'f', 'i', 'n', 'i', 't', 'y']
  | .negativeInfinity => ['-', 'I', 'n', 'f', 'i', 'n', 'i', 't', 'y']

mutual

inductive Tree where
  | literal (word : Literal)
  | number (numeral : Numeral)
  | string (pieces : Pieces)
  | emptyArray (inner : Space)
  | array (inner : Space) (items : Items)
  | emptyObject (inner : Space)
  | object (inner : Space) (members : Members)

inductive Items where
  | last (item : Tree) (after : Space)
  | more (item : Tree) (after before : Space) (items : Items)

inductive Members where
  | last (key : Pieces) (afterKey beforeItem : Space) (item : Tree) (after : Space)
  | more (key : Pieces) (afterKey beforeItem : Space) (item : Tree) (after before : Space)
      (members : Members)

end

mutual

def Tree.render : Tree → Text
  | .literal word => word.render
  | .number numeral => numeral.1
  | .string pieces => '"' :: pieces.render
  | .emptyArray inner => '[' :: (inner.1 ++ [']'])
  | .array inner items => '[' :: (inner.1 ++ items.render)
  | .emptyObject inner => '{' :: (inner.1 ++ ['}'])
  | .object inner members => '{' :: (inner.1 ++ members.render)

def Items.render : Items → Text
  | .last item after => item.render ++ (after.1 ++ [']'])
  | .more item after before items =>
    item.render ++ (after.1 ++ ',' :: (before.1 ++ items.render))

def Members.render : Members → Text
  | .last key afterKey beforeItem item after =>
    '"' :: (key.render ++ (afterKey.1 ++ ':' :: (beforeItem.1 ++ (item.render ++
      (after.1 ++ ['}'])))))
  | .more key afterKey beforeItem item after before members =>
    '"' :: (key.render ++ (afterKey.1 ++ ':' :: (beforeItem.1 ++ (item.render ++
      (after.1 ++ ',' :: (before.1 ++ members.render))))))

end

/-- What the decoder returns. Of a number Python keeps `int(text)` or `float(text)`, of an object
the last member of each key. -/
inductive Json where
  | literal (word : Literal)
  | number (text : Text)
  | string (value : PyStr)
  | array (items : List Json)
  | object (pairs : List (PyStr × Json))

mutual

def Tree.value : Tree → Json
  | .literal word => .literal word
  | .number numeral => .number numeral.1
  | .string pieces => .string pieces.value
  | .emptyArray _ => .array []
  | .array _ items => .array items.value
  | .emptyObject _ => .object []
  | .object _ members => .object members.value

def Items.value : Items → List Json
  | .last item _ => [item.value]
  | .more item _ _ items => item.value :: items.value

def Members.value : Members → List (PyStr × Json)
  | .last key _ _ item _ => [(key.value, item.value)]
  | .more key _ _ item _ _ members => (key.value, item.value) :: members.value

end

def Tree.isNumber : Tree → Bool
  | .number _ => true
  | _ => false

end EmuFlow.StreamingJson
