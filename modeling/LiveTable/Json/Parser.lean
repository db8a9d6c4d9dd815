import LiveTable.Bytes
import LiveTable.Json.Basic

/-!
# Reading JSON

The strict grammar: four kinds of blanks, no leading zeros, no trailing commas, no
comments, and no control characters inside strings. Every reader takes characters
off the front of a text and gives back what is left. Nesting is bounded by the
length of the text, which no value can exceed.
-/

namespace LiveTable.Json

namespace Grammar

def isBlank (c : Char) : Bool := c = ' ' || c = '\n' || c = '\t' || c = '\r'

def skipBlanks (cs : List Char) : List Char := cs.dropWhile isBlank

def literal? : List Char → List Char → Option (List Char)
  | [], cs => some cs
  | w :: word, c :: cs => if w = c then literal? word cs else none
  | _ :: _, [] => none

/-! ## Numbers -/

def digits1 (cs : List Char) : Option (List Char × List Char) :=
  match cs.takeWhile Char.isDigit with
  | [] => none
  | ds => some (ds, cs.dropWhile Char.isDigit)

def integer (cs : List Char) : Option (List Char × List Char) := do
  let (ds, rest) ← digits1 cs
  match ds with
  | '0' :: _ :: _ => none
  | _ => some (ds, rest)

def fraction : List Char → Option (List Char × List Char)
  | '.' :: cs => (digits1 cs).map fun (ds, rest) => ('.' :: ds, rest)
  | cs => some ([], cs)

def sign : List Char → List Char × List Char
  | '+' :: cs => (['+'], cs)
  | '-' :: cs => (['-'], cs)
  | cs => ([], cs)

/-- The letter of an exponent with its sign and digits, if there is such a letter. -/
def exponent : List Char → Option (List Char × List Char)
  | [] => some ([], [])
  | c :: cs =>
    if c = 'e' ∨ c = 'E' then
      let (s, rest) := sign cs
      (digits1 rest).map fun (ds, rest) => (c :: s ++ ds, rest)
    else some ([], c :: cs)

def number (cs : List Char) : Option (List Char × List Char) := do
  let (minus, cs) := match cs with
    | '-' :: cs => (['-'], cs)
    | cs => ([], cs)
  let (whole, cs) ← integer cs
  let (point, cs) ← fraction cs
  let (power, cs) ← exponent cs
  return (minus ++ whole ++ point ++ power, cs)

/-! ## Strings -/

abbrev Piece := Char ⊕ Nat

/-- The character of a one-letter escape. -/
def escapeChar? : Char → Option Char
  | '"' => some '"'
  | '\\' => some '\\'
  | '/' => some '/'
  | 'b' => some '\x08'
  | 'f' => some '\x0c'
  | 'n' => some '\n'
  | 'r' => some '\r'
  | 't' => some '\t'
  | _ => none

def pieces : List Char → Option (List Piece × List Char)
  | [] => none
  | '"' :: cs => some ([], cs)
  | '\\' :: 'u' :: a :: b :: c :: d :: cs => do
    let unit ← Bytes.natOfHex? [a, b, c, d]
    let (ps, rest) ← pieces cs
    return (.inr unit :: ps, rest)
  | '\\' :: c :: cs => do
    let e ← escapeChar? c
    let (ps, rest) ← pieces cs
    return (.inl e :: ps, rest)
  | c :: cs => do
    if c = '\\' ∨ c.toNat < 0x20 then none
    let (ps, rest) ← pieces cs
    return (.inl c :: ps, rest)

def isHighSurrogate (n : Nat) : Bool := 0xd800 ≤ n && n < 0xdc00

def isLowSurrogate (n : Nat) : Bool := 0xdc00 ≤ n && n < 0xe000

/-- The characters that the pieces spell; a high surrogate needs a low one after it, and a low one
stands nowhere else. -/
def spell : List Piece → Option (List Char)
  | [] => some []
  | .inl c :: ps => (spell ps).map (c :: ·)
  | .inr high :: .inr low :: ps =>
    if isHighSurrogate high then
      if isLowSurrogate low then
        (spell ps).map (Char.ofNat (0x10000 + 0x400 * (high - 0xd800) + (low - 0xdc00)) :: ·)
      else none
    else if isLowSurrogate high then none
    else (spell (.inr low :: ps)).map (Char.ofNat high :: ·)
  | .inr unit :: ps =>
    if isHighSurrogate unit || isLowSurrogate unit then none
    else (spell ps).map (Char.ofNat unit :: ·)

def text (cs : List Char) : Option (Option String × List Char) :=
  (pieces cs).map fun (ps, rest) => ((spell ps).map String.ofList, rest)

/-! ## Values -/

mutual

/-- A value after any blanks; `fuel` bounds the depth of the recursion. -/
def value : Nat → List Char → Option (Json × List Char)
  | 0, _ => none
  | fuel + 1, cs =>
    match skipBlanks cs with
    | 'n' :: cs => (literal? "ull".toList cs).map (.null, ·)
    | 't' :: cs => (literal? "rue".toList cs).map (.bool true, ·)
    | 'f' :: cs => (literal? "alse".toList cs).map (.bool false, ·)
    | '"' :: cs => (text cs).map fun (s, rest) => (.string s, rest)
    | '[' :: cs =>
      match skipBlanks cs with
      | ']' :: cs => some (.array [], cs)
      | cs => (items fuel cs).map fun (js, rest) => (.array js, rest)
    | '\x7b' :: cs =>
      match skipBlanks cs with
      | '\x7d' :: cs => some (.object [], cs)
      | cs => (members fuel cs).map fun (fs, rest) => (.object fs, rest)
    | cs => (number cs).map fun (n, rest) => (.number n, rest)

/-- The items of an array up to its closing bracket. -/
def items : Nat → List Char → Option (List Json × List Char)
  | 0, _ => none
  | fuel + 1, cs => do
    let (j, cs) ← value fuel cs
    match skipBlanks cs with
    | ',' :: cs =>
      let (js, rest) ← items fuel cs
      return (j :: js, rest)
    | ']' :: cs => return ([j], cs)
    | _ => none

/-- The fields of an object up to its closing brace. -/
def members : Nat → List Char → Option (List (Option String × Json) × List Char)
  | 0, _ => none
  | fuel + 1, cs =>
    match skipBlanks cs with
    | '"' :: cs => do
      let (name, cs) ← text cs
      match skipBlanks cs with
      | ':' :: cs =>
        let (j, cs) ← value fuel cs
        match skipBlanks cs with
        | ',' :: cs =>
          let (fs, rest) ← members fuel cs
          return ((name, j) :: fs, rest)
        | '\x7d' :: cs => return ([(name, j)], cs)
        | _ => none
      | _ => none
    | _ => none

end

end Grammar

/-- The value that a whole text spells. -/
def parse? (s : String) : Option Json := do
  let cs := s.toList
  let (j, rest) ← Grammar.value (2 * cs.length + 2) cs
  if (Grammar.skipBlanks rest).isEmpty then some j else none

end LiveTable.Json
