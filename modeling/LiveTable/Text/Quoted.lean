/-!
# Quoted text

Diagnostics show text between double quotes. A quote and a backslash are
written with a backslash before them; newline, carriage return, tab and NUL have
letters of their own; any other control character is written by its code in
hexadecimal between braces. All other characters stand for themselves.
-/

namespace LiveTable.Text

/-- The control characters: the first 32 codes, 7f, and 80 to 9f. -/
def isControl (c : Char) : Bool :=
  c.val < 0x20 || (0x7f ≤ c.val && c.val < 0xa0)

def hexDigits (n : Nat) : List Char := Nat.toDigits 16 n

/-- One character as it is written between quotes. -/
def escaped (c : Char) : List Char :=
  match c with
  | '"' => ['\\', '"']
  | '\\' => ['\\', '\\']
  | '\n' => ['\\', 'n']
  | '\r' => ['\\', 'r']
  | '\t' => ['\\', 't']
  | '\x00' => ['\\', '0']
  | c => if isControl c then ['\\', 'u', '\x7b'] ++ hexDigits c.toNat ++ ['\x7d'] else [c]

def quoted (s : String) : String :=
  String.ofList ('"' :: s.toList.flatMap escaped ++ ['"'])

end LiveTable.Text
