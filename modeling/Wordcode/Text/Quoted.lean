import Wordcode.Text.Nonprinting

/-! Quoted text: a text between double quotes in which the double quote, the backslash, the common
controls and every nonprinting code point are escaped.  The single quote is not escaped. -/

namespace Wordcode.Text

/-- A number in hexadecimal, in lower case and without leading zeros. -/
def hex (n : Nat) : String := String.ofList (Nat.toDigits 16 n)

/-- How one character stands in a quoted text. -/
def escape : Char → String
  | '\x00' => "\\0"
  | '\t' => "\\t"
  | '\n' => "\\n"
  | '\r' => "\\r"
  | '"' => "\\\""
  | '\\' => "\\\\"
  | c => if isNonprinting c then "\\u\x7b" ++ hex c.toNat ++ "\x7d" else c.toString

/-- The text `s` in double quotes, with its characters escaped. -/
def quote (s : String) : String := s.foldl (fun out c => out ++ escape c) "\"" ++ "\""

end Wordcode.Text
