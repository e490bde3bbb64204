import AutoProperty.Text.Unicode.Mark
import AutoProperty.Text.Unicode.Printable

/-! # Quoted text

Text between double quotes, for showing it on one line: quotes, backslashes and everything that
cannot be shown as it is are escaped.
-/

namespace AutoProperty

/-- The code point of a character in lower-case hexadecimal digits. -/
def hexDigits (c : Char) : List Char :=
  Nat.toDigits 16 c.toNat

/-- How a character is written between quotes. A character that belongs to the grapheme before it
is escaped, since it would be drawn over its neighbour. -/
def quoteChar (c : Char) : List Char :=
  match c with
  | '"' => ['\\', '"']
  | '\\' => ['\\', '\\']
  | '\n' => ['\\', 'n']
  | '\r' => ['\\', 'r']
  | '\t' => ['\\', 't']
  | '\x00' => ['\\', '0']
  | c =>
    if isGraphemeExtend c || !isPrintable c then
      ['\\', 'u', '\x7b'] ++ hexDigits c ++ ['\x7d']
    else
      [c]

def quote (text : String) : String :=
  String.ofList ('"' :: text.toList.flatMap quoteChar ++ ['"'])

end AutoProperty
