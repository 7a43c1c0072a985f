import FreeStore.Text.Printable
/-!
Quoted text, as names appear in descriptions.

A text is put between double quotes. Quotes and backslashes get a backslash, NUL, tab, line feed and
carriage return are written by a letter or digit, and every other character that does not show on its
own is written by its code point in braces.
-/
namespace FreeStore.Text

/-- The code point of `c` in lower case hexadecimal, in braces behind a backslash and a `u`. -/
def codePoint (c : Char) : List Char :=
  ['\\', 'u', '\x7b'] ++ Nat.toDigits 16 c.toNat ++ ['\x7d']

def escapeChar (c : Char) : List Char :=
  if c = '"' then ['\\', '"']
  else if c = '\\' then ['\\', '\\']
  else if c = '\x00' then ['\\', '0']
  else if c = '\t' then ['\\', 't']
  else if c = '\n' then ['\\', 'n']
  else if c = '\r' then ['\\', 'r']
  else if isShown c then [c]
  else codePoint c

def quoted (s : String) : String :=
  String.ofList ('"' :: s.toList.flatMap escapeChar ++ ['"'])

end FreeStore.Text
