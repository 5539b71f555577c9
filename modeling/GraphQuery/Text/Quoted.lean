import GraphQuery.Text.GraphemeExtend
import GraphQuery.Text.Unprintable

/-!
# Quoted text

A text is written between double quotes so that every character of it can be seen: a character with
a name of its own is written by that name, one that would not show or would merge with its
neighbour by its code point, and every other as it is.
-/

namespace GraphQuery.Text

/-- The code point of a character in braces, in lower-case hexadecimal without leading zeros. -/
def codePointEscape (c : Char) : List Char :=
  ['\\', 'u', '\x7b'] ++ Nat.toDigits 16 c.toNat ++ ['\x7d']

/-- What is written for one character between the quotes. -/
def quotedChar (c : Char) : List Char :=
  match c with
  | '\x00' => ['\\', '0']
  | '\t' => ['\\', 't']
  | '\r' => ['\\', 'r']
  | '\n' => ['\\', 'n']
  | '"' => ['\\', '"']
  | '\\' => ['\\', '\\']
  | c => if extendsGrapheme c || isUnprintable c then codePointEscape c else [c]

def quoted (s : String) : String :=
  String.ofList (['"'] ++ s.toList.flatMap quotedChar ++ ['"'])

end GraphQuery.Text
