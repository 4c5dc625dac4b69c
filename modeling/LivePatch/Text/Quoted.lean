/-
Quoted text: a string between double quotes in which every character that would not be visible, or
would end the quotes, is an escape. Names and paths are both shown in this way.
-/
import LivePatch.Text.Printable
import LivePatch.Text.Extending

namespace LivePatch.Text

/-- A character by its code point in hexadecimal. -/
def codePointEscape (c : Char) : List Char :=
  '\\' :: 'u' :: '\x7b' :: (Nat.toDigits 16 c.toNat ++ ['\x7d'])

/-- A character as it stands between quotes. Four controls, the quote and the backslash have escapes
of their own; what joins the character before it or has no shape is given by its code point. -/
def escape (c : Char) : List Char :=
  if c = '\x00' then ['\\', '0']
  else if c = '\t' then ['\\', 't']
  else if c = '\r' then ['\\', 'r']
  else if c = '\n' then ['\\', 'n']
  else if c = '"' then ['\\', '"']
  else if c = '\\' then ['\\', '\\']
  else if extendsPrevious c || !isPrintable c then codePointEscape c
  else [c]

/-- Quoted text. -/
def quoted (s : String) : String :=
  String.ofList ('"' :: (s.toList.flatMap escape ++ ['"']))

/-- A list of items between brackets, separated by a comma and a space. -/
def bracketed (items : List String) : String :=
  "[" ++ ", ".intercalate items ++ "]"

/-- A set of items between braces, separated by a comma and a space. -/
def braced (items : List String) : String :=
  "\x7b" ++ ", ".intercalate items ++ "\x7d"

end LivePatch.Text
