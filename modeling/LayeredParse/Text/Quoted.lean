import LayeredParse.Unicode.Category
/-!
# Quoted — text in double quotes, with what does not show escaped

`quote` writes a text between double quotes.  Quotes and backslashes, the usual controls, whatever extends the character
before it and whatever does not print are escaped; every other character stands for itself.
-/
namespace LayeredParse
namespace Quoted

/-- An escape by code point: `\u`, an opening brace, lower-case hexadecimal digits without padding, a closing brace. -/
def byCodePoint (c : Char) : List Char :=
  ['\\', 'u', '\x7b'] ++ Nat.toDigits 16 c.toNat ++ ['\x7d']

/-- How a character is written between quotes. -/
def escape (c : Char) : List Char :=
  if c = '\x00' then ['\\', '0']
  else if c = '\t' then ['\\', 't']
  else if c = '\r' then ['\\', 'r']
  else if c = '\n' then ['\\', 'n']
  else if c = '"' then ['\\', '"']
  else if c = '\\' then ['\\', '\\']
  else if Unicode.isGraphemeExtend c || !Unicode.isPrintable c then byCodePoint c
  else [c]

/-- The characters between the quotes. -/
def body (s : List Char) : List Char :=
  s.flatMap escape

end Quoted

/-- The text between double quotes, escaped. -/
def quote (s : String) : String :=
  String.ofList ('"' :: Quoted.body s.toList ++ ['"'])

end LayeredParse
