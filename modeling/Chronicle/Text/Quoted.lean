import Chronicle.Text.Invisible

/-!
# Quoted texts

A quoted text stands between double quotes.  Quotes and backslashes within it
follow a backslash, and so do the letters that stand for line ends, tabs and
the null character; any other character without a picture is given by its
number.
-/

namespace Chronicle.Text

/-- The number of a character in hexadecimal digits. -/
def hexNumber (c : Char) : List Char :=
  Nat.toDigits 16 c.toNat

/-- A character as it stands in a quoted text. -/
def quoteChar (c : Char) : List Char :=
  if c = '\x00' then ['\\', '0']
  else if c = '\t' then ['\\', 't']
  else if c = '\r' then ['\\', 'r']
  else if c = '\n' then ['\\', 'n']
  else if c = '"' then ['\\', '"']
  else if c = '\\' then ['\\', '\\']
  else if isInvisible c then ['\\', 'u', '{'] ++ hexNumber c ++ ['}']
  else [c]

/-- A text between double quotes. -/
def quoted (text : String) : String :=
  String.ofList ('"' :: text.toList.flatMap quoteChar ++ ['"'])

end Chronicle.Text
