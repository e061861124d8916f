import TreeCode.Text.Printable
import TreeCode.Text.Numeral

/-!
# Quoted text

`quote` writes a text between double quotes so that it stays on one line and shows every
character: the quote, the backslash and four control characters have short escapes, a printable
character stands for itself, and any other is written by its code point.
-/

namespace TreeCode.Text

def quoteChar (c : Char) : List Char :=
  if c = '\x00' then ['\\', '0']
  else if c = '\t' then ['\\', 't']
  else if c = '\n' then ['\\', 'n']
  else if c = '\r' then ['\\', 'r']
  else if c = '\"' then ['\\', '\"']
  else if c = '\\' then ['\\', '\\']
  else if isPrintable c then [c]
  else ['\\', 'u', '\x7b'] ++ (hex c.toNat).toList ++ ['\x7d']

def quote (s : String) : String :=
  String.ofList ('\"' :: s.toList.flatMap quoteChar ++ ['\"'])

example : quote "a\t\"b\"" = "\"a\\t\\\"b\\\"\"" := by decide +kernel

end TreeCode.Text
