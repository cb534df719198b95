import Fabula.Text.Visible

/-! Text between quotation marks, with every character that cannot be seen written as an escape. -/

namespace Fabula.Text

def codeEscape (c : Char) : String :=
  "\\u\x7b" ++ String.ofList (Nat.toDigits 16 c.toNat) ++ "\x7d"

def escapeChar (c : Char) : String :=
  if c = '\x00' then "\\0"
  else if c = '\t' then "\\t"
  else if c = '\r' then "\\r"
  else if c = '\n' then "\\n"
  else if c = '"' then "\\\""
  else if c = '\\' then "\\\\"
  else if isVisible c then c.toString
  else codeEscape c

def quoted (s : String) : String := "\"" ++ String.join (s.toList.map escapeChar) ++ "\""

end Fabula.Text
