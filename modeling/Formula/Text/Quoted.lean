import Formula.Text.Combining
import Formula.Text.Unprintable

/-!
# Quoted text

A text in double quotes. The quote, the backslash and the usual control characters have a backslash
form; what cannot be read on its own is written as its number in hexadecimal.
-/

namespace Formula.Text

def hexDigits (n : Nat) : String := String.ofList (Nat.toDigits 16 n)

def quoteChar (c : Char) : String :=
  if c = '"' then "\\\""
  else if c = '\\' then "\\\\"
  else if c = '\t' then "\\t"
  else if c = '\n' then "\\n"
  else if c = '\r' then "\\r"
  else if c.toNat = 0 then "\\0"
  else if isCombining c || isUnprintable c then "\\u\x7b" ++ hexDigits c.toNat ++ "\x7d"
  else c.toString

def quote (s : String) : String :=
  "\"" ++ String.join (s.toList.map quoteChar) ++ "\""

end Formula.Text
