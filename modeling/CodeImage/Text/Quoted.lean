import CodeImage.Text.Hex
import CodeImage.Text.Invisible
/-!
# Quoted text

Text between quotes, with quotes, backslashes, line ends and all invisible characters written as escapes.
-/
namespace CodeImage

/-- A character written as the hexadecimal number of its code point. -/
def codeEscape (c : Char) : String := "\\u\x7b" ++ hexDigits c.toNat ++ "\x7d"

/-- **One character inside quotes.** -/
def quotedChar (c : Char) : String :=
  if c == '\x00' then "\\0"
  else if c == '\t' then "\\t"
  else if c == '\r' then "\\r"
  else if c == '\n' then "\\n"
  else if c == '"' then "\\\""
  else if c == '\\' then "\\\\"
  else if isInvisible c then codeEscape c
  else c.toString

/-- **The text between quotes.** -/
def quoted (s : String) : String := "\"" ++ String.join (s.toList.map quotedChar) ++ "\""

end CodeImage
