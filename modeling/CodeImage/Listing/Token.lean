import CodeImage.Text.Blank
import CodeImage.Text.Numeral
/-!
# Tokens of listings

`scan` cuts a text into words, numerals, arrows and single signs, and drops blanks and comments, which run from a
semicolon to the end of the line.  Every text has tokens; what they mean is left to the reader of listings.
-/
namespace CodeImage

/-- **A token.**  A numeral is kept without the underscores between its digits.  A dash that begins no arrow knows
whether the line ends behind it. -/
inductive Token where
  | word (text : String)
  | numeral (digits : String)
  | arrow
  | dash (atLineEnd : Bool)
  | sign (c : Char)
  deriving DecidableEq, Repr

/-- A token and the line on which it stands. -/
structure Lexeme where
  token : Token
  line : Nat
  deriving DecidableEq, Repr

namespace Lexeme

def isDigit (c : Char) : Bool := '0' ≤ c && c ≤ '9'

/-- A character that may begin a word. -/
def isLetter (c : Char) : Bool := ('a' ≤ c && c ≤ 'z') || ('A' ≤ c && c ≤ 'Z') || c == '_' || c == '.'

/-- A character that may stand inside a word. -/
def isWordChar (c : Char) : Bool := isDigit c || isLetter c

/-- A character that may stand inside a numeral. -/
def isNumeralChar (c : Char) : Bool := (digitValue? c).isSome || c == 'x' || c == 'X' || c == '_'

theorem length_dropWhile_lt {p : Char → Bool} (c : Char) (cs : List Char) :
    (cs.dropWhile p).length < (c :: cs).length :=
  Nat.lt_succ_of_le (List.dropWhile_sublist p).length_le

/-- **The tokens of a text** whose first line has the given number. -/
def scan (line : Nat) : List Char → List Lexeme
  | [] => []
  | c :: cs =>
    if c = '\n' then scan (line + 1) cs
    else if isBlank c then scan line cs
    else if c = ';' then scan line (cs.dropWhile (· != '\n'))
    else if isLetter c then
      ⟨.word (String.ofList (c :: cs.takeWhile isWordChar)), line⟩ :: scan line (cs.dropWhile isWordChar)
    else if isDigit c then
      ⟨.numeral (String.ofList (c :: (cs.takeWhile isNumeralChar).filter (· != '_'))), line⟩
        :: scan line (cs.dropWhile isNumeralChar)
    else if c = '-' then
      if cs.head? = some '>' then ⟨.arrow, line⟩ :: scan line cs.tail
      else ⟨.dash (cs.head? == some '\n'), line⟩ :: scan line cs
    else ⟨.sign c, line⟩ :: scan line cs
termination_by cs => cs.length
decreasing_by
  all_goals first
    | exact length_dropWhile_lt c cs
    | (simp only [List.length_cons, List.length_tail]; omega)

end Lexeme

end CodeImage
