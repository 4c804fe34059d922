import CodeImage.Bytes
/-!
# Numerals

Numbers as they are written: decimal, or hexadecimal behind `0x`.  A numeral stands for a 32-bit word or for nothing.
-/
namespace CodeImage

/-- The value of a digit of either case. -/
def digitValue? (c : Char) : Option Nat :=
  if '0' ≤ c ∧ c ≤ '9' then some (c.toNat - 48)
  else if 'a' ≤ c ∧ c ≤ 'f' then some (c.toNat - 87)
  else if 'A' ≤ c ∧ c ≤ 'F' then some (c.toNat - 55)
  else none

/-- **The value of digits of a base**, most significant first. -/
def ofDigits? (base : Nat) (digits : List Char) : Option Nat :=
  digits.foldlM (fun n c => match digitValue? c with
    | some d => if d < base then some (base * n + d) else none
    | none => none) 0

/-- **The word that digits of a base stand for**; at least one digit, and no more than a word holds. -/
def wordOfDigits? (base : Nat) (digits : List Char) : Option Nat :=
  if digits.isEmpty then none else (ofDigits? base digits).filter (· < wordLimit)

/-- **The word that a numeral stands for.** -/
def numeralValue? : List Char → Option Nat
  | '0' :: 'x' :: digits => wordOfDigits? 16 digits
  | '0' :: 'X' :: digits => wordOfDigits? 16 digits
  | digits => wordOfDigits? 10 digits

end CodeImage
