/-!
# Hexadecimal text

Lower-case hexadecimal digits, with and without the leading `0x`.
-/
namespace CodeImage

/-- The digits of `n`, without leading zeros. -/
def hexDigits (n : Nat) : String := String.ofList (Nat.toDigits 16 n)

/-- **`n` behind `0x`.** -/
def hex (n : Nat) : String := "0x" ++ hexDigits n

/-- **`n` behind `0x`, in at least `width` digits.** -/
def hexPadded (width n : Nat) : String :=
  let digits := Nat.toDigits 16 n
  "0x" ++ String.ofList (List.replicate (width - digits.length) '0' ++ digits)

end CodeImage
