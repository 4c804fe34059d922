/-!
# Numbers, bytes and words

Words are 32 bits wide and stand in memory least byte first.  `leBytes` writes a number into a given number of bytes,
`wordAt?` reads the word at an offset, `patched?` replaces it.
-/
namespace CodeImage

/-- A row of bytes. -/
abbrev Bytes := List UInt8

/-- One more than the highest address, and than the highest word. -/
def wordLimit : Nat := 0x100000000

/-- The difference of two words; one below zero is counted from the highest word down. -/
def wordSub (x y : Nat) : Nat := (x + wordLimit - y) % wordLimit

/-- **The `count` lowest bytes of `n`**, least first. -/
def leBytes : Nat → Nat → Bytes
  | 0, _ => []
  | count + 1, n => UInt8.ofNat n :: leBytes count (n / 256)

/-- The number that a row of bytes stands for, least byte first. -/
def ofLeBytes (bytes : Bytes) : Nat := bytes.foldr (fun b n => b.toNat + 256 * n) 0

/-- **The word at an offset**, if all four of its bytes are there. -/
def wordAt? (bytes : Bytes) (offset : Nat) : Option Nat :=
  match bytes.drop offset with
  | a :: b :: c :: d :: _ => some (ofLeBytes [a, b, c, d])
  | _ => none

/-- **The bytes with `piece` written over those from `offset` on.**  Nothing is written beyond the end. -/
def overwrite (bytes : Bytes) (offset : Nat) (piece : Bytes) : Bytes :=
  bytes.take offset ++ piece.take (bytes.length - offset) ++ bytes.drop (offset + piece.length)

/-- **The bytes with the word at an offset replaced**, if all four of its bytes are there. -/
def patched? (bytes : Bytes) (offset word : Nat) : Option Bytes :=
  if offset + 4 ≤ bytes.length then some (overwrite bytes offset (leBytes 4 word)) else none

/-- **The words of a row of bytes**, the last one filled up with zeros. -/
def toWords (bytes : Bytes) : List Nat :=
  let a := bytes.toArray
  let digit (n : Nat) : Nat := (a[n]?.getD 0).toNat
  (List.range ((a.size + 3) / 4)).map fun i =>
    digit (4 * i) + 256 * digit (4 * i + 1) + 65536 * digit (4 * i + 2) + 16777216 * digit (4 * i + 3)

theorem length_leBytes : ∀ (count n : Nat), (leBytes count n).length = count
  | 0, _ => rfl
  | count + 1, n => by rw [leBytes, List.length_cons, length_leBytes]

/-- Reading back what was written gives the number, up to what does not fit. -/
theorem ofLeBytes_leBytes : ∀ (count n : Nat), ofLeBytes (leBytes count n) = n % Nat.pow 256 count
  | 0, n => by simp [leBytes, ofLeBytes, Nat.mod_one]
  | count + 1, n => by
    have ih := ofLeBytes_leBytes count (n / 256)
    unfold ofLeBytes at ih
    simp only [leBytes, ofLeBytes, List.foldr_cons, ih]
    simp only [Nat.pow_eq]
    rw [Nat.pow_succ, Nat.mul_comm (256 ^ count) 256, Nat.mod_mul]
    simp

theorem length_overwrite (bytes : Bytes) (offset : Nat) (piece : Bytes) (h : offset + piece.length ≤ bytes.length) :
    (overwrite bytes offset piece).length = bytes.length := by
  simp only [overwrite, List.length_append, List.length_take, List.length_drop]; omega

end CodeImage
