import CodeImage.Bytes
/-!
# Rows of words

A row of words of 64 digits is one long number, the lowest word first: digit `n` is digit `n % 64` of word `n / 64`.
`modify` changes one word, `combine` puts two rows together word by word, and a `Cursor` goes through the ones of a row from
the lowest up.
-/
namespace CodeImage

namespace BitSet

/-- The digits in one word. -/
def wordBits : Nat := 64

abbrev Word := BitVec wordBits

/-- How many words hold `bound` digits. -/
def wordCount (bound : Nat) : Nat := (bound + wordBits - 1) / wordBits

/-- **Digit `n` of a row**; behind the last word all are zero. -/
def digit (words : List Word) (n : Nat) : Bool := words[n / wordBits]?.any (·.getLsbD (n % wordBits))

/-- The word in which only digit `n` is one. -/
def single (n : Nat) : Word := BitVec.twoPow wordBits n

/-- Clear the digits of the last word that lie at or above `bound`. -/
def clearExcess (bound : Nat) (words : List Word) : List Word :=
  if bound % wordBits = 0 then words else words.modify (words.length - 1) (· &&& (single (bound % wordBits) - 1))

/-- **Put two rows together** word by word, as far as both reach, and tell whether that changed the first. -/
def combine (f : Word → Word → Word) : List Word → List Word → List Word × Bool
  | a :: as, b :: bs => (f a b :: (combine f as bs).1, f a b != a || (combine f as bs).2)
  | as, _ => (as, false)

/-- The word without its lowest one. -/
def dropLowest (w : Word) : Word := w &&& (w - 1)

/-- The place of the lowest one of a word: the only digit that changes when it is dropped. -/
def lowest (w : Word) : Nat := (w ^^^ dropLowest w).toNat.log2

/-- **A place in a row**: the words from `word` on, without the ones that have been passed. -/
structure Cursor where
  word : Nat
  words : List Word
  deriving DecidableEq, Repr

namespace Cursor

/-- **The next one of a row**, skipping words that have none left. -/
def nextFrom : Nat → List Word → Option (Nat × Cursor)
  | _, [] => none
  | i, w :: rest =>
    if w = 0 then nextFrom (i + 1) rest else some (i * wordBits + lowest w, ⟨i, dropLowest w :: rest⟩)

def next? (c : Cursor) : Option (Nat × Cursor) := nextFrom c.word c.words

/-- At most `limit` ones of a row, from the lowest up. -/
def drain : Nat → Cursor → List Nat
  | 0, _ => []
  | limit + 1, c => match c.next? with
    | some (n, c) => n :: drain limit c
    | none => []

end Cursor

/-! ## Digits -/

section Digits

variable {words : List Word} {n : Nat}

theorem digit_eq_false_of_le (h : words.length ≤ n / wordBits) : digit words n = false := by
  rw [digit, List.getElem?_eq_none h]
  rfl

theorem digit_getElem {i k : Nat} (hi : i < words.length) (hk : k < wordBits) :
    digit words (i * wordBits + k) = words[i].getLsbD k := by
  have hdiv : (i * wordBits + k) / wordBits = i := by unfold wordBits at *; omega
  have hmod : (i * wordBits + k) % wordBits = k := by unfold wordBits at *; omega
  rw [digit, hdiv, hmod, List.getElem?_eq_getElem hi]
  rfl

theorem digit_cons (w : Word) (words : List Word) (n : Nat) :
    digit (w :: words) n = if n < wordBits then w.getLsbD n else digit words (n - wordBits) := by
  unfold digit
  split
  · rename_i h
    rw [Nat.div_eq_of_lt h, Nat.mod_eq_of_lt h]
    rfl
  · rename_i h
    have hdiv : n / wordBits = (n - wordBits) / wordBits + 1 := by unfold wordBits at *; omega
    have hmod : n % wordBits = (n - wordBits) % wordBits := by unfold wordBits at *; omega
    rw [hdiv, hmod, List.getElem?_cons_succ]

/-- Rows of one length with the same digits are equal. -/
theorem eq_of_digit {words' : List Word} (hlength : words.length = words'.length)
    (h : ∀ n, digit words n = digit words' n) : words = words' := by
  refine List.ext_getElem hlength fun i hi hi' => BitVec.eq_of_getLsbD_eq fun k hk => ?_
  rw [← digit_getElem hi hk, ← digit_getElem hi' hk, h]

theorem digit_replicate (count : Nat) (w : Word) (n : Nat) :
    digit (List.replicate count w) n = (decide (n / wordBits < count) && w.getLsbD (n % wordBits)) := by
  rw [digit, List.getElem?_replicate]
  split
  · rename_i h
    simp [h]
  · rename_i h
    simp [h]

theorem digit_modify (f : Word → Word) (i n : Nat) : digit (words.modify i f) n =
    if n / wordBits = i then words[i]?.any (fun w => (f w).getLsbD (n % wordBits)) else digit words n := by
  unfold digit
  rw [List.getElem?_modify]
  by_cases h : n / wordBits = i
  · subst h
    simp [Option.any_map]
  · simp [h, Ne.symm h]

theorem getLsbD_single {k j : Nat} (hk : k < wordBits) : (single k).getLsbD j = decide (k = j) := by
  simp [single, BitVec.getLsbD_twoPow, hk]

/-- Within a word, digits differ by their places in it. -/
theorem mod_eq_iff {m n : Nat} (h : m / wordBits = n / wordBits) : m % wordBits = n % wordBits ↔ m = n := by
  constructor
  · intro hmod
    rw [← Nat.div_add_mod m wordBits, ← Nat.div_add_mod n wordBits, h, hmod]
  · rintro rfl
    rfl

/-- Setting a digit. -/
theorem digit_modify_or (hn : n / wordBits < words.length) (m : Nat) :
    digit (words.modify (n / wordBits) (· ||| single (n % wordBits))) m = (digit words m || decide (n = m)) := by
  have hk : n % wordBits < wordBits := Nat.mod_lt _ (by decide)
  rw [digit_modify]
  split
  · rename_i h
    rw [digit, h, List.getElem?_eq_getElem hn]
    simp only [Option.any_some, BitVec.getLsbD_or, getLsbD_single hk, mod_eq_iff h.symm]
  · rename_i h
    have hne : n ≠ m := by
      rintro rfl
      exact h rfl
    simp [hne]

/-- Clearing a digit. -/
theorem digit_modify_andNot (n m : Nat) :
    digit (words.modify (n / wordBits) (· &&& ~~~single (n % wordBits))) m = (digit words m && decide (n ≠ m)) := by
  have hk : n % wordBits < wordBits := Nat.mod_lt _ (by decide)
  rw [digit_modify]
  split
  · rename_i h
    have hm : m % wordBits < wordBits := Nat.mod_lt _ (by decide)
    rw [digit, h]
    cases words[n / wordBits]? with
    | none => rfl
    | some w =>
      simp only [Option.any_some, BitVec.getLsbD_and, BitVec.getLsbD_not, getLsbD_single hk, mod_eq_iff h.symm, hm]
      simp
  · rename_i h
    have hne : n ≠ m := by
      rintro rfl
      exact h rfl
    simp [hne]

theorem getLsbD_single_sub_one {k j : Nat} (hk : k < wordBits) : (single k - 1).getLsbD j = decide (j < k) := by
  have hle : 2 ^ k ≤ 2 ^ 63 := Nat.pow_le_pow_right (by decide) (by unfold wordBits at hk; omega)
  have hnat : (single k - 1).toNat = 2 ^ k - 1 := by
    have hpos : 0 < 2 ^ k := Nat.two_pow_pos k
    have hsingle : (single k).toNat = 2 ^ k := by
      simp only [single, BitVec.toNat_twoPow, wordBits]
      exact Nat.mod_eq_of_lt (by omega)
    rw [BitVec.toNat_sub, hsingle]
    simp only [wordBits, BitVec.ofNat_eq_ofNat, BitVec.toNat_ofNat]
    omega
  rw [BitVec.getLsbD, hnat, Nat.testBit_two_pow_sub_one]

/-- Of the digits of a row that holds `bound` of them, those at or above `bound` are cleared. -/
theorem digit_clearExcess {bound : Nat} (hlength : words.length = wordCount bound) (n : Nat) :
    digit (clearExcess bound words) n = (digit words n && decide (n < bound)) := by
  unfold clearExcess
  split
  · rename_i htail
    by_cases hn : n < bound
    · simp [hn]
    · rw [digit_eq_false_of_le]
      · rfl
      · rw [hlength]
        unfold wordCount wordBits at *
        omega
  · rename_i htail
    have hk : bound % wordBits < wordBits := Nat.mod_lt _ (by decide)
    rw [digit_modify]
    split
    · rename_i h
      have hlt : n < bound ↔ n % wordBits < bound % wordBits := by
        rw [hlength] at h
        unfold wordCount wordBits at *
        omega
      rw [digit, h]
      cases words[words.length - 1]? with
      | none => rfl
      | some w => simp only [Option.any_some, BitVec.getLsbD_and, getLsbD_single_sub_one hk, hlt]
    · rename_i h
      by_cases hlast : words.length ≤ n / wordBits
      · rw [digit_eq_false_of_le hlast]
        rfl
      · have hn : n < bound := by
          rw [hlength] at h hlast
          unfold wordCount wordBits at *
          omega
        simp [hn]

end Digits

/-! ## Rows put together -/

section Combine

variable {f : Word → Word → Word} {op : Bool → Bool → Bool}

theorem length_combine (f : Word → Word → Word) (as bs : List Word) : (combine f as bs).1.length = as.length := by
  fun_induction combine f as bs with
  | case1 a as b bs ih => simp [ih]
  | case2 => rfl

/-- Rows of one length are put together digit by digit. -/
theorem digit_combine (hf : ∀ a b k, (f a b).getLsbD k = op (a.getLsbD k) (b.getLsbD k)) (hop : op false false = false) :
    ∀ as bs : List Word, as.length = bs.length → ∀ n, digit (combine f as bs).1 n = op (digit as n) (digit bs n)
  | [], [], _, n => by simp [combine, digit, hop]
  | a :: as, b :: bs, hlength, n => by
    simp only [combine, digit_cons, hf, digit_combine hf hop as bs (Nat.succ.inj hlength)]
    split <;> rfl

/-- The change that is told is a change. -/
theorem snd_combine (f : Word → Word → Word) (as bs : List Word) :
    (combine f as bs).2 = true ↔ (combine f as bs).1 ≠ as := by
  fun_induction combine f as bs with
  | case1 a as b bs ih =>
    rw [Bool.or_eq_true, ih, bne_iff_ne, Ne, Ne, Ne, List.cons.injEq, Classical.not_and_iff_not_or_not]
  | case2 => simp

end Combine

/-! ## Going through the ones -/

section Cursor

/-- Taking one from a number turns its lowest one to zero and the zeros below to ones. -/
theorem testBit_pred {n low : Nat} (hone : n.testBit low = true) (hbelow : ∀ j < low, n.testBit j = false) (k : Nat) :
    (n - 1).testBit k = if k < low then true else n.testBit k && decide (k ≠ low) := by
  have hmod : n % 2 ^ (low + 1) = 2 ^ low := by
    refine Nat.eq_of_testBit_eq fun j => ?_
    rw [Nat.testBit_mod_two_pow, Nat.testBit_two_pow]
    rcases Nat.lt_trichotomy j low with hj | rfl | hj
    · simp [hbelow j hj, Nat.ne_of_gt hj]
    · simp [hone]
    · have hout : ¬j < low + 1 := by omega
      simp [hout, Nat.ne_of_lt hj]
  have hpos : 0 < 2 ^ low := Nat.two_pow_pos low
  have hdouble : 2 ^ (low + 1) = 2 * 2 ^ low := by rw [Nat.pow_succ, Nat.mul_comm]
  have hsplit : n = 2 ^ (low + 1) * (n / 2 ^ (low + 1)) + 2 ^ low := by
    have := Nat.div_add_mod n (2 ^ (low + 1))
    omega
  have hpred : n - 1 = 2 ^ (low + 1) * (n / 2 ^ (low + 1)) + (2 ^ low - 1) := by omega
  have hn := Nat.testBit_two_pow_mul_add (n / 2 ^ (low + 1)) (show 2 ^ low < 2 ^ (low + 1) by omega) k
  rw [← hsplit, Nat.testBit_two_pow] at hn
  rw [hpred, Nat.testBit_two_pow_mul_add _ (by omega), Nat.testBit_two_pow_sub_one, hn]
  rcases Nat.lt_trichotomy k low with hk | rfl | hk
  · simp [hk, Nat.lt_succ_of_lt hk]
  · simp
  · have hout : ¬k < low + 1 := by omega
    simp [hout, Nat.not_lt_of_gt hk, Nat.ne_of_gt hk]

/-- A word that is not zero loses its lowest one and nothing else. -/
theorem getLsbD_dropLowest {w : Word} (hw : w ≠ 0) (k : Nat) :
    (dropLowest w).getLsbD k = (w.getLsbD k && decide (k ≠ w.ctz.toNat)) := by
  have hone : w.toNat.testBit w.ctz.toNat = true := BitVec.getLsbD_true_ctz_of_ne_zero hw
  have hbelow : ∀ j < w.ctz.toNat, w.toNat.testBit j = false := fun j hj => BitVec.getLsbD_false_of_lt_ctz hj
  have hpred : (w - 1).toNat = w.toNat - 1 := by
    have hpos : 0 < w.toNat := Nat.pos_of_ne_zero fun h => hw (BitVec.eq_of_toNat_eq h)
    have hlt := w.isLt
    rw [BitVec.toNat_sub]
    simp only [wordBits, BitVec.ofNat_eq_ofNat, BitVec.toNat_ofNat] at *
    omega
  rw [dropLowest, BitVec.getLsbD_and, BitVec.getLsbD, BitVec.getLsbD, hpred, testBit_pred hone hbelow]
  by_cases hk : k < w.ctz.toNat
  · simp [hbelow k hk]
  · rw [if_neg hk, ← Bool.and_assoc, Bool.and_self]

theorem lowest_eq {w : Word} (hw : w ≠ 0) : lowest w = w.ctz.toNat := by
  have hone := BitVec.getLsbD_true_ctz_of_ne_zero hw
  have hpow : (w ^^^ dropLowest w).toNat = 2 ^ w.ctz.toNat := by
    refine Nat.eq_of_testBit_eq fun k => ?_
    rw [Nat.testBit_two_pow, BitVec.testBit_toNat, BitVec.getLsbD_xor, getLsbD_dropLowest hw]
    by_cases hk : k = w.ctz.toNat
    · simp [hk, hone]
    · simp [hk, Ne.symm hk]
  rw [lowest, hpow, Nat.log2_two_pow]

/-- Digit `n` of the row is a one that the cursor has not passed. -/
def Cursor.Ahead (c : Cursor) (n : Nat) : Prop :=
  c.word * wordBits ≤ n ∧ digit c.words (n - c.word * wordBits) = true

theorem Cursor.ahead_cons {i n : Nat} {w : Word} {rest : List Word} : Cursor.Ahead ⟨i, w :: rest⟩ n ↔
    (i * wordBits ≤ n ∧ n < (i + 1) * wordBits ∧ w.getLsbD (n - i * wordBits) = true) ∨ Cursor.Ahead ⟨i + 1, rest⟩ n := by
  unfold Cursor.Ahead
  simp only [digit_cons]
  by_cases hlow : i * wordBits ≤ n
  · by_cases hhigh : n < (i + 1) * wordBits
    · have hlt : n - i * wordBits < wordBits := by unfold wordBits at *; omega
      have hge : ¬(i + 1) * wordBits ≤ n := by omega
      simp [hlow, hhigh, hlt, hge]
    · have hlt : ¬n - i * wordBits < wordBits := by unfold wordBits at *; omega
      have hge : (i + 1) * wordBits ≤ n := by omega
      have hsub : n - i * wordBits - wordBits = n - (i + 1) * wordBits := by unfold wordBits at *; omega
      simp [hlow, hhigh, hlt, hge, hsub]
  · have hge : ¬(i + 1) * wordBits ≤ n := by unfold wordBits at *; omega
    simp [hlow, hge]

/-- **What the next one is**: the lowest that has not been passed, and then it has been passed. -/
theorem Cursor.nextFrom_spec : ∀ (i : Nat) (words : List Word), match nextFrom i words with
    | some (n, c) => Ahead ⟨i, words⟩ n ∧ (∀ m, Ahead ⟨i, words⟩ m → n ≤ m) ∧ ∀ m, Ahead c m ↔ Ahead ⟨i, words⟩ m ∧ m ≠ n
    | none => ∀ m, ¬Ahead ⟨i, words⟩ m
  | i, [] => by
    rintro m ⟨-, h⟩
    simp [digit] at h
  | i, w :: rest => by
    by_cases hw : w = 0
    · have hskip : ∀ m, Ahead ⟨i, w :: rest⟩ m ↔ Ahead ⟨i + 1, rest⟩ m := fun m => by
        rw [ahead_cons, hw]
        simp
      have ih := nextFrom_spec (i + 1) rest
      rw [nextFrom, if_pos hw]
      split
      · rename_i n c hn
        simp only [hn, hskip] at ih ⊢
        exact ih
      · rename_i hn
        simp only [hn, hskip] at ih ⊢
        exact ih
    · rw [nextFrom, if_neg hw, lowest_eq hw]
      have hone := BitVec.getLsbD_true_ctz_of_ne_zero hw
      have hlow : w.ctz.toNat < wordBits := BitVec.lt_of_getLsbD hone
      have hbelow : ∀ {k}, w.getLsbD k = true → w.ctz.toNat ≤ k := fun {k} hk => by
        refine Nat.le_of_not_lt fun hlt => ?_
        rw [BitVec.getLsbD_false_of_lt_ctz hlt] at hk
        cases hk
      have hsub : i * wordBits + w.ctz.toNat - i * wordBits = w.ctz.toNat := by omega
      refine ⟨ahead_cons.2 (.inl ⟨by omega, ?_, by rw [hsub]; exact hone⟩), fun m hm => ?_, fun m => ?_⟩
      · unfold wordBits at *; omega
      · rcases ahead_cons.1 hm with ⟨hle, -, hdigit⟩ | ⟨hle, -⟩
        · have := hbelow hdigit
          omega
        · unfold wordBits at *
          simp only at hle
          omega
      · rw [ahead_cons, ahead_cons, getLsbD_dropLowest hw, Bool.and_eq_true, decide_eq_true_iff]
        constructor
        · rintro (⟨hle, hlt, hdigit, hne⟩ | hrest)
          · exact ⟨.inl ⟨hle, hlt, hdigit⟩, by omega⟩
          · refine ⟨.inr hrest, ?_⟩
            have hle := hrest.1
            simp only at hle
            unfold wordBits at *
            omega
        · rintro ⟨⟨hle, hlt, hdigit⟩ | hrest, hne⟩
          · exact .inl ⟨hle, hlt, hdigit, by omega⟩
          · exact .inr hrest

/-- **Going through a row** gives its ones in ascending order, all of them if they lie in a stretch that the limit covers. -/
theorem Cursor.drain_spec : ∀ (limit : Nat) (c : Cursor) (low high : Nat), (∀ m, c.Ahead m → low ≤ m ∧ m < high) →
    high - low ≤ limit → (drain limit c).Pairwise (· < ·) ∧ ∀ m, m ∈ drain limit c ↔ c.Ahead m
  | 0, c, low, high, hin, hlimit => by
    refine ⟨List.Pairwise.nil, fun m => ?_⟩
    simp only [drain, List.not_mem_nil, false_iff]
    intro hm
    have := hin m hm
    omega
  | limit + 1, c, low, high, hin, hlimit => by
    have hnext : match c.next? with
      | some (n, c') => c.Ahead n ∧ (∀ m, c.Ahead m → n ≤ m) ∧ ∀ m, c'.Ahead m ↔ c.Ahead m ∧ m ≠ n
      | none => ∀ m, ¬c.Ahead m := nextFrom_spec c.word c.words
    rw [drain]
    cases hc : c.next? with
    | none =>
      simp only [hc] at hnext
      exact ⟨List.Pairwise.nil, fun m => by simpa using hnext m⟩
    | some found =>
      obtain ⟨n, c'⟩ := found
      simp only [hc] at hnext ⊢
      obtain ⟨hn, hleast, hrest⟩ := hnext
      have hbounds := hin n hn
      obtain ⟨hsorted, hmem⟩ := drain_spec limit c' (n + 1) high
        (fun m hm => by
          obtain ⟨hm, hne⟩ := (hrest m).1 hm
          have := hleast m hm
          have := hin m hm
          omega)
        (by omega)
      refine ⟨List.pairwise_cons.2 ⟨fun m hm => ?_, hsorted⟩, fun m => ?_⟩
      · obtain ⟨hm, hne⟩ := (hrest m).1 ((hmem m).1 hm)
        have := hleast m hm
        omega
      · rw [List.mem_cons, hmem, hrest]
        constructor
        · rintro (rfl | ⟨hm, -⟩)
          · exact hn
          · exact hm
        · intro hm
          by_cases hmn : m = n
          · exact .inl hmn
          · exact .inr ⟨hm, hmn⟩

end Cursor

end BitSet

end CodeImage
