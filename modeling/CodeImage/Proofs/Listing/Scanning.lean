import Mathlib.Data.List.Basic
import CodeImage.Listing.Reader
/-!
# Scanning — the tokens of written words and numbers

Numbers are written so that they are read back (`numeralValue?_toString`, `numeralValue?_hex`).  The tokens of a text do
not depend on its lines (`map_token_scan`), and words, numerals and signs that are written one behind the other are the
tokens of what is written (`tokens_word`, `tokens_numeral`, `tokens_sign`).  Conversely the words among the tokens of any
text can be written (`isWord_of_mem_scan`).
-/
namespace CodeImage

/-! ## Numbers -/

theorem digitValue?_digitChar : ∀ d < 16, digitValue? d.digitChar = some d := by decide

section Digits

variable {base : Nat} (h : 1 < base)

include h

theorem ofDigits?_toDigits (hle : base ≤ 16) (n : Nat) : ofDigits? base (Nat.toDigits base n) = some n := by
  induction n using Nat.strongRecOn with
  | ind n ih =>
    by_cases hn : n < base
    · have hdigit := digitValue?_digitChar n (by omega)
      simp [Nat.toDigits_of_lt_base hn, ofDigits?, hdigit, hn]
    · have hmod : n % base < base := Nat.mod_lt n (by omega)
      have hdigit := digitValue?_digitChar (n % base) (by omega)
      have hdiv := ih (n / base) (Nat.div_lt_self (by omega) h)
      rw [ofDigits?] at hdiv
      rw [Nat.toDigits_of_base_le h (by omega), ofDigits?, List.foldlM_append, hdiv]
      simp [hdigit, hmod, Nat.div_add_mod]

theorem exists_digit_of_mem {c : Char} {n : Nat} (hc : c ∈ Nat.toDigits base n) : ∃ d < base, c = d.digitChar := by
  induction n using Nat.strongRecOn with
  | ind n ih =>
    by_cases hn : n < base
    · rw [Nat.toDigits_of_lt_base hn, List.mem_singleton] at hc
      exact ⟨n, hn, hc⟩
    · rw [Nat.toDigits_of_base_le h (by omega), List.mem_append, List.mem_singleton] at hc
      rcases hc with hc | hc
      · exact ih (n / base) (Nat.div_lt_self (by omega) h) hc
      · exact ⟨n % base, Nat.mod_lt n (by omega), hc⟩

end Digits

theorem wordOfDigits?_toDigits {base n : Nat} (h : 1 < base) (hle : base ≤ 16) (hn : n < wordLimit) :
    wordOfDigits? base (Nat.toDigits base n) = some n := by
  simp [wordOfDigits?, ofDigits?_toDigits h hle, hn]

theorem numeralValue?_toString {n : Nat} (hn : n < wordLimit) : numeralValue? (toString n).toList = some n := by
  have hdigits : (toString n).toList = Nat.toDigits 10 n := by simp
  have hdecimal : ∀ c ∈ (toString n).toList, c ≠ 'x' ∧ c ≠ 'X' := by
    intro c hc
    rw [hdigits] at hc
    obtain ⟨d, hd, rfl⟩ := exists_digit_of_mem (by decide) hc
    clear hc
    revert d
    decide
  unfold numeralValue?
  split
  · rename_i digits heq
    rw [heq] at hdecimal
    exact absurd rfl (hdecimal 'x' (by simp)).1
  · rename_i digits heq
    rw [heq] at hdecimal
    exact absurd rfl (hdecimal 'X' (by simp)).2
  · rw [hdigits]
    exact wordOfDigits?_toDigits (by decide) (by decide) hn

theorem toList_hex (n : Nat) : (hex n).toList = '0' :: 'x' :: Nat.toDigits 16 n := by simp [hex, hexDigits]

theorem numeralValue?_hex {n : Nat} (hn : n < wordLimit) : numeralValue? (hex n).toList = some n := by
  rw [toList_hex, numeralValue?]
  exact wordOfDigits?_toDigits (by decide) (by decide) hn

theorem wordOfDigits?_lt {base n : Nat} {digits : List Char} (h : wordOfDigits? base digits = some n) : n < wordLimit := by
  unfold wordOfDigits? at h
  split at h
  · cases h
  · simpa using (Option.filter_eq_some_iff.1 h).2

theorem numeralValue?_lt {n : Nat} {digits : List Char} (h : numeralValue? digits = some n) : n < wordLimit := by
  unfold numeralValue? at h
  split at h <;> exact wordOfDigits?_lt h

namespace Lexeme

/-! ## Tokens -/

/-- **The text is one word.** -/
def isWord (w : String) : Bool :=
  match w.toList with
  | c :: cs => isLetter c && cs.all isWordChar
  | [] => false

/-- **The text is one numeral**, as it stands in its token. -/
def isNumeral (s : String) : Bool :=
  match s.toList with
  | c :: cs => isDigit c && cs.all fun c => isNumeralChar c && c != '_'
  | [] => false

/-- **The character is a token of its own.** -/
def isSign (c : Char) : Bool := !isBlank c && c != ';' && !isLetter c && !isDigit c && c != '-'

theorem isNumeral_toString (n : Nat) : isNumeral (toString n) = true := by
  have hdigits : (toString n).toList = Nat.toDigits 10 n := by simp
  have hall : ∀ c ∈ Nat.toDigits 10 n, isDigit c = true ∧ isNumeralChar c = true ∧ c ≠ '_' := by
    intro c hc
    obtain ⟨d, hd, rfl⟩ := exists_digit_of_mem (by decide) hc
    clear hc
    revert d
    decide
  unfold isNumeral
  rw [hdigits]
  cases hlist : Nat.toDigits 10 n with
  | nil => exact absurd hlist Nat.toDigits_ne_nil
  | cons c cs =>
    rw [hlist, List.forall_mem_cons] at hall
    simp only [Bool.and_eq_true, List.all_eq_true, bne_iff_ne]
    exact ⟨hall.1.1, fun x hx => (hall.2 x hx).2⟩

theorem isNumeral_hex (n : Nat) : isNumeral (hex n) = true := by
  have hall : ∀ c ∈ Nat.toDigits 16 n, isNumeralChar c = true ∧ c ≠ '_' := by
    intro c hc
    obtain ⟨d, hd, rfl⟩ := exists_digit_of_mem (by decide) hc
    clear hc
    revert d
    decide
  have hfirst : isDigit '0' = true := by decide
  have hmark : isNumeralChar 'x' = true := by decide
  simp only [isNumeral, toList_hex, List.all_cons, Bool.and_eq_true, List.all_eq_true, bne_iff_ne]
  exact ⟨hfirst, ⟨hmark, by decide⟩, hall⟩

/-- **The tokens of a text.** -/
def tokens (cs : List Char) : List Token := (scan 1 cs).map (·.token)

/-- What stands on which line makes no difference to tokens. -/
theorem map_token_scan (line : Nat) (cs : List Char) : (scan line cs).map (·.token) = tokens cs := by
  unfold tokens
  generalize 1 = line'
  induction hn : cs.length using Nat.strongRecOn generalizing cs line line' with
  | ind n ih =>
    subst hn
    cases cs with
    | nil => simp [scan]
    | cons c cs =>
      have hdrop : ∀ (p : Char → Bool) (line line' : Nat),
          (scan line (cs.dropWhile p)).map (·.token) = (scan line' (cs.dropWhile p)).map (·.token) :=
        fun p line line' => ih _ (length_dropWhile_lt c cs) line _ line' rfl
      have htail : ∀ line line' : Nat, (scan line cs.tail).map (·.token) = (scan line' cs.tail).map (·.token) :=
        fun line line' => ih _ (by simp only [List.length_tail, List.length_cons]; omega) line _ line' rfl
      have hrest : ∀ line line' : Nat, (scan line cs).map (·.token) = (scan line' cs).map (·.token) :=
        fun line line' => ih _ (Nat.lt_succ_self _) line _ line' rfl
      rw [scan, scan]
      split_ifs
      · exact hrest _ _
      · exact hrest _ _
      · exact hdrop _ _ _
      · rw [List.map_cons, List.map_cons, hdrop _ line line']
      · rw [List.map_cons, List.map_cons, hdrop _ line line']
      · rw [List.map_cons, List.map_cons, htail line line']
      · rw [List.map_cons, List.map_cons, hrest line line']
      · rw [List.map_cons, List.map_cons, hrest line line']

theorem tokens_nil : tokens [] = [] := by simp [tokens, scan]

theorem tokens_blank {c : Char} (h : isBlank c = true) (rest : List Char) : tokens (c :: rest) = tokens rest := by
  rw [← map_token_scan 1, scan]
  by_cases hc : c = '\n'
  · rw [if_pos hc, map_token_scan]
  · rw [if_neg hc, if_pos h, map_token_scan]

theorem toNat_of_isLetter {c : Char} (h : isLetter c = true) : 97 ≤ c.toNat ∧ c.toNat ≤ 122 ∨
    65 ≤ c.toNat ∧ c.toNat ≤ 90 ∨ c.toNat = 95 ∨ c.toNat = 46 := by
  simp only [isLetter, Bool.or_eq_true, Bool.and_eq_true, decide_eq_true_eq, beq_iff_eq] at h
  rcases h with ((h | h) | rfl) | rfl
  · exact .inl h
  · exact .inr (.inl h)
  · decide
  · decide

theorem toNat_of_isDigit {c : Char} (h : isDigit c = true) : 48 ≤ c.toNat ∧ c.toNat ≤ 57 := by
  simp only [isDigit, Bool.and_eq_true, decide_eq_true_eq] at h
  exact h

theorem not_skipped {c : Char} (hlow : 32 < c.toNat) (hhigh : c.toNat < 133) (hne : c.toNat ≠ 59) :
    c ≠ '\n' ∧ isBlank c = false ∧ c ≠ ';' := by
  refine ⟨?_, ?_, ?_⟩
  · rintro rfl
    revert hlow
    decide
  · simp [isBlank, blankRanges]
    omega
  · rintro rfl
    exact hne rfl

theorem tokens_word {w : String} (hw : isWord w = true) {x : Char} (hx : isWordChar x = false) (rest : List Char) :
    tokens (w.toList ++ x :: rest) = .word w :: tokens (x :: rest) := by
  unfold isWord at hw
  split at hw
  · rename_i c cs hlist
    simp only [Bool.and_eq_true, List.all_eq_true] at hw
    obtain ⟨hletter, hcs⟩ := hw
    have hc := toNat_of_isLetter hletter
    obtain ⟨hnewline, hblank, hcomment⟩ : c ≠ '\n' ∧ isBlank c = false ∧ c ≠ ';' :=
      not_skipped (by omega) (by omega) (by omega)
    rw [← map_token_scan 1, hlist, List.cons_append, scan]
    simp only [hnewline, hblank, hcomment, hletter, if_true, if_false, Bool.false_eq_true, List.map_cons]
    -- the character behind the word ends it
    rw [List.takeWhile_append_of_pos hcs, List.dropWhile_append_of_pos hcs, List.takeWhile_cons_of_neg (by simp [hx]),
      List.dropWhile_cons_of_neg (by simp [hx]), List.append_nil, map_token_scan, ← hlist, String.ofList_toList]
  · cases hw

theorem tokens_numeral {s : String} (hs : isNumeral s = true) {x : Char} (hx : isNumeralChar x = false)
    (rest : List Char) : tokens (s.toList ++ x :: rest) = .numeral s :: tokens (x :: rest) := by
  unfold isNumeral at hs
  split at hs
  · rename_i c cs hlist
    simp only [Bool.and_eq_true, List.all_eq_true] at hs
    obtain ⟨hdigit, hcs⟩ := hs
    have hc := toNat_of_isDigit hdigit
    obtain ⟨hnewline, hblank, hcomment⟩ : c ≠ '\n' ∧ isBlank c = false ∧ c ≠ ';' :=
      not_skipped (by omega) (by omega) (by omega)
    have hletter : isLetter c = false := by
      rw [Bool.eq_false_iff]
      intro hletter
      have := toNat_of_isLetter hletter
      omega
    -- a numeral is spelled without the underscores that its text may have
    have hkept : cs.filter (· != '_') = cs := List.filter_eq_self.2 fun y hy => (hcs y hy).2
    rw [← map_token_scan 1, hlist, List.cons_append, scan]
    simp only [hnewline, hblank, hcomment, hletter, hdigit, if_true, if_false, Bool.false_eq_true, List.map_cons]
    rw [List.takeWhile_append_of_pos fun y hy => (hcs y hy).1, List.dropWhile_append_of_pos fun y hy => (hcs y hy).1,
      List.takeWhile_cons_of_neg (by simp [hx]), List.dropWhile_cons_of_neg (by simp [hx]), List.append_nil,
      map_token_scan, hkept, ← hlist, String.ofList_toList]
  · cases hs

theorem tokens_sign {c : Char} (h : isSign c = true) (rest : List Char) : tokens (c :: rest) = .sign c :: tokens rest := by
  simp only [isSign, Bool.and_eq_true, Bool.not_eq_true', bne_iff_ne] at h
  obtain ⟨⟨⟨⟨hblank, hcomment⟩, hletter⟩, hdigit⟩, hdash⟩ := h
  have hnewline : c ≠ '\n' := by rintro rfl; revert hblank; decide
  rw [← map_token_scan 1, scan]
  simp only [hnewline, hblank, hcomment, hletter, hdigit, hdash, if_false, Bool.false_eq_true, List.map_cons,
    map_token_scan]

theorem tokens_arrow (rest : List Char) : tokens ('-' :: '>' :: rest) = .arrow :: tokens rest := by
  rw [← map_token_scan 1, scan]
  have hdash : isBlank '-' = false ∧ isLetter '-' = false ∧ isDigit '-' = false := by decide
  simp [hdash, map_token_scan]

/-- **Words that are read can be written.** -/
theorem isWord_of_mem_scan {line : Nat} {cs : List Char} {l : Lexeme} {w : String} (hl : l ∈ scan line cs)
    (hw : l.token = .word w) : isWord w = true := by
  fun_induction scan line cs with
  | case1 => cases hl
  | case2 line cs ih => exact ih hl
  | case3 line c cs _ _ ih => exact ih hl
  | case4 line cs _ _ ih => exact ih hl
  | case5 line c cs _ _ _ hletter ih =>
    rcases List.mem_cons.1 hl with rfl | hl
    · cases hw
      simp [isWord, hletter]
    · exact ih hl
  | case6 line c cs _ _ _ _ _ ih =>
    rcases List.mem_cons.1 hl with rfl | hl
    · cases hw
    · exact ih hl
  | case7 line cs _ _ _ _ _ _ ih =>
    rcases List.mem_cons.1 hl with rfl | hl
    · cases hw
    · exact ih hl
  | case8 line cs _ _ _ _ _ _ ih =>
    rcases List.mem_cons.1 hl with rfl | hl
    · cases hw
    · exact ih hl
  | case9 line c cs _ _ _ _ _ _ ih =>
    rcases List.mem_cons.1 hl with rfl | hl
    · cases hw
    · exact ih hl

end Lexeme

end CodeImage
