import CodeImage.Proofs.Listing.Scanning
/-!
# Items — what stands in the body of a method, written and read

An item that is read from tokens is spelled: its words are words, its numbers fit into a word (`Words.readItem`).
A spelled item as it is written has the tokens that stand for it (`BodyItem.tokens_text`), and these are read as the same
item (`exists_readItem`).  So a row of items that are written one behind the other is read as the draft that the items
make (`exists_readItems`).
-/
namespace CodeImage

open Lexeme (isWord isNumeral tokens_word tokens_numeral tokens_sign tokens_arrow tokens_blank)

/-- The words that begin an item other than a block. -/
def keywords : List String :=
  ["type", "protect", "op", "word", "call", "call_noreturn", "load", "goto", "branch", "ret", "throw", "trap"]

namespace Insn

/-- **The tokens that stand for an instruction.** -/
def tokens : Insn → List Token
  | .op words => [.word "op", .numeral (toString words)]
  | .word value => [.word "word", .numeral (hex value)]
  | .call callee true => [.word "call", .word callee]
  | .call callee false => [.word "call_noreturn", .word callee]
  | .load target => [.word "load", .word target]
  | .goto l => [.word "goto", .word l.name]
  | .branch a b => [.word "branch", .word a.name, .sign ',', .word b.name]
  | .ret => [.word "ret"]
  | .throw => [.word "throw"]
  | .trap => [.word "trap"]

/-- **An instruction as it may be read.** -/
def Spelled : Insn → Prop
  | .op n | .word n => n < wordLimit
  | .call f _ | .load f => isWord f = true
  | .goto l => l = .unresolved l.name ∧ isWord l.name = true
  | .branch a b => (a = .unresolved a.name ∧ isWord a.name = true) ∧ b = .unresolved b.name ∧ isWord b.name = true
  | .ret | .throw | .trap => True

end Insn

namespace BodyItem

def filterText : Option Nat → String
  | some ty => " catch " ++ toString ty
  | none => ""

def text : BodyItem → String
  | .type ty parent => "  type " ++ toString ty ++ " : " ++ toString parent ++ "\n"
  | .protect name handler filter => "  protect " ++ name ++ " -> " ++ handler ++ filterText filter ++ "\n"
  | .insn i => "  " ++ i.text ++ "\n"
  | .block name => name ++ ":\n"

def filterTokens : Option Nat → List Token
  | some ty => [.word "catch", .numeral (toString ty)]
  | none => []

def tokens : BodyItem → List Token
  | .type ty parent => [.word "type", .numeral (toString ty), .sign ':', .numeral (toString parent)]
  | .protect name handler filter => [.word "protect", .word name, .arrow, .word handler] ++ filterTokens filter
  | .insn i => i.tokens
  | .block name => [.word name, .sign ':']

/-- **An item as it may be read.** -/
def Spelled : BodyItem → Prop
  | .type ty parent => ty < wordLimit ∧ parent < wordLimit
  | .protect name handler filter => isWord name = true ∧ isWord handler = true ∧ ∀ ty ∈ filter, ty < wordLimit
  | .insn i => i.Spelled
  | .block name => isWord name = true ∧ name ∉ keywords

def isClause : BodyItem → Bool
  | .protect _ _ _ => true
  | _ => false

end BodyItem

/-! ## Writing -/

theorem tokens_append (s t : String) (rest : List Char) :
    Lexeme.tokens ((s ++ t).toList ++ rest) = Lexeme.tokens (s.toList ++ (t.toList ++ rest)) := by
  rw [String.toList_append, List.append_assoc]

theorem tokens_indent (rest : List Char) : Lexeme.tokens ("  ".toList ++ rest) = Lexeme.tokens rest := by
  change Lexeme.tokens (' ' :: ' ' :: rest) = _
  rw [tokens_blank (by decide), tokens_blank (by decide)]

theorem tokens_word_blank {w : String} (hw : isWord w = true) (rest : List Char) :
    Lexeme.tokens (w.toList ++ ' ' :: rest) = .word w :: Lexeme.tokens rest := by
  rw [tokens_word hw (by decide), tokens_blank (by decide)]

theorem tokens_word_newline {w : String} (hw : isWord w = true) (rest : List Char) :
    Lexeme.tokens (w.toList ++ '\n' :: rest) = .word w :: Lexeme.tokens rest := by
  rw [tokens_word hw (by decide), tokens_blank (by decide)]

theorem tokens_numeral_newline {s : String} (hs : isNumeral s = true) (rest : List Char) :
    Lexeme.tokens (s.toList ++ '\n' :: rest) = .numeral s :: Lexeme.tokens rest := by
  rw [tokens_numeral hs (by decide), tokens_blank (by decide)]

theorem tokens_words {k w : String} (hk : isWord k = true) (hw : isWord w = true) (rest : List Char) :
    Lexeme.tokens ((k ++ " " ++ w).toList ++ '\n' :: rest) = [.word k, .word w] ++ Lexeme.tokens rest := by
  rw [tokens_append, tokens_append]
  change Lexeme.tokens (k.toList ++ ' ' :: (w.toList ++ '\n' :: rest)) = _
  rw [tokens_word_blank hk, tokens_word_newline hw]
  rfl

theorem tokens_word_numeral {k s : String} (hk : isWord k = true) (hs : isNumeral s = true) (rest : List Char) :
    Lexeme.tokens ((k ++ " " ++ s).toList ++ '\n' :: rest) = [.word k, .numeral s] ++ Lexeme.tokens rest := by
  rw [tokens_append, tokens_append]
  change Lexeme.tokens (k.toList ++ ' ' :: (s.toList ++ '\n' :: rest)) = _
  rw [tokens_word_blank hk, tokens_numeral_newline hs]
  rfl

/-- **An instruction is written in its tokens.** -/
theorem Insn.tokens_text {i : Insn} (h : i.Spelled) (rest : List Char) :
    Lexeme.tokens (i.text.toList ++ '\n' :: rest) = i.tokens ++ Lexeme.tokens rest := by
  cases i with
  | op n => exact tokens_word_numeral (k := "op") (by decide) (Lexeme.isNumeral_toString n) rest
  | word n => exact tokens_word_numeral (k := "word") (by decide) (Lexeme.isNumeral_hex n) rest
  | call f returns =>
    cases returns with
    | true => exact tokens_words (k := "call") (by decide) h rest
    | false => exact tokens_words (k := "call_noreturn") (by decide) h rest
  | load x => exact tokens_words (k := "load") (by decide) h rest
  | goto l => exact tokens_words (k := "goto") (by decide) h.2 rest
  | branch a b =>
    change Lexeme.tokens (("branch " ++ a.name ++ ", " ++ b.name).toList ++ '\n' :: rest) = _
    rw [tokens_append, tokens_append, tokens_append]
    change Lexeme.tokens ("branch".toList ++ ' ' :: (a.name.toList ++ ',' :: ' ' :: (b.name.toList ++ '\n' :: rest))) = _
    rw [tokens_word_blank (by decide), tokens_word h.1.2 (by decide), tokens_sign (by decide), tokens_blank (by decide),
      tokens_word_newline h.2.2]
    rfl
  | ret => exact tokens_word_newline (by decide) rest
  | throw => exact tokens_word_newline (by decide) rest
  | trap => exact tokens_word_newline (by decide) rest

/-- **An item is written in its tokens.** -/
theorem BodyItem.tokens_text {item : BodyItem} (h : item.Spelled) (rest : List Char) :
    Lexeme.tokens (item.text.toList ++ rest) = item.tokens ++ Lexeme.tokens rest := by
  cases item with
  | type ty parent =>
    change Lexeme.tokens (("  type " ++ toString ty ++ " : " ++ toString parent ++ "\n").toList ++ rest) = _
    rw [tokens_append, tokens_append, tokens_append, tokens_append]
    change Lexeme.tokens ("  ".toList ++ ("type".toList ++ ' ' :: ((toString ty).toList ++ ' ' :: ':' :: ' ' ::
      ((toString parent).toList ++ '\n' :: rest)))) = _
    rw [tokens_indent, tokens_word_blank (by decide), tokens_numeral (Lexeme.isNumeral_toString ty) (by decide),
      tokens_blank (by decide), tokens_sign (by decide), tokens_blank (by decide),
      tokens_numeral_newline (Lexeme.isNumeral_toString parent)]
    rfl
  | protect name handler filter =>
    obtain ⟨hname, hhandler, -⟩ := h
    change Lexeme.tokens (("  protect " ++ name ++ " -> " ++ handler ++ filterText filter ++ "\n").toList ++ rest) = _
    rw [tokens_append, tokens_append, tokens_append, tokens_append, tokens_append]
    change Lexeme.tokens ("  ".toList ++ ("protect".toList ++ ' ' :: (name.toList ++ ' ' :: '-' :: '>' :: ' ' ::
      (handler.toList ++ _)))) = _
    rw [tokens_indent, tokens_word_blank (by decide), tokens_word_blank hname, tokens_arrow, tokens_blank (by decide)]
    cases filter with
    | none =>
      change _ :: _ :: _ :: Lexeme.tokens (handler.toList ++ '\n' :: rest) = _
      rw [tokens_word_newline hhandler]
      rfl
    | some ty =>
      rw [filterText, String.toList_append, List.append_assoc]
      change _ :: _ :: _ :: Lexeme.tokens (handler.toList ++ ' ' :: ("catch".toList ++ ' ' ::
        ((toString ty).toList ++ '\n' :: rest))) = _
      rw [tokens_word_blank hhandler, tokens_word_blank (by decide), tokens_numeral_newline (Lexeme.isNumeral_toString ty)]
      rfl
  | insn i =>
    change Lexeme.tokens (("  " ++ i.text ++ "\n").toList ++ rest) = _
    rw [tokens_append, tokens_append, tokens_indent]
    exact Insn.tokens_text h rest
  | block name =>
    change Lexeme.tokens ((name ++ ":\n").toList ++ rest) = _
    rw [tokens_append]
    change Lexeme.tokens (name.toList ++ ':' :: '\n' :: rest) = _
    rw [tokens_word h.1 (by decide), tokens_sign (by decide), tokens_blank (by decide)]
    rfl

/-! ## Reading -/

namespace Cursor

def tokens (c : Cursor) : List Token := c.rest.map (·.token)

theorem take?_eq_some {c c' : Cursor} {t : Token} (h : c.take? t = some c') : c.tokens = t :: c'.tokens := by
  unfold take? at h
  split at h
  · rename_i l rest hrest
    split at h
    · rename_i ht
      cases h
      simp [tokens, hrest, ht]
    · cases h
  · cases h

theorem exists_take? {c : Cursor} {t : Token} {ts : List Token} (h : c.tokens = t :: ts) :
    ∃ c', c.take? t = some c' ∧ c'.tokens = ts := by
  obtain ⟨l, rest, hrest, rfl, rfl⟩ := List.map_eq_cons_iff.1 h
  exact ⟨{ c with line := l.line, rest := rest }, by simp [take?, hrest], rfl⟩

theorem take?_eq_none {c : Cursor} {t : Token} (h : c.tokens.head? ≠ some t) : c.take? t = none := by
  rw [Option.eq_none_iff_forall_ne_some]
  intro c' hc'
  rw [take?_eq_some hc'] at h
  exact h rfl

theorem expectSign_eq_ok {c c' : Cursor} {s : Char} (h : c.expectSign s = .ok c') : c.tokens = .sign s :: c'.tokens := by
  unfold expectSign at h
  split at h
  · rename_i d hd
    cases h
    exact take?_eq_some hd
  · cases h

theorem exists_expectSign {c : Cursor} {s : Char} {ts : List Token} (h : c.tokens = .sign s :: ts) :
    ∃ c', c.expectSign s = .ok c' ∧ c'.tokens = ts := by
  obtain ⟨c', hc', htokens⟩ := exists_take? h
  exact ⟨c', by rw [expectSign, hc'], htokens⟩

theorem expectArrow_eq_ok {c c' : Cursor} (h : c.expectArrow = .ok c') : c.tokens = .arrow :: c'.tokens := by
  unfold expectArrow at h
  split at h
  · rename_i hrest
    cases h
    simp [tokens, hrest]
  · cases h
  · cases h

theorem exists_expectArrow {c : Cursor} {ts : List Token} (h : c.tokens = .arrow :: ts) :
    ∃ c', c.expectArrow = .ok c' ∧ c'.tokens = ts := by
  obtain ⟨⟨t, line⟩, rest, hrest, rfl, rfl⟩ := List.map_eq_cons_iff.1 h
  exact ⟨{ c with line, rest }, by rw [expectArrow, hrest], rfl⟩

theorem readWord_eq_ok {c c' : Cursor} {w : String} (h : c.readWord = .ok (w, c')) :
    c.tokens = .word w :: c'.tokens := by
  unfold readWord at h
  split at h
  · rename_i hrest
    cases h
    simp [tokens, hrest]
  · cases h

theorem exists_readWord {c : Cursor} {w : String} {ts : List Token} (h : c.tokens = .word w :: ts) :
    ∃ c', c.readWord = .ok (w, c') ∧ c'.tokens = ts := by
  obtain ⟨⟨t, line⟩, rest, hrest, rfl, rfl⟩ := List.map_eq_cons_iff.1 h
  exact ⟨{ c with line, rest }, by rw [readWord, hrest], rfl⟩

theorem readNumeral_eq_ok {c c' : Cursor} {n : Nat} (h : c.readNumeral = .ok (n, c')) :
    n < wordLimit ∧ ∃ digits, c.tokens = .numeral digits :: c'.tokens := by
  unfold readNumeral at h
  split at h
  · rename_i digits line rest hrest
    split at h
    · rename_i value hvalue
      cases h
      exact ⟨numeralValue?_lt hvalue, digits, by simp [tokens, hrest]⟩
    · cases h
  · cases h

theorem exists_readNumeral {c : Cursor} {digits : String} {n : Nat} {ts : List Token}
    (h : c.tokens = .numeral digits :: ts) (hn : numeralValue? digits.toList = some n) :
    ∃ c', c.readNumeral = .ok (n, c') ∧ c'.tokens = ts := by
  obtain ⟨⟨t, line⟩, rest, hrest, rfl, rfl⟩ := List.map_eq_cons_iff.1 h
  exact ⟨{ c with line, rest }, by simp [readNumeral, hrest, hn], rfl⟩

/-- **The words that are left can be written**, as those of every text can. -/
def Words (c : Cursor) : Prop := ∀ w, .word w ∈ c.tokens → isWord w = true

theorem words_ofText (text : String) : (ofText text).Words := by
  intro w hw
  obtain ⟨l, hl, hw⟩ := List.mem_map.1 hw
  exact Lexeme.isWord_of_mem_scan hl hw

theorem Words.tail {c c' : Cursor} {t : Token} (h : c.Words) (ht : c.tokens = t :: c'.tokens) : c'.Words :=
  fun w hw => h w (by rw [ht]; exact List.mem_cons_of_mem t hw)

theorem Words.readWord {c c' : Cursor} {w : String} (h : c.Words) (hr : c.readWord = .ok (w, c')) :
    isWord w = true ∧ c'.Words := by
  have ht := readWord_eq_ok hr
  exact ⟨h w (by rw [ht]; exact List.mem_cons_self), h.tail ht⟩

theorem Words.readNumeral {c c' : Cursor} {n : Nat} (h : c.Words) (hr : c.readNumeral = .ok (n, c')) :
    n < wordLimit ∧ c'.Words := by
  obtain ⟨hn, digits, ht⟩ := readNumeral_eq_ok hr
  exact ⟨hn, h.tail ht⟩

theorem Words.readOptional {α : Type} {c c' : Cursor} {t : Token} {f : Nat → α} {a b : α} (h : c.Words)
    (hr : (match c.take? t with
      | some c => c.readNumeral.map fun (n, c) => (f n, c)
      | none => .ok (b, c) : Except ReadError (α × Cursor)) = .ok (a, c')) : (a = b ∨ ∃ n, n < wordLimit ∧ a = f n) ∧ c'.Words := by
  split at hr
  · rename_i d hd
    obtain ⟨⟨n, e⟩, hn, he⟩ := map_eq_ok.1 hr
    cases he
    obtain ⟨hn, h⟩ := (h.tail (take?_eq_some hd)).readNumeral hn
    exact ⟨.inr ⟨n, hn, rfl⟩, h⟩
  · cases hr
    exact ⟨.inl rfl, h⟩

theorem Words.readFilter {c c' : Cursor} {filter : Option Nat} (h : c.Words) (hr : c.readFilter = .ok (filter, c')) :
    (∀ ty ∈ filter, ty < wordLimit) ∧ c'.Words := by
  unfold Cursor.readFilter at hr
  obtain ⟨rfl | ⟨n, hn, rfl⟩, h⟩ := h.readOptional hr
  · exact ⟨by simp, h⟩
  · exact ⟨by simpa using hn, h⟩

/-- **An item that is read is spelled.** -/
theorem Words.readItemOf {c c' : Cursor} {w : String} {item : BodyItem} (h : c.Words) (hw : isWord w = true)
    (hr : c.readItemOf w = .ok (item, c')) : item.Spelled ∧ c'.Words := by
  unfold Cursor.readItemOf at hr
  split at hr
  · obtain ⟨⟨ty, c₁⟩, h₁, hr⟩ := bind_eq_ok.1 hr
    obtain ⟨c₂, h₂, hr⟩ := bind_eq_ok.1 hr
    obtain ⟨⟨parent, c₃⟩, h₃, hr⟩ := bind_eq_ok.1 hr
    cases hr
    obtain ⟨hty, h⟩ := h.readNumeral h₁
    obtain ⟨hparent, h⟩ := (h.tail (expectSign_eq_ok h₂)).readNumeral h₃
    exact ⟨⟨hty, hparent⟩, h⟩
  · obtain ⟨⟨name, c₁⟩, h₁, hr⟩ := bind_eq_ok.1 hr
    obtain ⟨c₂, h₂, hr⟩ := bind_eq_ok.1 hr
    obtain ⟨⟨handler, c₃⟩, h₃, hr⟩ := bind_eq_ok.1 hr
    obtain ⟨⟨filter, c₄⟩, h₄, hr⟩ := bind_eq_ok.1 hr
    cases hr
    obtain ⟨hname, h⟩ := h.readWord h₁
    obtain ⟨hhandler, h⟩ := (h.tail (expectArrow_eq_ok h₂)).readWord h₃
    obtain ⟨hfilter, h⟩ := h.readFilter h₄
    exact ⟨⟨hname, hhandler, hfilter⟩, h⟩
  · obtain ⟨⟨n, c₁⟩, h₁, hr⟩ := map_eq_ok.1 hr
    cases hr
    exact h.readNumeral h₁
  · obtain ⟨⟨n, c₁⟩, h₁, hr⟩ := map_eq_ok.1 hr
    cases hr
    exact h.readNumeral h₁
  · obtain ⟨⟨f, c₁⟩, h₁, hr⟩ := map_eq_ok.1 hr
    cases hr
    exact h.readWord h₁
  · obtain ⟨⟨f, c₁⟩, h₁, hr⟩ := map_eq_ok.1 hr
    cases hr
    exact h.readWord h₁
  · obtain ⟨⟨x, c₁⟩, h₁, hr⟩ := map_eq_ok.1 hr
    cases hr
    exact h.readWord h₁
  · obtain ⟨⟨l, c₁⟩, h₁, hr⟩ := map_eq_ok.1 hr
    cases hr
    obtain ⟨hl, h⟩ := h.readWord h₁
    exact ⟨⟨rfl, hl⟩, h⟩
  · obtain ⟨⟨a, c₁⟩, h₁, hr⟩ := bind_eq_ok.1 hr
    obtain ⟨c₂, h₂, hr⟩ := bind_eq_ok.1 hr
    obtain ⟨⟨b, c₃⟩, h₃, hr⟩ := bind_eq_ok.1 hr
    cases hr
    obtain ⟨ha, h⟩ := h.readWord h₁
    obtain ⟨hb, h⟩ := (h.tail (expectSign_eq_ok h₂)).readWord h₃
    exact ⟨⟨⟨rfl, ha⟩, rfl, hb⟩, h⟩
  · cases hr
    exact ⟨trivial, h⟩
  · cases hr
    exact ⟨trivial, h⟩
  · cases hr
    exact ⟨trivial, h⟩
  · obtain ⟨c₁, h₁, hr⟩ := map_eq_ok.1 hr
    cases hr
    refine ⟨⟨hw, ?_⟩, h.tail (expectSign_eq_ok h₁)⟩
    simp only [keywords, List.mem_cons, List.not_mem_nil, or_false, not_or]
    exact ⟨by assumption, by assumption, by assumption, by assumption, by assumption, by assumption, by assumption,
      by assumption, by assumption, by assumption, by assumption, by assumption⟩

theorem Words.readItem {c c' : Cursor} {item : BodyItem} (h : c.Words) (hr : c.readItem = .ok (item, c')) :
    item.Spelled ∧ c'.Words := by
  obtain ⟨⟨w, c₁⟩, h₁, hr⟩ := bind_eq_ok.1 hr
  obtain ⟨hw, h⟩ := h.readWord h₁
  exact h.readItemOf hw hr

/-! ## Reading what is written -/

theorem exists_readFilter {c : Cursor} {filter : Option Nat} {ts : List Token} (hfilter : ∀ ty ∈ filter, ty < wordLimit)
    (h : c.tokens = BodyItem.filterTokens filter ++ ts) (hcatch : ts.head? ≠ some (.word "catch")) :
    ∃ c', c.readFilter = .ok (filter, c') ∧ c'.tokens = ts := by
  cases filter with
  | none => exact ⟨c, by rw [readFilter, take?_eq_none (h ▸ hcatch)], h⟩
  | some ty =>
    obtain ⟨c₁, h₁, ht⟩ := exists_take? h
    obtain ⟨c₂, h₂, ht⟩ := exists_readNumeral ht (numeralValue?_toString (hfilter ty rfl))
    exact ⟨c₂, by rw [readFilter, h₁]; exact map_eq_ok.2 ⟨_, h₂, rfl⟩, ht⟩

theorem readItemOf_block {name : String} (hname : name ∉ keywords) (c : Cursor) :
    c.readItemOf name = (c.expectSign ':').map fun c => (.block name, c) := by
  have hne : ∀ k ∈ keywords, name ≠ k := fun k hk heq => hname (heq ▸ hk)
  unfold readItemOf
  split
  case h_13 => rfl
  all_goals exact absurd rfl (hne _ (by decide))

theorem readItem_of_readWord {c c' : Cursor} {w : String} (h : c.readWord = .ok (w, c')) :
    c.readItem = c'.readItemOf w := by
  rw [readItem, h]
  rfl

theorem exists_readItem_word {c : Cursor} {k w : String} {ts : List Token} {f : String → BodyItem}
    (hk : ∀ c : Cursor, c.readItemOf k = c.readWord.map fun (w, c) => (f w, c))
    (h : c.tokens = .word k :: .word w :: ts) : ∃ c', c.readItem = .ok (f w, c') ∧ c'.tokens = ts := by
  obtain ⟨c₁, h₁, ht⟩ := exists_readWord h
  obtain ⟨c₂, h₂, ht⟩ := exists_readWord ht
  refine ⟨c₂, ?_, ht⟩
  rw [readItem_of_readWord h₁, hk, h₂]
  rfl

theorem exists_readItem_numeral {c : Cursor} {k digits : String} {n : Nat} {ts : List Token} {f : Nat → BodyItem}
    (hk : ∀ c : Cursor, c.readItemOf k = c.readNumeral.map fun (n, c) => (f n, c))
    (h : c.tokens = .word k :: .numeral digits :: ts) (hn : numeralValue? digits.toList = some n) :
    ∃ c', c.readItem = .ok (f n, c') ∧ c'.tokens = ts := by
  obtain ⟨c₁, h₁, ht⟩ := exists_readWord h
  obtain ⟨c₂, h₂, ht⟩ := exists_readNumeral ht hn
  refine ⟨c₂, ?_, ht⟩
  rw [readItem_of_readWord h₁, hk, h₂]
  rfl

theorem exists_readItem_keyword {c : Cursor} {k : String} {item : BodyItem} {ts : List Token}
    (hk : ∀ c : Cursor, c.readItemOf k = .ok (item, c)) (h : c.tokens = .word k :: ts) :
    ∃ c', c.readItem = .ok (item, c') ∧ c'.tokens = ts := by
  obtain ⟨c₁, h₁, ht⟩ := exists_readWord h
  exact ⟨c₁, by rw [readItem_of_readWord h₁, hk], ht⟩

theorem exists_readInsn {c : Cursor} {i : Insn} {ts : List Token} (hi : i.Spelled) (h : c.tokens = i.tokens ++ ts) :
    ∃ c', c.readItem = .ok (.insn i, c') ∧ c'.tokens = ts := by
  cases i with
  | op n => exact exists_readItem_numeral (f := fun n => .insn (.op n)) (fun _ => rfl) h (numeralValue?_toString hi)
  | word n => exact exists_readItem_numeral (f := fun n => .insn (.word n)) (fun _ => rfl) h (numeralValue?_hex hi)
  | call callee returns =>
    cases returns with
    | true => exact exists_readItem_word (f := fun w => .insn (.call w true)) (fun _ => rfl) h
    | false => exact exists_readItem_word (f := fun w => .insn (.call w false)) (fun _ => rfl) h
  | load target => exact exists_readItem_word (f := fun w => .insn (.load w)) (fun _ => rfl) h
  | goto l =>
    rw [hi.1]
    exact exists_readItem_word (f := fun w => .insn (.goto (.unresolved w))) (fun _ => rfl) h
  | branch a b =>
    obtain ⟨c₁, h₁, ht⟩ := exists_readWord h
    obtain ⟨c₂, h₂, ht⟩ := exists_readWord ht
    obtain ⟨c₃, h₃, ht⟩ := exists_expectSign ht
    obtain ⟨c₄, h₄, ht⟩ := exists_readWord ht
    refine ⟨c₄, ?_, ht⟩
    rw [readItem_of_readWord h₁, hi.1.1, hi.2.1]
    exact bind_eq_ok.2 ⟨_, h₂, bind_eq_ok.2 ⟨_, h₃, bind_eq_ok.2 ⟨_, h₄, rfl⟩⟩⟩
  | ret => exact exists_readItem_keyword (fun _ => rfl) h
  | throw => exact exists_readItem_keyword (fun _ => rfl) h
  | trap => exact exists_readItem_keyword (fun _ => rfl) h

/-- **The tokens of an item are read as the item.**  Behind a clause there must not be the word that begins a filter. -/
theorem exists_readItem {c : Cursor} {item : BodyItem} {ts : List Token} (hitem : item.Spelled)
    (h : c.tokens = item.tokens ++ ts) (hcatch : item.isClause = true → ts.head? ≠ some (.word "catch")) :
    ∃ c', c.readItem = .ok (item, c') ∧ c'.tokens = ts := by
  cases item with
  | type ty parent =>
    obtain ⟨c₁, h₁, ht⟩ := exists_readWord h
    obtain ⟨c₂, h₂, ht⟩ := exists_readNumeral ht (numeralValue?_toString hitem.1)
    obtain ⟨c₃, h₃, ht⟩ := exists_expectSign ht
    obtain ⟨c₄, h₄, ht⟩ := exists_readNumeral ht (numeralValue?_toString hitem.2)
    refine ⟨c₄, ?_, ht⟩
    rw [readItem_of_readWord h₁]
    exact bind_eq_ok.2 ⟨_, h₂, bind_eq_ok.2 ⟨_, h₃, bind_eq_ok.2 ⟨_, h₄, rfl⟩⟩⟩
  | protect name handler filter =>
    obtain ⟨c₁, h₁, ht⟩ := exists_readWord h
    obtain ⟨c₂, h₂, ht⟩ := exists_readWord ht
    obtain ⟨c₃, h₃, ht⟩ := exists_expectArrow ht
    obtain ⟨c₄, h₄, ht⟩ := exists_readWord ht
    obtain ⟨c₅, h₅, ht⟩ := exists_readFilter hitem.2.2 ht (hcatch rfl)
    refine ⟨c₅, ?_, ht⟩
    rw [readItem_of_readWord h₁]
    exact bind_eq_ok.2 ⟨_, h₂, bind_eq_ok.2 ⟨_, h₃, bind_eq_ok.2 ⟨_, h₄, bind_eq_ok.2 ⟨_, h₅, rfl⟩⟩⟩⟩
  | insn i => exact exists_readInsn hitem h
  | block name =>
    obtain ⟨c₁, h₁, ht⟩ := exists_readWord h
    obtain ⟨c₂, h₂, ht⟩ := exists_expectSign ht
    refine ⟨c₂, ?_, ht⟩
    rw [readItem_of_readWord h₁, readItemOf_block hitem.2, h₂]
    rfl

/-! ## Rows of items -/

theorem exists_head_tokens (item : BodyItem) :
    ∃ w ts, item.tokens = .word w :: ts ∧ (item.isClause = true → w = "protect") := by
  cases item with
  | insn i =>
    cases i with
    | call f returns => cases returns <;> exact ⟨_, _, rfl, nofun⟩
    | _ => exact ⟨_, _, rfl, nofun⟩
  | protect name handler filter => exact ⟨_, _, rfl, fun _ => rfl⟩
  | _ => exact ⟨_, _, rfl, nofun⟩

theorem readItems_step {c c' : Cursor} {d d' : Draft} {item : BodyItem} (hopen : c.take? (.sign '\x7d') = none)
    (hitem : c.readItem = .ok (item, c')) (hadd : d.add? item = some d') : c.readItems d = c'.readItems d' := by
  rw [readItems, hopen]
  dsimp only
  split
  · rename_i e he
    rw [hitem] at he
    cases he
  · rename_i item₁ c₁ he
    rw [hitem] at he
    cases he
    rw [hadd]

/-- **Items that are written one behind the other** are read as the draft that they make, if the clauses come last. -/
theorem exists_readItems {ts : List Token} : ∀ {items : List BodyItem} {d d' : Draft} {c : Cursor},
    (∀ item ∈ items, item.Spelled) → items.Pairwise (fun a b => a.isClause = true → b.isClause = true) →
    items.foldlM Draft.add? d = some d' → c.tokens = items.flatMap BodyItem.tokens ++ .sign '\x7d' :: ts →
    ∃ c', c.readItems d = .ok (d', c') ∧ c'.tokens = ts
  | [], d, d', c, _, _, hadd, h => by
    cases hadd
    obtain ⟨c₁, h₁, ht⟩ := exists_take? h
    refine ⟨c₁, ?_, ht⟩
    rw [readItems, h₁]
  | item :: items, d, d', c, hitems, hclauses, hadd, h => by
    obtain ⟨hitem, hitems⟩ := List.forall_mem_cons.1 hitems
    obtain ⟨hbehind, hclauses⟩ := List.pairwise_cons.1 hclauses
    rw [List.foldlM_cons] at hadd
    obtain ⟨d₁, hd₁, hadd⟩ := Option.bind_eq_some_iff.1 hadd
    rw [List.flatMap_cons, List.append_assoc] at h
    have hopen : c.take? (.sign '\x7d') = none := by
      obtain ⟨w, ws, hw, -⟩ := exists_head_tokens item
      refine take?_eq_none ?_
      rw [h, hw]
      simp
    -- behind a clause comes another one or the brace, so no block named `catch` is taken for a filter
    have hcatch : item.isClause = true →
        (items.flatMap BodyItem.tokens ++ .sign '\x7d' :: ts).head? ≠ some (.word "catch") := by
      intro hclause
      cases items with
      | nil => simp
      | cons next items =>
        obtain ⟨w, ws, hw, hprotect⟩ := exists_head_tokens next
        rw [List.flatMap_cons, hw, hprotect (hbehind next List.mem_cons_self hclause)]
        simp
    obtain ⟨c₁, h₁, ht⟩ := exists_readItem hitem h hcatch
    obtain ⟨c₂, h₂, ht⟩ := exists_readItems hitems hclauses hadd ht
    exact ⟨c₂, by rw [readItems_step hopen h₁ hd₁, h₂], ht⟩

end Cursor

end CodeImage
