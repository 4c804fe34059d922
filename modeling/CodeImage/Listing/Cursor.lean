import CodeImage.Listing.Basic
import CodeImage.Listing.Token
/-!
# Cursors

A cursor stands between two tokens of a listing's text.  Its readers take the next tokens or say what they expected
instead; whatever they take, fewer tokens are left.  An error names the line of the token at which reading stopped.
-/
namespace CodeImage

/-- **What is wrong with a text.** -/
inductive ReadFault where
  | expectedSign (c : Char)
  | expectedArrow
  | expectedWord
  | expectedNumeral
  | badNumeral (digits : String)
  | strayInsn
  | noBlocks (method : String)
  | incomplete (method : String) (cause : CompletionError)
  | unknownDirective (word : String)
  | emptyData (name : String)
  | unknownPart (word : String)
  | noMethods
  deriving DecidableEq, Repr

namespace ReadFault

def text : ReadFault → String
  | .expectedSign c => "expected char '" ++ c.toString ++ "'"
  | .expectedArrow => "expected '->'"
  | .expectedWord => "expected identifier or keyword"
  | .expectedNumeral => "expected integer"
  | .badNumeral digits => "bad number '" ++ digits ++ "'"
  | .strayInsn => "instruction outside of a block"
  | .noBlocks m => "method " ++ m ++ " has no blocks"
  | .incomplete m cause => "in method " ++ m ++ ": " ++ cause.message
  | .unknownDirective w => "unknown data directive '" ++ w ++ "'"
  | .emptyData n => "data " ++ n ++ " is empty"
  | .unknownPart w => "expected method or data, got '" ++ w ++ "'"
  | .noMethods => "no methods"

end ReadFault

/-- **Where a text is wrong.** -/
structure ReadError where
  line : Nat
  fault : ReadFault
  deriving DecidableEq, Repr

namespace ReadError

def message (e : ReadError) : String := s!"error at line {e.line}: {e.fault.text}"

end ReadError

/-- **How far a text has been read**: the line of the last token taken, the tokens left, and the line on which the text
ends. -/
structure Cursor where
  line : Nat
  rest : List Lexeme
  stop : Nat
  deriving DecidableEq, Repr

namespace Cursor

def ofText (text : String) : Cursor := ⟨1, Lexeme.scan 1 text.toList, 1 + text.toList.count '\n'⟩

/-- The line of the next token, or of the end. -/
def nextLine (c : Cursor) : Nat := (c.rest.head?.map (·.line)).getD c.stop

/-- An error at the next token. -/
def reject {α : Type} (c : Cursor) (fault : ReadFault) : Except ReadError α := .error ⟨c.nextLine, fault⟩

/-- An error at the last token taken. -/
def fail {α : Type} (c : Cursor) (fault : ReadFault) : Except ReadError α := .error ⟨c.line, fault⟩

/-- Take the next token if it is the given one. -/
def take? (c : Cursor) (t : Token) : Option Cursor :=
  match c.rest with
  | l :: rest => if l.token = t then some { c with line := l.line, rest } else none
  | [] => none

def expectSign (c : Cursor) (s : Char) : Except ReadError Cursor :=
  match c.take? (.sign s) with
  | some c => .ok c
  | none => c.reject (.expectedSign s)

def expectArrow (c : Cursor) : Except ReadError Cursor :=
  match c.rest with
  | ⟨.arrow, line⟩ :: rest => .ok { c with line, rest }
  | ⟨.dash atLineEnd, line⟩ :: _ => .error ⟨if atLineEnd then line + 1 else line, .expectedArrow⟩
  | _ => c.reject .expectedArrow

def readWord (c : Cursor) : Except ReadError (String × Cursor) :=
  match c.rest with
  | ⟨.word w, line⟩ :: rest => .ok (w, { c with line, rest })
  | _ => c.reject .expectedWord

def readNumeral (c : Cursor) : Except ReadError (Nat × Cursor) :=
  match c.rest with
  | ⟨.numeral digits, line⟩ :: rest => match numeralValue? digits.toList with
    | some n => .ok (n, { c with line, rest })
    | none => .error ⟨line, .badNumeral digits⟩
  | _ => c.reject .expectedNumeral

/-! ## Reading goes forward -/

/-- A sequence succeeds when its first part does and then its second. -/
theorem bind_eq_ok {α β : Type} {x : Except ReadError α} {f : α → Except ReadError β} {b : β} :
    (x >>= f) = .ok b ↔ ∃ a, x = .ok a ∧ f a = .ok b := by
  cases x <;> simp [bind, Except.bind]

theorem map_eq_ok {α β : Type} {x : Except ReadError α} {f : α → β} {b : β} :
    x.map f = .ok b ↔ ∃ a, x = .ok a ∧ f a = b := by
  cases x <;> simp [Except.map]

/-- The tokens left. -/
def left (c : Cursor) : Nat := c.rest.length

theorem take?_left {c c' : Cursor} {t : Token} (h : c.take? t = some c') : c'.left < c.left := by
  unfold take? at h
  split at h
  · rename_i l rest hr
    split at h
    · cases h; simp [left, hr]
    · cases h
  · cases h

theorem expectSign_left {c c' : Cursor} {s : Char} (h : c.expectSign s = .ok c') : c'.left < c.left := by
  unfold expectSign at h
  split at h
  · rename_i d hd; cases h; exact take?_left hd
  · cases h

theorem expectArrow_left {c c' : Cursor} (h : c.expectArrow = .ok c') : c'.left < c.left := by
  unfold expectArrow at h
  split at h
  · rename_i hr; cases h; simp [left, hr]
  · cases h
  · cases h

theorem readWord_left {c c' : Cursor} {w : String} (h : c.readWord = .ok (w, c')) : c'.left < c.left := by
  unfold readWord at h
  split at h
  · rename_i hr; cases h; simp [left, hr]
  · cases h

theorem readNumeral_left {c c' : Cursor} {n : Nat} (h : c.readNumeral = .ok (n, c')) : c'.left < c.left := by
  unfold readNumeral at h
  split at h
  · rename_i hr
    split at h
    · cases h; simp [left, hr]
    · cases h
  · cases h

end Cursor

end CodeImage
