import CodeImage.Listing.Cursor
/-!
# Reading listings

`Listing.read` turns the text of a listing into its methods and data.  The first block of a method is its entry.
-/
namespace CodeImage

/-- **What may stand in the body of a method.** -/
inductive BodyItem where
  | type (ty parent : Nat)
  | protect (block handler : String) (filter : Option Nat)
  | insn (insn : Insn)
  | block (name : String)
  deriving DecidableEq, Repr

/-- **What may stand in the body of a piece of data.** -/
inductive DataDirective where
  | word (value : Nat)
  | ref (target : String) (addend : Int)
  | pointerOffset (offset : Nat)
  deriving DecidableEq, Repr

/-- The signed number whose two's complement form a word is. -/
def signedWord (w : Nat) : Int := if w < wordLimit / 2 then w else (w : Int) - wordLimit

namespace Cursor

/-- The filter of a clause, behind the word `catch`. -/
def readFilter (c : Cursor) : Except ReadError (Option Nat × Cursor) :=
  match c.take? (.word "catch") with
  | some c => c.readNumeral.map fun (n, c) => (some n, c)
  | none => .ok (none, c)

/-- **The item that begins with a word.** -/
def readItemOf (word : String) (c : Cursor) : Except ReadError (BodyItem × Cursor) :=
  match word with
  | "type" => do
    let (ty, c) ← c.readNumeral
    let c ← c.expectSign ':'
    let (parent, c) ← c.readNumeral
    return (.type ty parent, c)
  | "protect" => do
    let (block, c) ← c.readWord
    let c ← c.expectArrow
    let (handler, c) ← c.readWord
    let (filter, c) ← c.readFilter
    return (.protect block handler filter, c)
  | "op" => c.readNumeral.map fun (n, c) => (.insn (.op n), c)
  | "word" => c.readNumeral.map fun (n, c) => (.insn (.word n), c)
  | "call" => c.readWord.map fun (f, c) => (.insn (.call f true), c)
  | "call_noreturn" => c.readWord.map fun (f, c) => (.insn (.call f false), c)
  | "load" => c.readWord.map fun (x, c) => (.insn (.load x), c)
  | "goto" => c.readWord.map fun (l, c) => (.insn (.goto (.unresolved l)), c)
  | "branch" => do
    let (a, c) ← c.readWord
    let c ← c.expectSign ','
    let (b, c) ← c.readWord
    return (.insn (.branch (.unresolved a) (.unresolved b)), c)
  | "ret" => .ok (.insn .ret, c)
  | "throw" => .ok (.insn .throw, c)
  | "trap" => .ok (.insn .trap, c)
  | name => (c.expectSign ':').map fun c => (.block name, c)

/-- **The next item of a method's body.** -/
def readItem (c : Cursor) : Except ReadError (BodyItem × Cursor) := do
  let (word, c) ← c.readWord
  c.readItemOf word

/-- The amount behind a plus sign, or none. -/
def readAddend (c : Cursor) : Except ReadError (Int × Cursor) :=
  match c.take? (.sign '+') with
  | some c => c.readNumeral.map fun (n, c) => (signedWord n, c)
  | none => .ok (0, c)

/-- The directive that begins with a word. -/
def readDirectiveOf (word : String) (c : Cursor) : Except ReadError (DataDirective × Cursor) :=
  match word with
  | "word" => c.readNumeral.map fun (n, c) => (.word n, c)
  | "ref" => do
    let (target, c) ← c.readWord
    let (addend, c) ← c.readAddend
    return (.ref target addend, c)
  | "pointer_offset" => c.readNumeral.map fun (n, c) => (.pointerOffset n, c)
  | other => c.fail (.unknownDirective other)

/-- **The next directive of a piece of data.** -/
def readDirective (c : Cursor) : Except ReadError (DataDirective × Cursor) := do
  let (word, c) ← c.readWord
  c.readDirectiveOf word

/-- The address behind the word `at`, if it stands there. -/
def readFixedAddress (c : Cursor) : Except ReadError (Option Nat × Cursor) :=
  match c.take? (.word "at") with
  | some c => c.readNumeral.map fun (n, c) => (some n, c)
  | none => .ok (none, c)

theorem readFilter_left {c c' : Cursor} {f : Option Nat} (h : c.readFilter = .ok (f, c')) : c'.left ≤ c.left := by
  unfold readFilter at h
  split at h
  · rename_i d hd
    obtain ⟨⟨n, e⟩, hn, he⟩ := map_eq_ok.1 h
    cases he
    exact Nat.le_of_lt (Nat.lt_trans (readNumeral_left hn) (take?_left hd))
  · cases h; exact Nat.le_refl _

theorem readItemOf_left {c c' : Cursor} {w : String} {i : BodyItem} (h : c.readItemOf w = .ok (i, c')) :
    c'.left ≤ c.left := by
  unfold readItemOf at h
  split at h
  · obtain ⟨⟨_, _⟩, h1, h⟩ := bind_eq_ok.1 h
    obtain ⟨_, h2, h⟩ := bind_eq_ok.1 h
    obtain ⟨⟨_, _⟩, h3, h⟩ := bind_eq_ok.1 h
    cases h
    have := readNumeral_left h1
    have := expectSign_left h2
    have := readNumeral_left h3
    omega
  · obtain ⟨⟨_, _⟩, h1, h⟩ := bind_eq_ok.1 h
    obtain ⟨_, h2, h⟩ := bind_eq_ok.1 h
    obtain ⟨⟨_, _⟩, h3, h⟩ := bind_eq_ok.1 h
    obtain ⟨⟨_, _⟩, h4, h⟩ := bind_eq_ok.1 h
    cases h
    have := readWord_left h1
    have := expectArrow_left h2
    have := readWord_left h3
    have := readFilter_left h4
    omega
  · obtain ⟨⟨_, _⟩, h1, h⟩ := map_eq_ok.1 h
    cases h; exact Nat.le_of_lt (readNumeral_left h1)
  · obtain ⟨⟨_, _⟩, h1, h⟩ := map_eq_ok.1 h
    cases h; exact Nat.le_of_lt (readNumeral_left h1)
  · obtain ⟨⟨_, _⟩, h1, h⟩ := map_eq_ok.1 h
    cases h; exact Nat.le_of_lt (readWord_left h1)
  · obtain ⟨⟨_, _⟩, h1, h⟩ := map_eq_ok.1 h
    cases h; exact Nat.le_of_lt (readWord_left h1)
  · obtain ⟨⟨_, _⟩, h1, h⟩ := map_eq_ok.1 h
    cases h; exact Nat.le_of_lt (readWord_left h1)
  · obtain ⟨⟨_, _⟩, h1, h⟩ := map_eq_ok.1 h
    cases h; exact Nat.le_of_lt (readWord_left h1)
  · obtain ⟨⟨_, _⟩, h1, h⟩ := bind_eq_ok.1 h
    obtain ⟨_, h2, h⟩ := bind_eq_ok.1 h
    obtain ⟨⟨_, _⟩, h3, h⟩ := bind_eq_ok.1 h
    cases h
    have := readWord_left h1
    have := expectSign_left h2
    have := readWord_left h3
    omega
  · cases h; exact Nat.le_refl _
  · cases h; exact Nat.le_refl _
  · cases h; exact Nat.le_refl _
  · obtain ⟨_, h1, h⟩ := map_eq_ok.1 h
    cases h; exact Nat.le_of_lt (expectSign_left h1)

theorem readItem_left {c c' : Cursor} {i : BodyItem} (h : c.readItem = .ok (i, c')) : c'.left < c.left := by
  obtain ⟨⟨_, _⟩, h1, h⟩ := bind_eq_ok.1 h
  exact Nat.lt_of_le_of_lt (readItemOf_left h) (readWord_left h1)

theorem readAddend_left {c c' : Cursor} {n : Int} (h : c.readAddend = .ok (n, c')) : c'.left ≤ c.left := by
  unfold readAddend at h
  split at h
  · rename_i d hd
    obtain ⟨⟨_, _⟩, h1, h⟩ := map_eq_ok.1 h
    cases h
    exact Nat.le_of_lt (Nat.lt_trans (readNumeral_left h1) (take?_left hd))
  · cases h; exact Nat.le_refl _

theorem readDirectiveOf_left {c c' : Cursor} {w : String} {d : DataDirective} (h : c.readDirectiveOf w = .ok (d, c')) :
    c'.left ≤ c.left := by
  unfold readDirectiveOf at h
  split at h
  · obtain ⟨⟨_, _⟩, h1, h⟩ := map_eq_ok.1 h
    cases h; exact Nat.le_of_lt (readNumeral_left h1)
  · obtain ⟨⟨_, _⟩, h1, h⟩ := bind_eq_ok.1 h
    obtain ⟨⟨_, _⟩, h2, h⟩ := bind_eq_ok.1 h
    cases h
    exact Nat.le_trans (readAddend_left h2) (Nat.le_of_lt (readWord_left h1))
  · obtain ⟨⟨_, _⟩, h1, h⟩ := map_eq_ok.1 h
    cases h; exact Nat.le_of_lt (readNumeral_left h1)
  · cases h

theorem readDirective_left {c c' : Cursor} {d : DataDirective} (h : c.readDirective = .ok (d, c')) :
    c'.left < c.left := by
  obtain ⟨⟨_, _⟩, h1, h⟩ := bind_eq_ok.1 h
  exact Nat.lt_of_le_of_lt (readDirectiveOf_left h) (readWord_left h1)

theorem readFixedAddress_left {c c' : Cursor} {a : Option Nat} (h : c.readFixedAddress = .ok (a, c')) :
    c'.left ≤ c.left := by
  unfold readFixedAddress at h
  split at h
  · rename_i d hd
    obtain ⟨⟨_, _⟩, h1, h⟩ := map_eq_ok.1 h
    cases h
    exact Nat.le_of_lt (Nat.lt_trans (readNumeral_left h1) (take?_left hd))
  · cases h; exact Nat.le_refl _

end Cursor

/-! ## Methods -/

/-- **What has been read of a method**: its types, its blocks with the latest first, and its clauses. -/
structure Draft where
  types : List (Nat × Nat)
  blocks : List (String × List Insn)
  clauses : List (String × String × Option Nat)
  deriving DecidableEq, Repr

namespace Draft

def empty : Draft := ⟨[], [], []⟩

/-- Add an item; an instruction needs a block to stand in. -/
def add? (d : Draft) : BodyItem → Option Draft
  | .type ty parent => some { d with types := d.types ++ [(ty, parent)] }
  | .protect block handler filter => some { d with clauses := d.clauses ++ [(block, handler, filter)] }
  | .block name => some { d with blocks := (name, []) :: d.blocks }
  | .insn i => match d.blocks with
    | (name, insns) :: rest => some { d with blocks := (name, insns ++ [i]) :: rest }
    | [] => none

/-- **The method that was read**, before its labels are looked up. -/
def method (d : Draft) (name entry : String) : ListedMethod :=
  let m := d.blocks.reverse.foldl (fun m (name, insns) => m.addBlock name insns) (ListedMethod.empty name entry)
  let m := d.clauses.foldl (fun m (block, handler, filter) => m.protect block handler filter) m
  { m with types := ⟨d.types⟩ }

/-- The method that was read, complete. -/
def finish (d : Draft) (name : String) : Except ReadFault ListedMethod :=
  match d.blocks.getLast? with
  | none => .error (.noBlocks name)
  | some (entry, _) => match (d.method name entry).complete with
    | (m, none) => .ok m
    | (_, some e) => .error (.incomplete name e)

end Draft

namespace Cursor

/-- **Read the items of a method's body** up to its closing brace. -/
def readItems (d : Draft) (c : Cursor) : Except ReadError (Draft × Cursor) :=
  match c.take? (.sign '\x7d') with
  | some c => .ok (d, c)
  | none => match _h : c.readItem with
    | .error e => .error e
    | .ok (item, c') => match d.add? item with
      | some d => readItems d c'
      | none => c'.fail .strayInsn
termination_by c.left
decreasing_by exact readItem_left _h

theorem readItems_left {d d' : Draft} {c c' : Cursor} (h : c.readItems d = .ok (d', c')) : c'.left < c.left := by
  fun_induction readItems d c with
  | case1 d c c₁ ht => cases h; exact take?_left ht
  | case2 => cases h
  | case3 d c ht item c₁ hi d₁ ha ih => exact Nat.lt_trans (ih h) (readItem_left hi)
  | case4 => cases h

/-- **Read a method** behind its keyword. -/
def readMethod (c : Cursor) : Except ReadError (ListedMethod × Cursor) := do
  let (name, c) ← c.readWord
  let c ← c.expectSign '\x7b'
  let (d, c) ← c.readItems Draft.empty
  match d.finish name with
  | .ok m => return (m, c)
  | .error fault => c.fail fault

/-! ## Data -/

/-- What a directive adds to a piece of data. -/
def applyDirective (item : DataItem) : DataDirective → DataItem
  | .word w => { item with payload := item.payload ++ leBytes 4 w }
  | .ref target addend =>
    { item with payload := item.payload ++ leBytes 4 0, refs := item.refs ++ [⟨item.payload.length, target, addend⟩] }
  | .pointerOffset n => { item with pointerOffset := n }

/-- **Read the directives of a piece of data** up to its closing brace. -/
def readDirectives (item : DataItem) (c : Cursor) : Except ReadError (DataItem × Cursor) :=
  match c.take? (.sign '\x7d') with
  | some c => .ok (item, c)
  | none => match _h : c.readDirective with
    | .error e => .error e
    | .ok (directive, c') => readDirectives (applyDirective item directive) c'
termination_by c.left
decreasing_by exact readDirective_left _h

theorem readDirectives_left {i i' : DataItem} {c c' : Cursor} (h : c.readDirectives i = .ok (i', c')) :
    c'.left < c.left := by
  fun_induction readDirectives i c with
  | case1 i c c₁ ht => cases h; exact take?_left ht
  | case2 => cases h
  | case3 i c ht d c₁ hd ih => exact Nat.lt_trans (ih h) (readDirective_left hd)

/-- **Read a piece of data** behind its keyword. -/
def readData (c : Cursor) : Except ReadError (DataItem × Cursor) := do
  let (name, c) ← c.readWord
  let (fixedAddress, c) ← c.readFixedAddress
  let c ← c.expectSign '\x7b'
  let (item, c) ← c.readDirectives { DataItem.plain name [] with fixedAddress }
  if item.payload.isEmpty then c.fail (.emptyData name) else return (item, c)

/-! ## Listings -/

/-- **Read a method or a piece of data.** -/
def readPart (c : Cursor) : Except ReadError ((ListedMethod ⊕ DataItem) × Cursor) := do
  let (word, c) ← c.readWord
  match word with
  | "method" => c.readMethod.map fun (m, c) => (.inl m, c)
  | "data" => c.readData.map fun (d, c) => (.inr d, c)
  | other => c.fail (.unknownPart other)

theorem readMethod_left {c c' : Cursor} {m : ListedMethod} (h : c.readMethod = .ok (m, c')) : c'.left < c.left := by
  obtain ⟨⟨_, _⟩, h1, h⟩ := bind_eq_ok.1 h
  obtain ⟨_, h2, h⟩ := bind_eq_ok.1 h
  obtain ⟨⟨d, e⟩, h3, h⟩ := bind_eq_ok.1 h
  have := readWord_left h1
  have := expectSign_left h2
  have := readItems_left h3
  dsimp only at h
  split at h
  · cases h; omega
  · cases h

theorem readData_left {c c' : Cursor} {d : DataItem} (h : c.readData = .ok (d, c')) : c'.left < c.left := by
  obtain ⟨⟨_, _⟩, h1, h⟩ := bind_eq_ok.1 h
  obtain ⟨⟨_, _⟩, h2, h⟩ := bind_eq_ok.1 h
  obtain ⟨_, h3, h⟩ := bind_eq_ok.1 h
  obtain ⟨⟨i, e⟩, h4, h⟩ := bind_eq_ok.1 h
  have := readWord_left h1
  have := readFixedAddress_left h2
  have := expectSign_left h3
  have := readDirectives_left h4
  dsimp only at h
  split at h
  · cases h
  · cases h; omega

theorem readPart_left {c c' : Cursor} {p : ListedMethod ⊕ DataItem} (h : c.readPart = .ok (p, c')) :
    c'.left < c.left := by
  obtain ⟨⟨w, e⟩, h1, h⟩ := bind_eq_ok.1 h
  have := readWord_left h1
  dsimp only at h
  split at h
  · obtain ⟨⟨_, _⟩, h2, h⟩ := map_eq_ok.1 h
    cases h; exact Nat.lt_trans (readMethod_left h2) this
  · obtain ⟨⟨_, _⟩, h2, h⟩ := map_eq_ok.1 h
    cases h; exact Nat.lt_trans (readData_left h2) this
  · cases h

/-- **Read methods and data** up to the end of the text. -/
def readParts (l : Listing) (c : Cursor) : Except ReadError Listing :=
  if c.rest.isEmpty then .ok l
  else match _h : c.readPart with
    | .error e => .error e
    | .ok (.inl m, c') => readParts { l with methods := l.methods ++ [m] } c'
    | .ok (.inr d, c') => readParts { l with data := l.data ++ [d] } c'
termination_by c.left
decreasing_by all_goals exact readPart_left _h

end Cursor

namespace Listing

/-- **Read a listing.**  It has to have a method. -/
def read (name text : String) : Except ReadError Listing := do
  let c := Cursor.ofText text
  let l ← c.readParts ⟨name, [], []⟩
  if l.methods.isEmpty then throw ⟨c.stop, .noMethods⟩ else return l

end Listing

end CodeImage
