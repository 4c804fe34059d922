import CodeImage.Proofs.Image.Words
import CodeImage.Proofs.Outcome
/-!
# Patching — what fragments become once addresses are known

`Fragment.Linked` tells the bytes that a fragment at an address ends up as, `LinkedRow` those of a row of fragments.
Patching a region leaves all but its bytes as they were, and their number too (`patchRegion_eq_ok`).  Where no
instruction needs a longer encoding, it links the region's fragments (`linkedRow_patchRegion`).  `fixup_eq_ok` and
`fixup_error` tell what comes of an annotation.
-/
namespace CodeImage

/-! ## Fragments -/

/-- **The bytes that a fragment at address `a` ends up as.**  A distance keeps the bits of its word above the field. -/
def Fragment.Linked (book : AddressBook) (a : Nat) : Fragment → Bytes → Prop
  | .bytes b, out => out = b
  | .absolute t addend, out => ∃ goal, book.resolve t = .ok goal ∧
    out = leBytes 4 (((goal : Int) + addend) % (wordLimit : Int)).toNat
  | .relative t bits word, out => ∃ goal, book.resolve t = .ok goal ∧ fitsField bits ((goal : Int) - (a : Int)) = true ∧
    out = leBytes 4 (withField bits (word % wordLimit) ((goal : Int) - (a : Int)))
  | .marker _, out => out = []

theorem Fragment.Linked.length_eq {book : AddressBook} {a : Nat} : ∀ {f : Fragment} {out : Bytes},
    f.Linked book a out → out.length = f.payload.length
  | .bytes _, _, h => congrArg List.length h
  | .absolute _ _, _, ⟨_, _, h⟩ => by rw [h, length_leBytes, payload, length_leBytes]
  | .relative _ _ _, _, ⟨_, _, _, h⟩ => by rw [h, length_leBytes, payload, length_leBytes]
  | .marker _, _, h => congrArg List.length h

/-- **The bytes of a row of fragments**, each directly behind the one before. -/
inductive LinkedRow (book : AddressBook) : Nat → List Fragment → Bytes → Prop
  | nil (a : Nat) : LinkedRow book a [] []
  | cons {a : Nat} {f : Fragment} {rest : List Fragment} {out more : Bytes} (head : f.Linked book a out)
      (tail : LinkedRow book (a + out.length) rest more) : LinkedRow book a (f :: rest) (out ++ more)

namespace LinkedRow

variable {book : AddressBook}

theorem length_eq {a : Nat} {row : List Fragment} {out : Bytes} (h : LinkedRow book a row out) :
    out.length = (payloadOf row).length := by
  induction h with
  | nil => rfl
  | cons head _ ih => rw [List.length_append, head.length_eq, ih, payloadOf, payloadOf, List.flatMap_cons, List.length_append]

end LinkedRow

/-! ## One region -/

/-- Patching a word, and then the others. -/
theorem patchRegion_patch {r r' : Region} {offset word : Nat} {fixups : List Fixup}
    (h : patchRegion r (.patch offset word :: fixups) = .ok r') : ∃ payload, patched? r.payload offset word = some payload ∧
      patchRegion { r with payload := payload } fixups = .ok r' := by
  rw [patchRegion, List.foldlM_cons, Outcome.bind_eq_ok] at h
  obtain ⟨q, hq, h⟩ := h
  dsimp only at hq
  split at hq
  · rename_i payload hpatched
    cases hq
    exact ⟨payload, hpatched, h⟩
  · cases hq

/-- **Patching a region changes its bytes only**, and not how many there are. -/
theorem patchRegion_eq_ok : ∀ (fixups : List Fixup) {r r' : Region}, patchRegion r fixups = .ok r' →
    ∃ payload, r' = { r with payload := payload } ∧ payload.length = r.payload.length
  | [], r, r', h => by
    cases h
    exact ⟨r.payload, rfl, rfl⟩
  | .raise _ _ :: rest, r, r', h => patchRegion_eq_ok rest h
  | .patch offset word :: rest, r, r', h => by
    obtain ⟨payload, hpatched, h⟩ := patchRegion_patch h
    obtain ⟨payload', rfl, hlength⟩ := patchRegion_eq_ok rest h
    exact ⟨payload', rfl, hlength.trans (patched?_spec hpatched).1⟩

/-- The fixups that need a longer encoding. -/
def Fixup.isRaise : Fixup → Bool
  | .raise _ _ => true
  | .patch _ _ => false

theorem fixup_absolute {book : AddressBook} {r : Region} {base : Nat} {a : Annotation} {t : Target} {addend : Int}
    {found : Option Fixup} (hkind : a.kind = .absolute t addend) (h : fixup book r base a = .ok found) :
    ∃ goal, book.resolve t = .ok goal ∧
      found = some (.patch a.offset (((goal : Int) + addend) % (wordLimit : Int)).toNat) := by
  rw [fixup, hkind] at h
  obtain ⟨goal, hgoal, h⟩ := Outcome.bind_eq_ok.1 h
  cases h
  exact ⟨goal, hgoal, rfl⟩

/-- A distance is written where it fits. -/
theorem fixup_relative {book : AddressBook} {r : Region} {base : Nat} {a : Annotation} {t : Target} {bits : Nat}
    {origin : Option (Nat × Nat)} {found : Option Fixup} (hkind : a.kind = .relative t bits origin)
    (h : fixup book r base a = .ok found) (hraise : ∀ f ∈ found, f.isRaise = false) : ∃ goal, book.resolve t = .ok goal ∧
      fitsField bits ((goal : Int) - ((base + a.offset : Nat) : Int)) = true ∧ found = some (.patch a.offset
        (withField bits ((wordAt? r.payload a.offset).getD 0) ((goal : Int) - ((base + a.offset : Nat) : Int)))) := by
  rw [fixup, hkind] at h
  obtain ⟨goal, hgoal, h⟩ := Outcome.bind_eq_ok.1 h
  dsimp only at h
  split at h
  · rename_i hfits
    cases h
    exact ⟨goal, hgoal, hfits, rfl⟩
  · split at h
    · cases h
      cases hraise _ rfl
    · cases h

def AnnotationKind.target? : AnnotationKind → Option Target
  | .absolute t _ | .relative t _ _ => some t
  | .marker _ => none

section Fixup

variable {book : AddressBook} {r : Region} {base : Nat} {a : Annotation}

/-- **What is done about an annotation**: nothing about a marker; else its word is patched, with a distance only if that
fits, or the instruction that answers for the distance is raised. -/
theorem fixup_eq_ok {found : Option Fixup} (h : fixup book r base a = .ok found) :
    (∃ label, a.kind = .marker label ∧ found = none) ∨
    (∃ t goal word, a.kind.target? = some t ∧ book.resolve t = .ok goal ∧ found = some (.patch a.offset word) ∧
      ∀ bits origin, a.kind = .relative t bits origin →
        fitsField bits ((goal : Int) - ((base + a.offset : Nat) : Int)) = true) ∨
    ∃ t bits m i, a.kind = .relative t bits (some (m, i)) ∧ found = some (.raise m i) := by
  unfold fixup at h
  split at h
  · rename_i t addend hkind
    obtain ⟨goal, hgoal, h⟩ := Outcome.bind_eq_ok.1 h
    cases h
    rw [hkind]
    exact .inr (.inl ⟨t, goal, _, rfl, hgoal, rfl, nofun⟩)
  · rename_i t bits origin hkind
    obtain ⟨goal, hgoal, h⟩ := Outcome.bind_eq_ok.1 h
    rw [hkind]
    dsimp only at h
    split at h
    · rename_i hfits
      cases h
      refine .inr (.inl ⟨t, goal, _, rfl, hgoal, rfl, ?_⟩)
      rintro _ _ ⟨⟩
      exact hfits
    · split at h
      · cases h
        exact .inr (.inr ⟨t, bits, _, _, rfl, rfl⟩)
      · cases h
  · rename_i label hkind
    cases h
    exact .inl ⟨label, hkind, rfl⟩

/-- **What cannot be done about an annotation**: what leads nowhere, and a distance out of reach that no instruction
answers for. -/
theorem fixup_error {e : ImageError} (h : fixup book r base a = .error e) :
    (∃ t, a.kind.target? = some t ∧ book.resolve t = .error e) ∨
      ∃ t bits, a.kind = .relative t bits none ∧ e = .exhausted (.site (base + a.offset)) := by
  unfold fixup at h
  split at h
  · rename_i t addend hkind
    rw [hkind]
    rcases Outcome.bind_eq_error h with h | ⟨_, -, h⟩
    · exact .inl ⟨t, rfl, h⟩
    · cases h
  · rename_i t bits origin hkind
    rw [hkind]
    rcases Outcome.bind_eq_error h with h | ⟨_, -, h⟩
    · exact .inl ⟨t, rfl, h⟩
    · dsimp only at h
      split at h
      · cases h
      · split at h
        · cases h
        · cases h
          exact .inr ⟨t, bits, rfl, rfl⟩
  · cases h

theorem fixupsOf_eq_ok {fixups : List Fixup} (h : fixupsOf book r = .ok fixups) : ∃ base found, r.base = some base ∧
    List.Forall₂ (fun a x => fixup book r base a = .ok x) r.annotations found ∧ fixups = found.filterMap id := by
  simp only [fixupsOf, Outcome.bind_eq_ok, Outcome.mapError_eq_ok, Outcome.pure_eq_ok] at h
  obtain ⟨base, hbase, found, hfound, rfl⟩ := h
  refine ⟨base, found, ?_, Outcome.mapM_eq_ok.1 hfound, rfl⟩
  unfold Region.address at hbase
  split at hbase
  · cases hbase
    assumption
  · cases hbase

/-- A fixup comes from an annotation. -/
theorem exists_fixup_of_mem {fixups : List Fixup} (h : fixupsOf book r = .ok fixups) {f : Fixup} (hf : f ∈ fixups) :
    ∃ base, ∃ a ∈ r.annotations, fixup book r base a = .ok (some f) := by
  obtain ⟨base, found, -, hfound, rfl⟩ := fixupsOf_eq_ok h
  obtain ⟨x, hx, hid⟩ := List.mem_filterMap.1 hf
  cases hid
  obtain ⟨a, ha, hok⟩ := Outcome.exists_mem_of_forall₂_right hfound hx
  exact ⟨base, a, ha, hok⟩

end Fixup

/-! ## All regions -/

/-- **A region is patched**: it has an address, and nothing in it is out of reach. -/
def Patches (book : AddressBook) (r r' : Region) : Prop :=
  ∃ fixups, fixupsOf book r = .ok fixups ∧ (∀ f ∈ fixups, f.isRaise = false) ∧ patchRegion r fixups = .ok r'

theorem Patches.exists_base {book : AddressBook} {r r' : Region} (h : Patches book r r') : ∃ a, r.base = some a := by
  obtain ⟨fixups, hfixups, -⟩ := h
  obtain ⟨base, -, hbase, -⟩ := fixupsOf_eq_ok hfixups
  exact ⟨base, hbase⟩

theorem Patches.eq_with_payload {book : AddressBook} {r r' : Region} (h : Patches book r r') :
    ∃ payload, r' = { r with payload := payload } ∧ payload.length = r.payload.length := by
  obtain ⟨fixups, -, -, hpatch⟩ := h
  exact patchRegion_eq_ok fixups hpatch

/-- Relations along two lists and along their pairs compose. -/
theorem forall₂_zip {α β γ : Type} {R : α → β → Prop} {S : α × β → γ → Prop} : ∀ {l : List α} {k : List β} {l' : List γ},
    List.Forall₂ R l k → List.Forall₂ S (l.zip k) l' →
      List.Forall₂ (fun a c => ∃ b ∈ k, R a b ∧ S (a, b) c) l l'
  | [], _, _, .nil, .nil => .nil
  | a :: l, b :: k, c :: l', .cons hab hlk, .cons habc hlk' => by
    refine .cons ⟨b, List.mem_cons_self, hab, habc⟩ ((forall₂_zip hlk hlk').imp fun a c ⟨b, hb, h⟩ => ?_)
    exact ⟨b, List.mem_cons_of_mem _ hb, h⟩

/-- **Where everything is in reach, every region is patched.** -/
theorem patches_patchAll {scheduled : List Scheduled} {regions patched : List Region}
    (h : patchAll scheduled regions = .ok (patched, [])) :
    List.Forall₂ (Patches ⟨scheduled, regions⟩) regions patched := by
  simp only [patchAll, Outcome.bind_eq_ok, Outcome.mapError_eq_ok, Outcome.pure_eq_ok, Prod.mk.injEq] at h
  obtain ⟨fixups, hfixups, patched', hpatched, rfl, hraised⟩ := h
  refine (forall₂_zip (Outcome.mapM_eq_ok.1 hfixups) (Outcome.mapM_eq_ok.1 hpatched)).imp ?_
  rintro r r' ⟨fs, hfs, hfix, hpatch⟩
  refine ⟨fs, hfix, fun f hf => ?_, hpatch⟩
  cases f with
  | patch offset word => rfl
  | raise m i =>
    refine (List.eq_nil_iff_forall_not_mem.1 hraised (m, i) ?_).elim
    exact List.mem_eraseDups.2 (List.mem_filterMap.2 ⟨.raise m i, List.mem_flatten.2 ⟨fs, hfs, hf⟩, rfl⟩)

end CodeImage
