import CodeImage.Proofs.Image.Emission
import CodeImage.Proofs.Image.Patching
import CodeImage.Proofs.Image.Rounds
/-!
# Failures — which errors end a layout

Emission fails at references that lead nowhere, patching also at distances out of reach, and collection at handlers
without an address.  Only joining regions to sections finds bytes inconsistent, so a layout whose regions form sections
fails for lack of room, at a reference or after too many restarts (`Program.layout_error`).
-/
namespace CodeImage

/-- **Errors that come of a lack of room or of a reference.** -/
def LayoutError.IsPlain : LayoutError → Prop
  | .placement _ | .image (.unresolved _) | .image (.exhausted _) => True
  | .flow _ | .image (.inconsistency _) | .image (.restartLimit _) => False

/-- **Errors that come of something without an address.** -/
def LayoutError.IsUnplaced : LayoutError → Prop
  | .placement _ | .image (.unresolved _) => True
  | .flow _ | .image (.inconsistency _) | .image (.exhausted _) | .image (.restartLimit _) => False

namespace Program

variable {p : Program} {platform : Platform} {options : Options} {scheduled : List Scheduled}

/-! ## Emission -/

/-- **Encodings fail at references that lead nowhere only.** -/
def FailsAtReferences (p : Program) : Prop := ∀ method ∈ p.methods, ∀ block ∈ method.blocks, ∀ i ∈ block.insns,
  ∀ site e, i.encode site = .error e → ∃ what, e = .unresolved what

theorem dataRegion_error {item : DataItem} {e : ImageError} (h : p.dataRegion platform item = .error e) :
    ∃ what, e = .unresolved what := by
  rcases Outcome.bind_eq_error h with h | ⟨_, -, h⟩
  · obtain ⟨r, -, h⟩ := Outcome.mapM_eq_error h
    split at h
    · cases h
      exact ⟨_, rfl⟩
    · split at h
      · cases h
      · cases h
        exact ⟨_, rfl⟩
  · cases h

theorem exists_encode_error {levels : Levels} {m : Nat} {s : Schedule} {e : ImageError} :
    ∀ {insns : List (Nat × Instruction)} {offset : Nat}, p.encodeInsns levels m s offset insns = .error e →
      ∃ x ∈ insns, ∃ offset, x.2.encode (p.siteOf levels m s x.1 x.2.index offset) = .error e
  | (b, i) :: rest, offset, h => by
    rcases Outcome.bind_eq_error h with h | ⟨_, -, h⟩
    · exact ⟨(b, i), List.mem_cons_self, offset, h⟩
    · rcases Outcome.bind_eq_error h with h | ⟨_, -, h⟩
      · obtain ⟨x, hx, h⟩ := exists_encode_error h
        exact ⟨x, List.mem_cons_of_mem _ hx, h⟩
      · cases h

/-- **Where emission fails**: at a piece of data, or at an instruction of a slot's region. -/
theorem emit_error_cases {levels : Levels} {e : ImageError} (h : p.emit platform levels scheduled = .error e) :
    (∃ item ∈ p.data, p.dataRegion platform item = .error e) ∨ ∃ m sm b c insn offset, scheduled[m]? = some sm ∧
      b ∈ sm.schedule.order ∧ (c, insn) ∈ regionInsns sm b ∧
      insn.encode (p.siteOf levels m sm.schedule c insn.index offset) = .error e := by
  rcases Outcome.bind_eq_error h with h | ⟨_, -, h⟩
  · exact .inl (Outcome.mapM_eq_error h)
  · rcases Outcome.bind_eq_error h with h | ⟨_, -, h⟩
    · obtain ⟨⟨sm, m⟩, hsm, h⟩ := Outcome.mapM_eq_error h
      obtain ⟨b, hb, h⟩ := Outcome.mapM_eq_error h
      rcases Outcome.bind_eq_error h with h | ⟨_, -, h⟩
      · obtain ⟨⟨c, insn⟩, hinsn, offset, h⟩ := exists_encode_error h
        exact .inr ⟨m, sm, b, c, insn, offset, List.mem_zipIdx_iff_getElem?.1 hsm, hb, hinsn, h⟩
      · cases h
    · cases h

/-- **Emission fails at references that lead nowhere only.** -/
theorem emit_error {levels : Levels} {e : ImageError} (hp : p.FailsAtReferences)
    (hmethods : ∀ sm ∈ scheduled, sm.method ∈ p.methods) (h : p.emit platform levels scheduled = .error e) :
    ∃ what, e = .unresolved what := by
  rcases emit_error_cases h with ⟨item, -, h⟩ | ⟨m, sm, b, c, insn, offset, hsm, -, hinsn, h⟩
  · exact dataRegion_error h
  · have hi := (mem_regionInsns.1 hinsn).2
    rw [Method.insnsOf] at hi
    cases hblock : sm.method.blocks[c]? with
    | none =>
      rw [hblock] at hi
      cases hi
    | some block =>
      rw [hblock] at hi
      exact hp sm.method (hmethods sm (List.mem_of_getElem? hsm)) block (List.mem_of_getElem? hblock) insn hi _ e h

end Program

/-! ## Patching -/

theorem AddressBook.resolve_error {book : AddressBook} {t : Target} {e : ImageError} (h : book.resolve t = .error e) :
    ∃ what, e = .unresolved what := by
  unfold resolve at h
  split at h
  · split at h
    · cases h
    · cases h
      exact ⟨_, rfl⟩
  · split at h
    · cases h
      exact ⟨_, rfl⟩
    · split at h
      · cases h
      · cases h
        exact ⟨_, rfl⟩

theorem patchRegion_error {r : Region} {fixups : List Fixup} {e : ImageError} (h : patchRegion r fixups = .error e) :
    ∃ what, e = .unresolved what := by
  obtain ⟨r', f, -, h⟩ := Outcome.foldlM_eq_error h
  split at h
  · split at h
    · cases h
    · cases h
      exact ⟨_, rfl⟩
  · cases h

/-- **Where patching fails**: at a region without an address, at an annotation, or at a patch. -/
theorem patchAll_error_cases {scheduled : List Scheduled} {regions : List Region} {e : LayoutError}
    (h : patchAll scheduled regions = .error e) : (∃ cause, e = .placement cause) ∨
      (∃ r ∈ regions, ∃ base, ∃ a ∈ r.annotations, ∃ cause,
        fixup ⟨scheduled, regions⟩ r base a = .error cause ∧ e = .image cause) ∨
      ∃ r ∈ regions, ∃ fixups cause, fixupsOf ⟨scheduled, regions⟩ r = .ok fixups ∧
        patchRegion r fixups = .error cause ∧ e = .image cause := by
  rcases Outcome.bind_eq_error h with h | ⟨fixups, hfixups, h⟩
  · obtain ⟨r, hr, h⟩ := Outcome.mapM_eq_error h
    rcases Outcome.bind_eq_error h with h | ⟨base, -, h⟩
    · obtain ⟨cause, -, rfl⟩ := Outcome.mapError_eq_error.1 h
      exact .inl ⟨cause, rfl⟩
    · rcases Outcome.bind_eq_error h with h | ⟨_, -, h⟩
      · obtain ⟨cause, hcause, rfl⟩ := Outcome.mapError_eq_error.1 h
        obtain ⟨a, ha, hcause⟩ := Outcome.mapM_eq_error hcause
        exact .inr (.inl ⟨r, hr, base, a, ha, cause, hcause, rfl⟩)
      · cases h
  · rcases Outcome.bind_eq_error h with h | ⟨_, -, h⟩
    · obtain ⟨cause, hcause, rfl⟩ := Outcome.mapError_eq_error.1 h
      obtain ⟨⟨r, fs⟩, hmem, hcause⟩ := Outcome.mapM_eq_error hcause
      have hfs := (List.forall₂_iff_zip.1 (Outcome.mapM_eq_ok.1 hfixups)).2 hmem
      exact .inr (.inr ⟨r, (List.of_mem_zip hmem).1, fs, cause, hfs, hcause, rfl⟩)
    · cases h

theorem patchAll_error {scheduled : List Scheduled} {regions : List Region} {e : LayoutError}
    (h : patchAll scheduled regions = .error e) : e.IsPlain := by
  rcases patchAll_error_cases h with ⟨cause, rfl⟩ | ⟨r, -, base, a, -, cause, hcause, rfl⟩ |
    ⟨r, -, fixups, cause, -, hcause, rfl⟩
  · trivial
  · rcases fixup_error hcause with ⟨t, -, hcause⟩ | ⟨t, bits, -, rfl⟩
    · obtain ⟨what, rfl⟩ := AddressBook.resolve_error hcause
      trivial
    · trivial
  · obtain ⟨what, rfl⟩ := patchRegion_error hcause
    trivial

/-! ## Collection -/

theorem handlerSpans_error {book : AddressBook} {m : Nat} {sm : Scheduled} {e : LayoutError}
    (h : handlerSpans book m sm = .error e) : e.IsUnplaced := by
  obtain ⟨b, -, h⟩ := Outcome.mapM_eq_error h
  dsimp only at h
  split at h
  · rcases Outcome.bind_eq_error h with h | ⟨r, -, h⟩
    · cases h
    · rcases Outcome.bind_eq_error h with h | ⟨start, -, h⟩
      · obtain ⟨_, -, rfl⟩ := Outcome.mapError_eq_error.1 h
        trivial
      · rcases Outcome.bind_eq_error h with h | ⟨_, -, h⟩
        · obtain ⟨c, -, h⟩ := Outcome.mapM_eq_error h
          rcases Outcome.bind_eq_error h with h | ⟨_, -, h⟩
          · obtain ⟨e, he, rfl⟩ := Outcome.mapError_eq_error.1 h
            obtain ⟨what, rfl⟩ := AddressBook.resolve_error he
            trivial
          · cases h
        · cases h
  · cases h
    trivial

theorem extendSection_error {check : Bool} {s : Span} {r : PlacedRegion} {e : ImageError}
    (h : extendSection check s r = .error e) : ∃ a, e = .inconsistency a := by
  unfold extendSection at h
  dsimp only at h
  split at h
  · cases h
    exact ⟨_, rfl⟩
  · cases h

theorem sectionsFrom_error {check : Bool} {e : ImageError} : ∀ {regions : List PlacedRegion} {s : Span},
    sectionsFrom check s regions = .error e → ∃ a, e = .inconsistency a
  | r :: rest, s, h => by
    rw [sectionsFrom] at h
    split at h
    · rcases Outcome.bind_eq_error h with h | ⟨_, -, h⟩
      · exact extendSection_error h
      · exact sectionsFrom_error h
    · rcases Outcome.bind_eq_error h with h | ⟨_, -, h⟩
      · exact sectionsFrom_error h
      · cases h

/-- **Regions form no sections where their bytes are inconsistent only.** -/
theorem collectSections_error {check : Bool} {e : ImageError} : ∀ {regions : List PlacedRegion},
    collectSections check regions = .error e → ∃ a, e = .inconsistency a
  | _ :: _, h => sectionsFrom_error h

/-- **Collection fails** where regions form no sections, or at something without an address. -/
theorem collect_error_cases {platform : Platform} {options : Options} {scheduled : List Scheduled} {regions : List Region}
    {used : MemoryMap} {restarts : Nat} {e : LayoutError}
    (h : collect platform options scheduled regions used restarts = .error e) :
    (∃ e', collectSections options.checkConsistency (sortRegions regions) = .error e' ∧ e = .image e') ∨
      e.IsUnplaced := by
  rcases Outcome.bind_eq_error h with h | ⟨_, -, h⟩
  · obtain ⟨e', he', rfl⟩ := Outcome.mapError_eq_error.1 h
    exact .inl ⟨e', he', rfl⟩
  · rcases Outcome.bind_eq_error h with h | ⟨_, -, h⟩
    · obtain ⟨⟨sm, m⟩, -, h⟩ := Outcome.mapM_eq_error h
      exact .inr (handlerSpans_error h)
    · cases h

namespace Program

variable {p : Program} {platform : Platform} {options : Options} {scheduled : List Scheduled}

/-- **Where a round fails**: at emission, for lack of room, or at patching. -/
theorem round_error_cases {levels : Levels} {e : LayoutError} (h : p.round platform options scheduled levels = .error e) :
    (∃ cause, p.emit platform levels scheduled = .error cause ∧ e = .image cause) ∨ (∃ cause, e = .placement cause) ∨
      ∃ emitted placed used, p.emit platform levels scheduled = .ok emitted ∧
        p.place platform options emitted = .ok (placed, used) ∧ patchAll scheduled placed = .error e := by
  rcases Outcome.bind_eq_error h with h | ⟨emitted, hemit, h⟩
  · obtain ⟨cause, hcause, rfl⟩ := Outcome.mapError_eq_error.1 h
    exact .inl ⟨cause, hcause, rfl⟩
  · rcases Outcome.bind_eq_error h with h | ⟨⟨placed, used⟩, hplace, h⟩
    · obtain ⟨cause, -, rfl⟩ := Outcome.mapError_eq_error.1 h
      exact .inr (.inl ⟨cause, rfl⟩)
    · rcases Outcome.bind_eq_error h with h | ⟨_, -, h⟩
      · rw [Outcome.mapError_eq_ok] at hemit hplace
        exact .inr (.inr ⟨emitted, placed, used, hemit, hplace, h⟩)
      · cases h

theorem round_error {levels : Levels} {e : LayoutError} (hp : p.FailsAtReferences)
    (hmethods : ∀ sm ∈ scheduled, sm.method ∈ p.methods) (h : p.round platform options scheduled levels = .error e) :
    e.IsPlain := by
  rcases round_error_cases h with ⟨cause, hcause, rfl⟩ | ⟨cause, rfl⟩ | ⟨emitted, placed, used, -, -, hpatch⟩
  · obtain ⟨what, rfl⟩ := emit_error hp hmethods hcause
    trivial
  · trivial
  · exact patchAll_error hpatch

theorem methods_scheduled (h : p.scheduleAll = .ok scheduled) : ∀ sm ∈ scheduled, sm.method ∈ p.methods := by
  intro sm hsm
  obtain ⟨method, hmethod, hok⟩ := Outcome.exists_mem_of_forall₂_right (Outcome.mapM_eq_ok.1 h) hsm
  obtain ⟨s, -, rfl⟩ := Outcome.map_eq_ok.1 hok
  exact hmethod

end Program

end CodeImage
