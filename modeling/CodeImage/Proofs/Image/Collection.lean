import CodeImage.Proofs.Image.Loading
/-!
# Collection — sections hold what the regions hold

Each region is compared with the last section only.  That section holds every earlier region that reaches so far, since
regions come by address; so whatever the answer is, the regions account for it (`accounted_sectionsFrom`): a byte of a
section is the byte of a region, and a reported address is one that two regions fill differently.  With the regions
found in the sections, collection succeeds exactly when the regions agree (`collection_exact`).
-/
namespace CodeImage

theorem Span.at?_of_le {s : Span} {x : Nat} (h : s.address ≤ x) : s.at? x = s.bytes[x - s.address]? := if_pos h

/-- Some span holds the byte at the address. -/
def HeldAt (spans : List Span) (x : Nat) (b : UInt8) : Prop := ∃ s ∈ spans, s.at? x = some b

/-- Two spans hold different bytes at the address. -/
def Conflict (spans : List Span) (x : Nat) : Prop := ∃ b c, HeldAt spans x b ∧ HeldAt spans x c ∧ b ≠ c

theorem heldAt_cons (s : Span) (spans : List Span) (x : Nat) (b : UInt8) :
    HeldAt (s :: spans) x b ↔ s.at? x = some b ∨ HeldAt spans x b := by
  simp [HeldAt]

theorem HeldAt.unique {spans : List Span} (hapart : spans.Pairwise fun s t => s.stop < t.address) {x : Nat} {b c : UInt8}
    (hb : HeldAt spans x b) (hc : HeldAt spans x c) : b = c := by
  obtain ⟨s, hs, hb⟩ := hb
  obtain ⟨t, ht, hc⟩ := hc
  have hsx := (s.covers_iff_at? x).2 ⟨b, hb⟩
  have htx := (t.covers_iff_at? x).2 ⟨c, hc⟩
  cases eq_of_covers hapart hs ht (Nat.le_succ_of_le hsx.1) (Nat.le_of_lt hsx.2) htx
  exact Option.some.inj (hb.symm.trans hc)

/-! ## One region -/

theorem firstDifference?_eq_some : ∀ {i j : Nat} {a b : Bytes}, firstDifference? i a b = some j →
    ∃ k c d, j = i + k ∧ a[k]? = some c ∧ b[k]? = some d ∧ c ≠ d
  | _, _, [], _, h => by simp [firstDifference?] at h
  | _, _, _ :: _, [], h => by simp [firstDifference?] at h
  | i, j, a :: as, b :: bs, h => by
    rw [firstDifference?] at h
    by_cases hab : a = b
    · rw [if_pos (by simpa using hab)] at h
      obtain ⟨k, c, d, rfl, hc, hd, hne⟩ := firstDifference?_eq_some h
      exact ⟨k + 1, c, d, by omega, by simpa using hc, by simpa using hd, hne⟩
    · rw [if_neg (by simpa using hab)] at h
      cases h
      exact ⟨0, a, b, rfl, rfl, rfl, hab⟩

theorem at?_extendSection {s t : Span} {r : PlacedRegion} (hle : s.address ≤ r.address) (htouch : r.address ≤ s.stop)
    (h : extendSection true s r = .ok t) {x : Nat} {b : UInt8} (hb : t.at? x = some b) :
    s.at? x = some b ∨ r.span.at? x = some b := by
  simp only [extendSection, if_true] at h
  split at h
  · cases h
  · cases h
    rw [Span.at?_append, Option.or_eq_some_iff] at hb
    rcases hb with hb | ⟨-, hb⟩
    · -- the bytes that are added start where the section ended
      right
      have hx : s.address + s.bytes.length ≤ x := ((Span.covers_iff_at? _ x).2 ⟨b, hb⟩).1
      unfold Span.stop at htouch
      have hoffset : (s.bytes.drop (r.address - s.address)).length + (x - (s.address + s.bytes.length)) =
          x - r.address := by
        rw [List.length_drop]
        omega
      rw [Span.at?_of_le hx, List.getElem?_drop, hoffset] at hb
      exact (Span.at?_of_le (s := r.span) (show r.address ≤ x by omega)).trans hb
    · exact .inl hb

theorem conflict_extendSection {s : Span} {r : PlacedRegion} {e : ImageError} (hle : s.address ≤ r.address)
    (h : extendSection true s r = .error e) :
    ∃ x b c, e = .inconsistency x ∧ s.at? x = some b ∧ r.span.at? x = some c ∧ b ≠ c := by
  simp only [extendSection, if_true] at h
  split at h
  · rename_i i hdiff
    cases h
    obtain ⟨k, b, c, rfl, hb, hc, hne⟩ := firstDifference?_eq_some hdiff
    rw [Nat.zero_add]
    rw [List.getElem?_drop, show r.address - s.address + k = r.address + k - s.address by omega] at hb
    rw [show k = r.address + k - r.address by omega] at hc
    exact ⟨r.address + k, b, c, rfl, (Span.at?_of_le (by omega)).trans hb,
      (Span.at?_of_le (s := r.span) (Nat.le_add_right r.address k)).trans hc, hne⟩
  · cases h

theorem stop_extendSection {s t : Span} {r : PlacedRegion} (hle : s.address ≤ r.address) (htouch : r.address ≤ s.stop)
    (h : extendSection true s r = .ok t) : t.stop = max s.stop r.span.stop := by
  simp only [extendSection, if_true] at h
  split at h
  · cases h
  · cases h
    simp only [Span.stop, PlacedRegion.span, List.length_append, List.length_drop] at htouch ⊢
    omega

/-! ## All regions -/

/-- **An answer that pieces account for**: what the sections hold some piece holds, and where the answer is an
inconsistency two pieces differ. -/
def Accounted (pieces : List Span) : Except ImageError (List Span) → Prop
  | .ok sections => ∀ x b, HeldAt sections x b → HeldAt pieces x b
  | .error e => ∃ x, e = .inconsistency x ∧ Conflict pieces x

theorem Accounted.imp {pieces more : List Span} (h : ∀ x b, HeldAt pieces x b → HeldAt more x b) :
    ∀ {answer : Except ImageError (List Span)}, Accounted pieces answer → Accounted more answer
  | .ok _, hok => fun x b hb => h x b (hok x b hb)
  | .error _, ⟨x, he, b, c, hb, hc, hne⟩ => ⟨x, he, b, c, h x b hb, h x c hc, hne⟩

theorem accounted_sectionsFrom : ∀ {regions : List PlacedRegion} {s : Span}, (∀ r ∈ regions, s.address ≤ r.address) →
    regions.Pairwise (fun a b => a.address ≤ b.address) →
    Accounted (s :: regions.map PlacedRegion.span) (sectionsFrom true s regions)
  | [], s, _, _ => fun _ _ hb => hb
  | r :: rest, s, hs, hsorted => by
    obtain ⟨hle, hs⟩ := List.forall_mem_cons.1 hs
    obtain ⟨hr, hsorted⟩ := List.pairwise_cons.1 hsorted
    rw [sectionsFrom]
    split
    · rename_i htouch
      cases hextend : extendSection true s r with
      | error e =>
        obtain ⟨x, b, c, rfl, hb, hc, hne⟩ := conflict_extendSection hle hextend
        exact ⟨x, rfl, b, c, ⟨s, by simp, hb⟩, ⟨r.span, by simp, hc⟩, hne⟩
      | ok t =>
        have haddress : t.address = s.address := by
          obtain ⟨⟨more, rfl⟩, -⟩ := extendSection_eq_ok hle htouch hextend
          rfl
        have hrest := accounted_sectionsFrom (s := t) (fun q hq => haddress ▸ hs q hq) hsorted
        refine hrest.imp fun x b hb => ?_
        rw [List.map_cons, heldAt_cons, heldAt_cons]
        rcases (heldAt_cons ..).1 hb with hb | hb
        · exact (at?_extendSection hle htouch hextend hb).imp_right .inl
        · exact .inr (.inr hb)
    · have hrest := accounted_sectionsFrom (s := r.span) hr hsorted
      change Accounted _ (sectionsFrom true r.span rest >>= fun more => pure (s :: more))
      cases hmore : sectionsFrom true r.span rest with
      | error e =>
        rw [hmore] at hrest
        exact Accounted.imp (fun x b hb => (heldAt_cons ..).2 (.inr hb)) hrest
      | ok more =>
        rw [hmore] at hrest
        intro x b hb
        rw [heldAt_cons]
        exact ((heldAt_cons ..).1 hb).imp_right (hrest x b)

theorem accounted_collectSections {regions : List PlacedRegion}
    (hsorted : regions.Pairwise fun a b => a.address ≤ b.address) :
    Accounted (regions.map PlacedRegion.span) (collectSections true regions) := by
  cases regions with
  | nil => exact fun _ _ hb => hb
  | cons r rest =>
    obtain ⟨hr, hsorted⟩ := List.pairwise_cons.1 hsorted
    exact accounted_sectionsFrom (s := r.span) hr hsorted

theorem stop_le_of_sectionsFrom {limit : Nat} : ∀ {regions : List PlacedRegion} {s : Span} {sections : List Span},
    (∀ r ∈ regions, s.address ≤ r.address) → regions.Pairwise (fun a b => a.address ≤ b.address) →
    sectionsFrom true s regions = .ok sections → s.stop ≤ limit → (∀ r ∈ regions, r.span.stop ≤ limit) →
    ∀ t ∈ sections, t.stop ≤ limit
  | [], s, _, _, _, h, hstop, _ => by
    cases h
    exact List.forall_mem_singleton.2 hstop
  | r :: rest, s, sections, hs, hsorted, h, hstop, hstops => by
    obtain ⟨hle, hs⟩ := List.forall_mem_cons.1 hs
    obtain ⟨hr, hsorted⟩ := List.pairwise_cons.1 hsorted
    obtain ⟨hrstop, hstops⟩ := List.forall_mem_cons.1 hstops
    rw [sectionsFrom] at h
    split at h
    · rename_i htouch
      obtain ⟨t, ht, h⟩ := Outcome.bind_eq_ok.1 h
      have htstop := stop_extendSection hle htouch ht
      obtain ⟨⟨more, rfl⟩, -⟩ := extendSection_eq_ok hle htouch ht
      exact stop_le_of_sectionsFrom (s := ⟨s.address, s.bytes ++ more⟩) hs hsorted h
        (htstop ▸ Nat.max_le.2 ⟨hstop, hrstop⟩) hstops
    · obtain ⟨more, hmore, h⟩ := Outcome.bind_eq_ok.1 h
      cases h
      exact List.forall_mem_cons.2
        ⟨hstop, stop_le_of_sectionsFrom (s := r.span) hr hsorted hmore hrstop hstops⟩

theorem stop_le_of_collectSections {limit : Nat} {regions : List PlacedRegion} {sections : List Span}
    (hsorted : regions.Pairwise fun a b => a.address ≤ b.address) (h : collectSections true regions = .ok sections)
    (hstops : ∀ r ∈ regions, r.span.stop ≤ limit) : ∀ t ∈ sections, t.stop ≤ limit := by
  cases regions with
  | nil =>
    cases h
    nofun
  | cons r rest =>
    obtain ⟨hr, hsorted⟩ := List.pairwise_cons.1 hsorted
    obtain ⟨hrstop, hstops⟩ := List.forall_mem_cons.1 hstops
    exact stop_le_of_sectionsFrom (s := r.span) hr hsorted h hrstop hstops

/-! ## Regions as they were made -/

namespace Region

/-- The byte that a region has at an address; one that is not placed has none. -/
def at? (r : Region) (x : Nat) : Option UInt8 := r.base.bind fun a => Span.at? ⟨a, r.payload⟩ x

theorem contains_iff_at? (r : Region) (x : Nat) : r.contains x = true ↔ ∃ b, r.at? x = some b := by
  unfold contains at?
  cases r.base with
  | none => simp
  | some a =>
    simp only [Option.any_some, Option.bind_some, ← Span.covers_iff_at?, Bool.and_eq_true, decide_eq_true_eq]
    exact Iff.rfl

end Region

theorem heldAt_sortRegions (regions : List Region) (x : Nat) (b : UInt8) :
    HeldAt ((sortRegions regions).map PlacedRegion.span) x b ↔ ∃ r ∈ regions, r.at? x = some b := by
  simp only [HeldAt, List.mem_map, Program.mem_sortRegions, Region.at?, Option.bind_eq_some_iff]
  constructor
  · rintro ⟨_, ⟨_, ⟨n, q, a, hq, ha, rfl⟩, rfl⟩, hb⟩
    exact ⟨q, List.mem_of_getElem? hq, a, ha, hb⟩
  · rintro ⟨q, hq, a, ha, hb⟩
    obtain ⟨n, hn⟩ := List.mem_iff_getElem?.1 hq
    exact ⟨_, ⟨_, ⟨n, q, a, hn, ha, rfl⟩, rfl⟩, hb⟩

/-- **Regions that overlap hold the same bytes.** -/
def Agree (regions : List Region) : Prop :=
  ∀ r ∈ regions, ∀ q ∈ regions, ∀ x b c, r.at? x = some b → q.at? x = some c → b = c

/-- **The sections of regions.** -/
structure Collected (regions : List Region) (sections : List Span) : Prop where
  /-- Sections stand by address, with a gap behind each. -/
  apart : sections.Pairwise fun s t => s.stop < t.address
  inWords : ∀ s ∈ sections, s.stop < wordLimit
  /-- The sections have the addresses of the regions and no other. -/
  covered : ∀ x, (∃ s ∈ sections, s.Covers x) ↔ ∃ r ∈ regions, r.contains x = true
  /-- A section has the bytes of every region that it meets. -/
  held : ∀ s ∈ sections, ∀ r ∈ regions, ∀ x, s.Covers x → r.contains x = true → s.at? x = r.at? x

theorem heldAt_collectSections {regions : List Region} {sections : List Span}
    (h : collectSections true (sortRegions regions) = .ok sections) (x : Nat) (b : UInt8) :
    HeldAt sections x b ↔ ∃ r ∈ regions, r.at? x = some b := by
  have hsorted := Program.pairwise_address_sortRegions regions
  rw [← heldAt_sortRegions]
  constructor
  · have haccounted := accounted_collectSections hsorted
    rw [h] at haccounted
    exact haccounted x b
  · rintro ⟨_, hy, hb⟩
    obtain ⟨r, hr, rfl⟩ := List.mem_map.1 hy
    obtain ⟨t, ht, hhas⟩ := (exists_has_of_collectSections hsorted h).2 r hr
    exact ⟨t, ht, hhas.at? hb⟩

theorem collected_collectSections {regions : List Region} {sections : List Span}
    (hfit : ∀ r ∈ regions, ∀ a, r.base = some a → a + r.size < wordLimit)
    (h : collectSections true (sortRegions regions) = .ok sections) : Collected regions sections := by
  have hsorted := Program.pairwise_address_sortRegions regions
  have hapart := (exists_has_of_collectSections hsorted h).1
  have hheld := heldAt_collectSections h
  refine ⟨hapart, fun s hs => ?_, fun x => ?_, fun s hs r hr x hsx hrx => ?_⟩
  · have hstops : ∀ r ∈ sortRegions regions, r.span.stop ≤ wordLimit - 1 := by
      intro r hr
      obtain ⟨n, q, a, hq, ha, rfl⟩ := Program.mem_sortRegions.1 hr
      exact Nat.le_sub_one_of_lt (hfit q (List.mem_of_getElem? hq) a ha)
    have := stop_le_of_collectSections hsorted h hstops s hs
    have : 0 < wordLimit := by decide
    omega
  · simp only [Span.covers_iff_at?, Region.contains_iff_at?]
    constructor
    · rintro ⟨s, hs, b, hb⟩
      obtain ⟨r, hr, hb⟩ := (hheld x b).1 ⟨s, hs, hb⟩
      exact ⟨r, hr, b, hb⟩
    · rintro ⟨r, hr, b, hb⟩
      obtain ⟨s, hs, hb⟩ := (hheld x b).2 ⟨r, hr, hb⟩
      exact ⟨s, hs, b, hb⟩
  · obtain ⟨b, hb⟩ := (s.covers_iff_at? x).1 hsx
    obtain ⟨c, hc⟩ := (r.contains_iff_at? x).1 hrx
    rw [hb, hc, HeldAt.unique hapart ⟨s, hs, hb⟩ ((hheld x c).2 ⟨r, hr, hc⟩)]

/-- **Collection is exact.**  Regions whose ends are words are joined to sections exactly when those that overlap agree.
The sections then have the addresses and bytes of the regions; and an address that is reported is one at which two
regions differ. -/
theorem collection_exact (regions : List Region)
    (hfit : ∀ r ∈ regions, ∀ a, r.base = some a → a + r.size < wordLimit) :
    ((∃ sections, collectSections true (sortRegions regions) = .ok sections) ↔ Agree regions) ∧
    (∀ sections, collectSections true (sortRegions regions) = .ok sections → Collected regions sections) ∧
    ∀ e, collectSections true (sortRegions regions) = .error e → ∃ x, e = .inconsistency x ∧ x < wordLimit ∧
      ∃ r ∈ regions, ∃ q ∈ regions, ∃ b c, r.at? x = some b ∧ q.at? x = some c ∧ b ≠ c := by
  have haccounted := accounted_collectSections (Program.pairwise_address_sortRegions regions)
  have hconflict : ∀ e, collectSections true (sortRegions regions) = .error e → ∃ x, e = .inconsistency x ∧
      ∃ r ∈ regions, ∃ q ∈ regions, ∃ b c, r.at? x = some b ∧ q.at? x = some c ∧ b ≠ c := by
    intro e he
    rw [he] at haccounted
    obtain ⟨x, hx, b, c, hb, hc, hne⟩ := haccounted
    obtain ⟨r, hr, hb⟩ := (heldAt_sortRegions ..).1 hb
    obtain ⟨q, hq, hc⟩ := (heldAt_sortRegions ..).1 hc
    exact ⟨x, hx, r, hr, q, hq, b, c, hb, hc, hne⟩
  refine ⟨⟨?_, fun hagree => ?_⟩, fun _ => collected_collectSections hfit, fun e he => ?_⟩
  · -- two regions at one address are found in one section
    rintro ⟨sections, h⟩ r hr q hq x b c hb hc
    have hheld := heldAt_collectSections h
    exact HeldAt.unique (collected_collectSections hfit h).apart ((hheld x b).2 ⟨r, hr, hb⟩) ((hheld x c).2 ⟨q, hq, hc⟩)
  · cases h : collectSections true (sortRegions regions) with
    | ok sections => exact ⟨sections, rfl⟩
    | error e =>
      obtain ⟨x, -, r, hr, q, hq, b, c, hb, hc, hne⟩ := hconflict e h
      exact absurd (hagree r hr q hq x b c hb hc) hne
  · obtain ⟨x, hx, r, hr, hdiffer⟩ := hconflict e he
    refine ⟨x, hx, ?_, r, hr, hdiffer⟩
    obtain ⟨q, hq, b, c, hb, -, -⟩ := hdiffer
    obtain ⟨a, ha, hb⟩ := Option.bind_eq_some_iff.1 hb
    exact Nat.lt_trans ((Span.covers_iff_at? _ x).2 ⟨b, hb⟩).2 (hfit r hr a ha)

/-- Bytes of data, at an address if they have one. -/
def dataAt (base : Option Nat) (payload : Bytes) : Region :=
  { Region.empty (.data "d") (Placement.simple 1 Usage.data) with base, payload }

/-- The second region runs past the third, which starts first; the fourth is inside both, the fifth touches the second,
the sixth is empty, and the last is not placed. -/
def patchwork : List Region :=
  [dataAt (some 32) [9], dataAt (some 18) [3, 4, 5], dataAt (some 16) [1, 2, 3, 4], dataAt (some 18) [3],
    dataAt (some 21) [6], dataAt (some 40) [], dataAt none [7]]

theorem collection_exact_patchwork :
    (∀ r ∈ patchwork, ∀ a, r.base = some a → a + r.size < wordLimit) ∧
    collectSections true (sortRegions patchwork) = .ok [⟨16, [1, 2, 3, 4, 5, 6]⟩, ⟨32, [9]⟩, ⟨40, []⟩] ∧
    Agree patchwork ∧ Collected patchwork [⟨16, [1, 2, 3, 4, 5, 6]⟩, ⟨32, [9]⟩, ⟨40, []⟩] ∧
    ¬Agree (dataAt (some 17) [2, 3, 4, 6] :: patchwork) := by
  have hfit : ∀ r ∈ patchwork, ∀ a, r.base = some a → a + r.size < wordLimit := by decide
  have hclash : ∀ r ∈ dataAt (some 17) [2, 3, 4, 6] :: patchwork, ∀ a, r.base = some a → a + r.size < wordLimit := by
    decide
  have hsections : collectSections true (sortRegions patchwork) =
      .ok [⟨16, [1, 2, 3, 4, 5, 6]⟩, ⟨32, [9]⟩, ⟨40, []⟩] := by cbv
  have herror : collectSections true (sortRegions (dataAt (some 17) [2, 3, 4, 6] :: patchwork)) =
      .error (.inconsistency 20) := by cbv
  refine ⟨hfit, hsections, (collection_exact patchwork hfit).1.1 ⟨_, hsections⟩,
    (collection_exact patchwork hfit).2.1 _ hsections, fun hagree => ?_⟩
  obtain ⟨sections, h⟩ := (collection_exact _ hclash).1.2 hagree
  rw [herror] at h
  cases h

end CodeImage
