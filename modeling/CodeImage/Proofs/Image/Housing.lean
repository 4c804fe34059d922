import Mathlib.Algebra.GroupWithZero.Nat
import CodeImage.Image.Place
import CodeImage.Proofs.Memory.History
import CodeImage.Proofs.Outcome
/-!
# Housing — regions in memory

`Housed` says what holds of regions and of the map of their memory at every moment of placement: the map tracks what
the regions occupy, regions are apart and end within the words, and every region lies in memory that its placement
accepts.  Regions with a fixed address are the exception, since they lie where they ask to.  It is kept when a run of
regions is placed back to back (`Housed.run`), when one region is placed (`Housed.one`), and when a region is put where
it asks to be (`Housed.fix`).
-/
namespace CodeImage

open MemoryMap

namespace Region

/-- The region has been placed over the address. -/
def Occupies (r : Region) (x : Nat) : Prop := ∃ a, r.base = some a ∧ a ≤ x ∧ x < a + r.size

/-- All of a region but its address. -/
def body (r : Region) : Region := { r with base := none }

/-- The addresses that a placed region takes. -/
def span? (r : Region) : Option (Nat × Nat) := r.base.map fun a => (a, a + r.size)

theorem occupies_iff_span? (r : Region) (x : Nat) : r.Occupies x ↔ ∃ s, r.span? = some s ∧ Covers s x := by
  simp only [Occupies, span?, Covers, Option.map_eq_some_iff]
  constructor
  · rintro ⟨a, ha, hx⟩
    exact ⟨_, ⟨a, ha, rfl⟩, hx⟩
  · rintro ⟨_, ⟨a, ha, rfl⟩, hx⟩
    exact ⟨a, ha, hx⟩

theorem not_occupies_of_base {r : Region} (h : r.base = none) (x : Nat) : ¬r.Occupies x := by
  rintro ⟨a, ha, -⟩
  rw [h] at ha
  cases ha

theorem occupies_at (r : Region) (a x : Nat) : { r with base := some a }.Occupies x ↔ Covers (a, a + r.size) x := by
  constructor
  · rintro ⟨_, ⟨⟩, hx⟩
    exact hx
  · intro hx
    exact ⟨a, rfl, hx⟩

end Region

/-- The spans of the placed regions. -/
def spansOf (regions : List Region) : List (Nat × Nat) := regions.filterMap Region.span?

theorem covers_spansOf (regions : List Region) (x : Nat) :
    (∃ s ∈ spansOf regions, Covers s x) ↔ ∃ r ∈ regions, r.Occupies x := by
  simp only [spansOf, List.mem_filterMap, Region.occupies_iff_span?]
  constructor
  · rintro ⟨s, ⟨r, hr, hs⟩, hx⟩
    exact ⟨r, hr, s, hs, hx⟩
  · rintro ⟨r, hr, s, hs, hx⟩
    exact ⟨s, ⟨r, hr, hs⟩, hx⟩

theorem Region.eq_of_body {r s : Region} (h : r.body = s.body) : r = { s with base := r.base } := by
  cases r
  cases s
  simp only [Region.body, Region.mk.injEq] at h
  obtain ⟨rfl, rfl, rfl, rfl, -, rfl, rfl⟩ := h
  rfl

/-- Lists of regions that differ in addresses only agree on all else. -/
theorem getElem?_of_body {regions regions' : List Region} (h : regions'.map Region.body = regions.map Region.body)
    {i : Nat} {r' : Region} (hr : regions'[i]? = some r') :
    ∃ r base, regions[i]? = some r ∧ r' = { r with base := base } := by
  have := congrArg (·[i]?) h
  simp only [List.getElem?_map, hr, Option.map_some] at this
  obtain ⟨r, hr, heq⟩ := Option.map_eq_some_iff.1 this.symm
  exact ⟨r, r'.base, hr, Region.eq_of_body heq.symm⟩

theorem map_body_set {regions : List Region} {i : Nat} {r r' : Region} (hr : regions[i]? = some r)
    (h : r'.body = r.body) : (regions.set i r').map Region.body = regions.map Region.body := by
  obtain ⟨hi, rfl⟩ := List.getElem?_eq_some_iff.1 hr
  rw [List.map_set, h, ← List.getElem_map Region.body (h := by rwa [List.length_map]), List.set_getElem_self]

/-! ## Back to back -/

section Assign

theorem exists_find? {α : Type} {p : α → Bool} {l : List α} {a : α} (ha : a ∈ l) (hp : p a = true) :
    ∃ b, l.find? p = some b ∧ b ∈ l ∧ p b = true := by
  obtain ⟨b, hb⟩ := Option.isSome_iff_exists.1 (List.find?_isSome.2 ⟨a, ha, hp⟩)
  exact ⟨b, hb, List.mem_of_find?_eq_some hb, List.find?_some hb⟩

variable (p : Region → Bool)

/-- The bytes of the regions that satisfy `p` in front of number `i`. -/
def lead (regions : List Region) (i : Nat) : Nat := (((regions.take i).filter p).map Region.size).sum

variable {p}

theorem lead_succ {regions : List Region} {i : Nat} {r : Region} (h : regions[i]? = some r) (hp : p r = true) :
    lead p regions (i + 1) = lead p regions i + r.size := by
  obtain ⟨hi, rfl⟩ := List.getElem?_eq_some_iff.1 h
  rw [lead, ← List.take_append_getElem hi, List.filter_append, List.map_append, List.sum_append, List.filter_cons_of_pos hp]
  rfl

theorem lead_succ_of_neg {regions : List Region} {i : Nat} {r : Region} (h : regions[i]? = some r) (hp : ¬p r = true) :
    lead p regions (i + 1) = lead p regions i := by
  obtain ⟨hi, rfl⟩ := List.getElem?_eq_some_iff.1 h
  rw [lead, ← List.take_append_getElem hi, List.filter_append, List.filter_cons_of_neg hp, List.filter_nil,
    List.append_nil, lead]

theorem lead_eq_zero {regions : List Region} {i : Nat} (h : ∀ j r, regions[j]? = some r → p r = true → i ≤ j) :
    lead p regions i = 0 := by
  have hnone : (regions.take i).filter p = [] := by
    refine List.filter_eq_nil_iff.2 fun r hr hp => ?_
    obtain ⟨j, hj⟩ := List.mem_iff_getElem?.1 hr
    have hlt : j < i := by
      have := (List.getElem?_eq_some_iff.1 hj).1
      rw [List.length_take] at this
      omega
    rw [List.getElem?_take_of_lt hlt] at hj
    have := h j r hj hp
    omega
  rw [lead, hnone]
  rfl

theorem lead_le {regions : List Region} {i j : Nat} (h : i ≤ j) : lead p regions i ≤ lead p regions j := by
  have hsplit : regions.take j = regions.take i ++ (regions.take j).drop i := by
    conv => lhs; rw [← List.take_append_drop i (regions.take j), List.take_take, Nat.min_eq_left h]
  rw [lead, lead, hsplit, List.filter_append, List.map_append, List.sum_append]
  exact Nat.le_add_right _ _

theorem lead_length (regions : List Region) :
    lead p regions regions.length = ((regions.filter p).map Region.size).sum := by
  rw [lead, List.take_length]

variable (p)

/-- **Where a region of a run is put**: behind the regions of the run in front of it. -/
theorem getElem?_assignFrom : ∀ (regions : List Region) (a i : Nat), (assignFrom p a regions)[i]? =
    regions[i]?.map fun r => if p r then { r with base := some (a + lead p regions i) } else r
  | [], _, _ => rfl
  | r :: rest, a, 0 => by
    rw [assignFrom, List.getElem?_cons_zero]
    by_cases hp : p r = true
    · rw [if_pos hp, List.getElem?_cons_zero, Option.map_some, if_pos hp]
      rfl
    · rw [if_neg hp, List.getElem?_cons_zero, Option.map_some, if_neg hp]
  | r :: rest, a, i + 1 => by
    have hlead : lead p (r :: rest) (i + 1) = (if p r then r.size else 0) + lead p rest i := by
      rw [lead, List.take_succ_cons]
      by_cases hp : p r = true
      · rw [List.filter_cons_of_pos hp, if_pos hp]
        rfl
      · rw [List.filter_cons_of_neg hp, if_neg hp, Nat.zero_add]
        rfl
    rw [assignFrom, List.getElem?_cons_succ, hlead]
    by_cases hp : p r = true
    · rw [if_pos hp, if_pos hp, List.getElem?_cons_succ, getElem?_assignFrom rest, Nat.add_assoc]
    · rw [if_neg hp, if_neg hp, List.getElem?_cons_succ, getElem?_assignFrom rest, Nat.zero_add]

variable {p} in
theorem getElem?_assignFrom_cases {regions : List Region} {a i : Nat} {r : Region}
    (h : (assignFrom p a regions)[i]? = some r) : regions[i]? = some r ∨
      ∃ r₀, regions[i]? = some r₀ ∧ p r₀ = true ∧ r = { r₀ with base := some (a + lead p regions i) } := by
  rw [getElem?_assignFrom] at h
  obtain ⟨r₀, hr₀, rfl⟩ := Option.map_eq_some_iff.1 h
  split
  · rename_i hpr
    exact .inr ⟨r₀, hr₀, hpr, rfl⟩
  · exact .inl hr₀

theorem map_body_assignFrom (a : Nat) (regions : List Region) :
    (assignFrom p a regions).map Region.body = regions.map Region.body := by
  refine List.ext_getElem? fun i => ?_
  rw [List.getElem?_map, List.getElem?_map, getElem?_assignFrom, Option.map_map]
  congr 1
  funext r
  dsimp only [Function.comp_apply]
  split <;> rfl

/-- **A run of regions without addresses takes exactly its allocation.** -/
theorem occupies_assignFrom (x : Nat) : ∀ (regions : List Region) (a : Nat), (∀ r ∈ regions, p r = true → r.base = none) →
    ((∃ r ∈ assignFrom p a regions, r.Occupies x) ↔
      Covers (a, a + ((regions.filter p).map Region.size).sum) x ∨ ∃ r ∈ regions, r.Occupies x)
  | [], a, _ => by
    simp only [assignFrom, List.not_mem_nil, false_and, exists_false, or_false, Covers, List.filter_nil, List.map_nil,
      List.sum_nil, Nat.add_zero, false_iff]
    omega
  | r :: rest, a, h => by
    have hrest : ∀ r ∈ rest, p r = true → r.base = none := fun s hs => h s (List.mem_cons_of_mem _ hs)
    rw [assignFrom]
    by_cases hp : p r = true
    · have hr := Region.not_occupies_of_base (h r List.mem_cons_self hp) x
      rw [if_pos hp, List.filter_cons_of_pos hp, List.exists_mem_cons_iff, List.exists_mem_cons_iff, Region.occupies_at,
        occupies_assignFrom x rest _ hrest, ← or_assoc]
      simp only [hr, false_or, Covers, List.map_cons, List.sum_cons]
      refine or_congr_left ?_
      omega
    · rw [if_neg hp, List.filter_cons_of_neg hp, List.exists_mem_cons_iff, List.exists_mem_cons_iff,
        occupies_assignFrom x rest _ hrest]
      exact or_left_comm

end Assign

/-! ## Single steps -/

theorem placeRun_eq_ok {p : Region → Bool} {placement : Placement} {what : String} {regions regions' : List Region}
    {m m' : MemoryMap} (h : placeRun p placement what regions m = .ok (regions', m')) :
    (regions' = regions ∧ m' = m ∧ regions.filter p = []) ∨
      ∃ a, m.allocate ((regions.filter p).map Region.size).sum 0 placement = some (a, m') ∧
        regions' = assignFrom p a regions ∧ ∀ r ∈ regions, p r = true → r.payload ≠ [] := by
  unfold placeRun at h
  dsimp only at h
  split at h
  · rename_i hempty
    cases h
    exact .inl ⟨rfl, rfl, List.isEmpty_iff.1 hempty⟩
  · split at h
    · cases h
    · rename_i hpayload
      split at h
      · cases h
      · split at h
        · rename_i a m'' halloc
          cases h
          refine .inr ⟨a, ?_, rfl, fun r hr hp hnil => ?_⟩
          · rwa [List.sum_eq_foldl, List.foldl_map]
          refine List.find?_eq_none.1 hpayload r (List.mem_filter.2 ⟨hr, hp⟩) ?_
          rw [hnil]
          rfl
        · cases h

theorem Region.place_eq_ok {r r' : Region} {m m' : MemoryMap} (h : r.place m = .ok (r', m')) : r.payload ≠ [] ∧
    ∃ a, m.allocate r.size r.pointerOffset r.placement = some (a, m') ∧ r' = { r with base := some a } := by
  unfold Region.place at h
  split at h
  · cases h
  · rename_i hne
    split at h
    · rename_i a m'' halloc
      cases h
      exact ⟨fun hnil => hne (List.isEmpty_iff.2 hnil), a, halloc, rfl⟩
    · cases h

theorem placeFixed_eq_ok {a : Nat} {r r' : Region} {m m' : MemoryMap} (h : placeFixed a r m = .ok (r', m')) :
    r.payload ≠ [] ∧ r' = { r with base := some a } ∧ m' = m.reserve a (a + r.size) ∧ a + r.size < wordLimit := by
  unfold placeFixed at h
  split at h
  · cases h
  · rename_i hne
    split at h
    · cases h
    · rename_i hword
      cases h
      exact ⟨fun hnil => hne (List.isEmpty_iff.2 hnil), rfl, rfl, Nat.lt_of_not_le hword⟩

theorem placeAt_eq_ok {i : Nat} {step : Region → MemoryMap → Except PlacementError (Region × MemoryMap)}
    {state state' : List Region × MemoryMap} (h : placeAt i step state = .ok state') :
    (state.1[i]? = none ∧ state' = state) ∨
      ∃ r r' m', state.1[i]? = some r ∧ step r state.2 = .ok (r', m') ∧ state' = (state.1.set i r', m') := by
  unfold placeAt at h
  split at h
  · rename_i r hr
    obtain ⟨⟨r', m'⟩, hstep, rfl⟩ := Outcome.map_eq_ok.1 h
    exact .inr ⟨r, r', m', hr, hstep, rfl⟩
  · rename_i hr
    cases h
    exact .inl ⟨hr, rfl⟩

/-! ## What every step keeps -/

/-- **Regions and the map of the memory they lie in.**  `fixed` tells the numbers of the regions that lie where they
ask to. -/
structure Housed (memory : List MemoryRange) (fixed : Nat → Bool) (regions : List Region) (m : MemoryMap) : Prop where
  tracks : Tracks memory (spansOf regions) m
  apart : ∀ {i j : Nat} {r s : Region}, regions[i]? = some r → regions[j]? = some s → i ≠ j →
    ¬(fixed i = true ∧ fixed j = true) → ∀ x, r.Occupies x → ¬s.Occupies x
  room : ∀ {i : Nat} {r : Region}, regions[i]? = some r → fixed i = false → ∀ x, r.Occupies x →
    ∃ d, declaredAt? memory x = some d ∧ r.placement.accepts (HeapRange.ofMemoryRange d).tag = true
  filled : ∀ r ∈ regions, r.base.isSome = true → r.payload ≠ []
  within : ∀ r ∈ regions, ∀ a, r.base = some a → a + r.size < wordLimit

namespace Housed

variable {memory : List MemoryRange} {fixed : Nat → Bool} {regions regions' : List Region} {m m' : MemoryMap}

/-- **An allocation is filled by regions** that had no address: all else stays where it is. -/
theorem fill (h : Housed memory fixed regions m) {size offset a : Nat} {p : Placement}
    (halloc : m.allocate size offset p = some (a, m'))
    (hmoved : ∀ {i : Nat} {r : Region}, regions'[i]? = some r → regions[i]? = some r ∨ fixed i = false ∧
      r.payload ≠ [] ∧ (∀ t, r.placement.accepts t = p.accepts t) ∧ ∀ x, r.Occupies x → Covers (a, a + size) x)
    (hapart : ∀ {i j : Nat} {r s : Region}, i ≠ j → regions'[i]? = some r → regions'[j]? = some s →
      regions[i]? = some r ∨ regions[j]? = some s ∨ ∀ x, r.Occupies x → ¬s.Occupies x)
    (hall : ∀ x, (∃ r ∈ regions', r.Occupies x) ↔ Covers (a, a + size) x ∨ ∃ r ∈ regions, r.Occupies x) :
    Housed memory fixed regions' m' := by
  obtain ⟨htracks, hroom⟩ := h.tracks.allocate halloc
  have hfresh : ∀ {j : Nat} {s : Region}, regions[j]? = some s → ∀ x, Covers (a, a + size) x → ¬s.Occupies x := by
    intro j s hs x hx hsx
    exact (hroom x hx).1 ((covers_spansOf regions x).2 ⟨s, List.mem_of_getElem? hs, hsx⟩)
  refine ⟨htracks.congr fun x => ?_, fun {i j r s} hr hs hij hfix x hrx hsx => ?_, fun {i r} hr hfix x hrx => ?_,
    fun r hr => ?_, fun r hr b hb => ?_⟩
  · rw [covers_spansOf, hall, List.exists_mem_cons_iff, covers_spansOf]
  · rcases hapart hij hr hs with hi | hj | hd
    · rcases hmoved hs with hj | ⟨-, -, -, hcov⟩
      · exact h.apart hi hj hij hfix x hrx hsx
      · exact hfresh hi x (hcov x hsx) hrx
    · rcases hmoved hr with hi | ⟨-, -, -, hcov⟩
      · exact h.apart hi hj hij hfix x hrx hsx
      · exact hfresh hj x (hcov x hrx) hsx
    · exact hd x hrx hsx
  · rcases hmoved hr with hi | ⟨-, -, haccepts, hcov⟩
    · exact h.room hi hfix x hrx
    · obtain ⟨d, hd, hacc⟩ := (hroom x (hcov x hrx)).2
      exact ⟨d, hd, by rw [haccepts, hacc]⟩
  · obtain ⟨i, hi⟩ := List.mem_iff_getElem?.1 hr
    rcases hmoved hi with hi | ⟨-, hne, -⟩
    · exact h.filled r (List.mem_of_getElem? hi)
    · exact fun _ => hne
  · obtain ⟨i, hi⟩ := List.mem_iff_getElem?.1 hr
    rcases hmoved hi with hi | ⟨-, hne, -, hcov⟩
    · exact h.within r (List.mem_of_getElem? hi) b hb
    · -- the last byte lies in the allocation, which ends within the words
      have hpos : 0 < r.size := List.length_pos_iff.2 hne
      have hlast := hcov (b + r.size - 1) ⟨b, hb, by omega, by omega⟩
      obtain ⟨-, hword, -⟩ := allocate_eq_some halloc
      unfold Covers at hlast
      omega

theorem run (h : Housed memory fixed regions m) {p : Region → Bool} {placement : Placement} {what : String}
    (hp : ∀ {i : Nat} {r : Region}, regions[i]? = some r → p r = true → fixed i = false ∧ r.base = none ∧
      ∀ t, r.placement.accepts t = placement.accepts t)
    (hplace : placeRun p placement what regions m = .ok (regions', m')) : Housed memory fixed regions' m' := by
  rcases placeRun_eq_ok hplace with ⟨rfl, rfl, -⟩ | ⟨a, halloc, rfl, hne⟩
  · exact h
  · have hend : ∀ {i : Nat} {r : Region}, regions[i]? = some r → p r = true →
        lead p regions i + r.size ≤ ((regions.filter p).map Region.size).sum := by
      intro i r hr hpr
      rw [← lead_succ hr hpr, ← lead_length]
      exact lead_le (List.getElem?_eq_some_iff.1 hr).1
    refine h.fill halloc (fun {i r} hr => ?_) (fun {i j r s} hij hr hs => ?_) (fun x => ?_)
    · refine (getElem?_assignFrom_cases hr).imp_right fun ⟨r₀, hr₀, hpr, heq⟩ => ?_
      obtain ⟨hfix, -, hacc⟩ := hp hr₀ hpr
      subst heq
      refine ⟨hfix, hne r₀ (List.mem_of_getElem? hr₀) hpr, hacc, fun x hx => ?_⟩
      have := hend hr₀ hpr
      have := (Region.occupies_at r₀ _ x).1 hx
      simp only [Covers] at this ⊢
      omega
    · rcases getElem?_assignFrom_cases hr with hr | ⟨r₀, hr₀, hpr, rfl⟩
      · exact .inl hr
      · rcases getElem?_assignFrom_cases hs with hs | ⟨s₀, hs₀, hps, rfl⟩
        · exact .inr (.inl hs)
        · refine .inr (.inr fun x hrx hsx => ?_)
          have hrx := (Region.occupies_at r₀ _ x).1 hrx
          have hsx := (Region.occupies_at s₀ _ x).1 hsx
          have hri := lead_succ hr₀ hpr
          have hsj := lead_succ hs₀ hps
          simp only [Covers] at hrx hsx
          rcases Nat.lt_or_gt_of_ne hij with hlt | hlt
          · have : lead p regions (i + 1) ≤ lead p regions j := lead_le hlt
            omega
          · have : lead p regions (j + 1) ≤ lead p regions i := lead_le hlt
            omega
    · exact occupies_assignFrom p x regions a fun r hr hpr => by
        obtain ⟨i, hi⟩ := List.mem_iff_getElem?.1 hr
        exact (hp hi hpr).2.1

theorem occupies_set {i : Nat} {r r' : Region} (hr : regions[i]? = some r) (hbase : r.base = none) (x : Nat) :
    (∃ s ∈ regions.set i r', s.Occupies x) ↔ r'.Occupies x ∨ ∃ s ∈ regions, s.Occupies x := by
  have hi := (List.getElem?_eq_some_iff.1 hr).1
  constructor
  · rintro ⟨s, hs, hsx⟩
    rcases List.mem_or_eq_of_mem_set hs with hs | rfl
    · exact .inr ⟨s, hs, hsx⟩
    · exact .inl hsx
  · rintro (hx | ⟨s, hs, hsx⟩)
    · exact ⟨r', List.mem_set hi r', hx⟩
    · obtain ⟨j, hj⟩ := List.mem_iff_getElem?.1 hs
      have hij : i ≠ j := by
        rintro rfl
        cases hr.symm.trans hj
        exact Region.not_occupies_of_base hbase x hsx
      exact ⟨s, List.mem_iff_getElem?.2 ⟨j, by rw [List.getElem?_set_ne hij, hj]⟩, hsx⟩

theorem getElem?_set_cases {i j : Nat} {r' s : Region} (hs : (regions.set i r')[j]? = some s) :
    regions[j]? = some s ∨ j = i ∧ s = r' := by
  rw [List.getElem?_set] at hs
  split at hs
  · rename_i hij
    split at hs
    · cases hs
      exact .inr ⟨hij.symm, rfl⟩
    · cases hs
  · exact .inl hs

theorem one (h : Housed memory fixed regions m) {i : Nat} {r r' : Region} (hr : regions[i]? = some r)
    (hfix : fixed i = false) (hbase : r.base = none) (hplace : r.place m = .ok (r', m')) :
    Housed memory fixed (regions.set i r') m' := by
  obtain ⟨hne, a, halloc, rfl⟩ := Region.place_eq_ok hplace
  refine h.fill halloc (fun {j s} hs => ?_) (fun {j k s t} hjk hs ht => ?_) (fun x => ?_)
  · refine (getElem?_set_cases hs).imp_right ?_
    rintro ⟨rfl, rfl⟩
    exact ⟨hfix, hne, fun _ => rfl, fun x hx => (Region.occupies_at r a x).1 hx⟩
  · rcases getElem?_set_cases hs with hs | ⟨rfl, -⟩
    · exact .inl hs
    · rcases getElem?_set_cases ht with ht | ⟨rfl, -⟩
      · exact .inr (.inl ht)
      · exact (hjk rfl).elim
  · rw [occupies_set hr hbase, Region.occupies_at]

/-- **A region is put where it asks to be**, while all others that have an address do the same. -/
theorem fix (h : Housed memory fixed regions m) {i a : Nat} {r r' : Region} (hr : regions[i]? = some r)
    (hfix : fixed i = true) (hbase : r.base = none)
    (hothers : ∀ {j : Nat} {s : Region}, regions[j]? = some s → fixed j = false → s.base = none)
    (hplace : placeFixed a r m = .ok (r', m')) : Housed memory fixed (regions.set i r') m' := by
  obtain ⟨hne, rfl, rfl, hword⟩ := placeFixed_eq_ok hplace
  have hunplaced : ∀ {j : Nat} {s : Region}, (regions.set i { r with base := some a })[j]? = some s → fixed j = false →
      s.base = none := by
    intro j s hs hj
    rcases getElem?_set_cases hs with hs | ⟨rfl, -⟩
    · exact hothers hs hj
    · rw [hfix] at hj
      cases hj
  refine ⟨(h.tracks.reserve a (a + r.size)).congr fun x => ?_, fun {j k s t} hs ht hjk hnot x hsx htx => ?_,
    fun {j s} hs hj x hsx => ?_, fun s hs => ?_, fun s hs b hb => ?_⟩
  · rw [covers_spansOf, occupies_set hr hbase, Region.occupies_at, List.exists_mem_cons_iff, covers_spansOf]
  · -- one of the two has no fixed address, hence none yet
    cases hj : fixed j with
    | false => exact Region.not_occupies_of_base (hunplaced hs hj) x hsx
    | true => cases hk : fixed k with
      | false => exact Region.not_occupies_of_base (hunplaced ht hk) x htx
      | true => exact hnot ⟨hj, hk⟩
  · exact (Region.not_occupies_of_base (hunplaced hs hj) x hsx).elim
  · rcases List.mem_or_eq_of_mem_set hs with hs | rfl
    · exact h.filled s hs
    · exact fun _ => hne
  · rcases List.mem_or_eq_of_mem_set hs with hs | rfl
    · exact h.within s hs b hb
    · cases hb
      exact hword

end Housed

end CodeImage
