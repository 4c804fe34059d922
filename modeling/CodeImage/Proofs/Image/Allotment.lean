import CodeImage.Proofs.Image.Order
/-!
# Allotment — which addresses the regions of an image take

Placement gives data with a fixed address that address, all other data an address that is aligned as they ask
(`asAsked_place`), and what the memory map flags as taken in the end is what the regions take of the declared memory
(`Tracks.flagged_iff`).  Together with what `Housed` says of regions in memory this is where the regions of a whole
image lie (`layout_allots`).
-/
namespace CodeImage

/-! ## Flags -/

namespace Flags

theorem testBit_minus (a f : Flags) (n : Nat) : (a.minus f).bits.testBit n = (a.bits.testBit n && !f.bits.testBit n) := by
  simp only [minus, Nat.testBit_xor, Nat.testBit_and]
  cases a.bits.testBit n <;> cases f.bits.testBit n <;> rfl

theorem hasAll_iff (a b : Flags) : a.hasAll b = true ↔ ∀ n, b.bits.testBit n = true → a.bits.testBit n = true := by
  rw [hasAll, beq_iff_eq]
  constructor
  · intro h n hn
    rw [← h, Nat.testBit_and, Bool.and_eq_true] at hn
    exact hn.1
  · intro h
    apply Nat.eq_of_testBit_eq
    intro n
    rw [Nat.testBit_and]
    by_cases hn : b.bits.testBit n = true
    · simp [h n hn, hn]
    · simp [hn]

theorem hasAll_minus (a b f : Flags) : (a.minus f).hasAll (b.minus f) = a.hasAll (b.minus f) := by
  rw [Bool.eq_iff_iff, hasAll_iff, hasAll_iff]
  refine forall_congr' fun n => ?_
  simp only [testBit_minus]
  cases f.bits.testBit n <;> simp

theorem hasAll_union (a f : Flags) : (a.union f).hasAll f = true := by
  rw [hasAll_iff]
  intro n hn
  simp [union, hn]

theorem hasAll_allocated_minus (a : Flags) : (a.minus Attribute.allocated).hasAll Attribute.allocated = false := by
  rw [Bool.eq_false_iff, Ne, hasAll_iff]
  intro h
  have hbit : Attribute.allocated.bits.testBit 15 = true := by decide
  have hflag := h 15 hbit
  rw [testBit_minus, hbit] at hflag
  simp at hflag

end Flags

theorem Placement.accepts_ofMemoryRange (p : Placement) (d : MemoryRange) :
    p.accepts (HeapRange.ofMemoryRange d).tag = p.accepts d.tag := by
  simp only [accepts, HeapRange.ofMemoryRange, Flags.hasAll_minus]

namespace MemoryRange

/-- **The range is flagged as taken.** -/
def isFlagged (r : MemoryRange) : Bool := r.tag.attributes.hasAll Attribute.allocated

end MemoryRange

theorem HeapRange.isFlagged_toMemoryRange {r : HeapRange} {d : MemoryRange} (h : (ofMemoryRange d).tag = r.tag) :
    r.toMemoryRange.isFlagged = r.taken := by
  unfold MemoryRange.isFlagged toMemoryRange
  dsimp only
  by_cases ht : r.taken = true
  · rw [if_pos ht, Flags.hasAll_union, ht]
  · rw [if_neg ht, ← h, Bool.eq_false_iff.2 ht]
    exact Flags.hasAll_allocated_minus _

theorem HeapRange.contains_toMemoryRange (r : HeapRange) (x : Nat) :
    r.toMemoryRange.contains x = true ↔ r.Holds x := by
  rw [MemoryRange.contains, Bool.and_eq_true, decide_eq_true_eq, decide_eq_true_eq]
  exact Iff.rfl

namespace MemoryMap

/-- **What a map flags**: the declared addresses in the spans taken from it. -/
theorem Tracks.flagged_iff {memory : List MemoryRange} {spans : List (Nat × Nat)} {m : MemoryMap}
    (h : Tracks memory spans m) (x : Nat) : (∃ d ∈ m.toMemory, d.isFlagged = true ∧ d.contains x = true) ↔
      (∃ s ∈ spans, Covers s x) ∧ ∃ d ∈ memory, d.contains x = true := by
  rw [← declaredAt?_isSome, Option.isSome_iff_exists]
  constructor
  · rintro ⟨_, hd, hflag, hx⟩
    obtain ⟨r, hr, rfl⟩ := List.mem_map.1 hd
    have hrx : r.Holds x := (r.contains_toMemoryRange x).1 hx
    obtain ⟨d, hd, htag, htaken⟩ := (h.view x r.tag r.taken).1 ⟨r, hr, hrx, rfl, rfl⟩
    rw [HeapRange.isFlagged_toMemoryRange htag] at hflag
    exact ⟨htaken.1 hflag, d, hd⟩
  · rintro ⟨hs, d, hd⟩
    obtain ⟨r, hr, hrx, htag, htaken⟩ := (h.view x _ true).2 ⟨d, hd, rfl, iff_of_true rfl hs⟩
    refine ⟨r.toMemoryRange, List.mem_map_of_mem hr, ?_, ?_⟩
    · rw [HeapRange.isFlagged_toMemoryRange htag.symm, htaken]
    · exact (r.contains_toMemoryRange x).2 hrx

end MemoryMap

/-! ## Data -/

/-- The region of a piece of data lies where the piece asks to, or is aligned as its placement asks. -/
def DataItem.AsAsked (item : DataItem) (r : Region) : Prop :=
  ∃ a, r.base = some a ∧ match item.fixedAddress with
    | some b => a = b
    | none => MemoryMap.Aligned (a + (r.pointerOffset + r.placement.alignmentOffset)) r.placement.alignment

namespace Program

/-- **A pass over data**, each step of which touches the region of its own piece only. -/
theorem pass_getElem? {f : List Region × MemoryMap → DataItem × Nat → Except PlacementError (List Region × MemoryMap)}
    {Q : DataItem → Region → Region → Prop}
    (hf : ∀ {state state' e}, f state e = .ok state' → (∀ j, j ≠ e.2 → state'.1[j]? = state.1[j]?) ∧
      ∀ r, state.1[e.2]? = some r → ∃ r', state'.1[e.2]? = some r' ∧ Q e.1 r r') :
    ∀ {items : List (DataItem × Nat)} {state state' : List Region × MemoryMap}, (items.map Prod.snd).Nodup →
      items.foldlM f state = .ok state' → (∀ j, j ∉ items.map Prod.snd → state'.1[j]? = state.1[j]?) ∧
        ∀ e ∈ items, ∀ r, state.1[e.2]? = some r → ∃ r', state'.1[e.2]? = some r' ∧ Q e.1 r r'
  | [], state, state', _, h => by
    cases h
    exact ⟨fun _ _ => rfl, nofun⟩
  | e :: items, state, state', hnodup, h => by
    obtain ⟨he, hnodup⟩ := List.nodup_cons.1 hnodup
    rw [List.foldlM_cons, Outcome.bind_eq_ok] at h
    obtain ⟨middle, hstep, h⟩ := h
    obtain ⟨hothers, hown⟩ := hf hstep
    obtain ⟨hothers', hown'⟩ := pass_getElem? hf hnodup h
    refine ⟨fun j hj => ?_, fun e' he' r hr => ?_⟩
    · rw [List.map_cons, List.mem_cons, not_or] at hj
      rw [hothers' j hj.2, hothers j hj.1]
    · rcases List.mem_cons.1 he' with rfl | he'
      · rw [hothers' e'.2 he]
        exact hown r hr
      · have hne : e'.2 ≠ e.2 := fun heq => he (heq ▸ List.mem_map_of_mem he')
        exact hown' e' he' r (by rw [hothers e'.2 hne, hr])

theorem placeAt_getElem? {i : Nat} {step : Region → MemoryMap → Except PlacementError (Region × MemoryMap)}
    {state state' : List Region × MemoryMap} (h : placeAt i step state = .ok state') :
    (∀ j, j ≠ i → state'.1[j]? = state.1[j]?) ∧ ∀ r, state.1[i]? = some r →
      ∃ r', state'.1[i]? = some r' ∧ ∃ m m', step r m = .ok (r', m') := by
  rcases placeAt_eq_ok h with ⟨hnone, rfl⟩ | ⟨r₀, r', m', hr₀, hstep, rfl⟩
  · refine ⟨fun _ _ => rfl, fun r hr => ?_⟩
    rw [hnone] at hr
    cases hr
  · refine ⟨fun j hj => List.getElem?_set_ne hj.symm, fun r hr => ?_⟩
    cases hr₀.symm.trans hr
    exact ⟨r', List.getElem?_set_self (List.getElem?_eq_some_iff.1 hr).1, state.2, m', hstep⟩

variable {p : Program} {platform : Platform} {options : Options} {state state' : List Region × MemoryMap}

theorem fixed_pass (h : p.data.zipIdx.foldlM (fun state (item, i) => match item.fixedAddress with
      | some a => placeAt i (placeFixed a) state
      | none => .ok state) state = .ok state') {i : Nat} {item : DataItem} {r : Region} (hitem : p.data[i]? = some item)
    (hr : state.1[i]? = some r) : ∃ r', state'.1[i]? = some r' ∧ match item.fixedAddress with
      | some a => r' = { r with base := some a }
      | none => r' = r := by
  refine (pass_getElem? (Q := fun item r r' => match item.fixedAddress with
      | some a => r' = { r with base := some a }
      | none => r' = r) (fun {state state' e} hstep => ?_) (nodup_zipIdx_snd p.data) h).2 (item, i)
    (List.mem_zipIdx_iff_getElem?.2 hitem) r hr
  obtain ⟨item, i⟩ := e
  cases ha : item.fixedAddress with
  | none =>
    simp only [ha] at hstep
    cases hstep
    exact ⟨fun _ _ => rfl, fun r hr => ⟨r, hr, rfl⟩⟩
  | some a =>
    simp only [ha] at hstep
    obtain ⟨hothers, hown⟩ := placeAt_getElem? hstep
    refine ⟨hothers, fun r hr => ?_⟩
    obtain ⟨r', hr', m, m', hfix⟩ := hown r hr
    exact ⟨r', hr', (placeFixed_eq_ok hfix).2.1⟩

theorem free_pass (h : p.data.zipIdx.foldlM (fun state (item, i) => match item.fixedAddress with
      | some _ => Except.ok state
      | none => placeAt i Region.place state) state = .ok state') {i : Nat} {item : DataItem} {r : Region}
    (hitem : p.data[i]? = some item) (hr : state.1[i]? = some r) : ∃ r', state'.1[i]? = some r' ∧
      match item.fixedAddress with
      | some _ => r' = r
      | none => ∃ m m', r.place m = .ok (r', m') := by
  refine (pass_getElem? (Q := fun item r r' => match item.fixedAddress with
      | some _ => r' = r
      | none => ∃ m m', r.place m = .ok (r', m')) (fun {state state' e} hstep => ?_) (nodup_zipIdx_snd p.data) h).2
    (item, i) (List.mem_zipIdx_iff_getElem?.2 hitem) r hr
  obtain ⟨item, i⟩ := e
  cases ha : item.fixedAddress with
  | some a =>
    simp only [ha] at hstep
    cases hstep
    exact ⟨fun _ _ => rfl, fun r hr => ⟨r, hr, rfl⟩⟩
  | none =>
    simp only [ha] at hstep
    exact placeAt_getElem? hstep

theorem code_pass {order : List (Nat × Bool)}
    (h : order.foldlM (fun state (m, cold) => placeCode platform options (p.methodName m) m cold state) state = .ok state')
    {i : Nat} {r : Region} {name : String} (hr : state.1[i]? = some r) (hdata : r.context = .data name) :
    state'.1[i]? = some r := by
  refine Outcome.foldlM_keeps (P := fun _ state => state.1[i]? = some r) (fun (m, cold) rest s s' hs hstep => ?_) hr h
  have hcode : r.isCodeOf m cold = false := by
    rw [Region.isCodeOf, hdata]
  rcases placeRun_eq_ok hstep with ⟨hsame, -, -⟩ | ⟨a, -, hsame, -⟩
  · rw [hsame, hs]
  · rw [hsame, getElem?_assignFrom, hs, Option.map_some, hcode]
    rfl

/-- **What becomes of a piece of data**: it is pinned where it asks to be, or else room is found for it. -/
theorem data_place {regions placed : List Region} {used : MemoryMap}
    (h : p.place platform options regions = .ok (placed, used)) {i : Nat} {item : DataItem} {r : Region}
    (hitem : p.data[i]? = some item) (hr : regions[i]? = some r) {name : String} (hdata : r.context = .data name) :
    ∃ r', placed[i]? = some r' ∧ match item.fixedAddress with
      | some a => r' = { r with base := some a }
      | none => ∃ m m', r.place m = .ok (r', m') := by
  simp only [place, Outcome.bind_eq_ok] at h
  obtain ⟨state₁, hfixed, state₂, hcode, hfree⟩ := h
  obtain ⟨r₁, hr₁, hstep₁⟩ := fixed_pass hfixed hitem hr
  cases ha : item.fixedAddress with
  | some a =>
    simp only [ha] at hstep₁
    have hdata₁ : r₁.context = .data name := by rw [hstep₁]; exact hdata
    have hr₂ := code_pass hcode hr₁ hdata₁
    obtain ⟨r₃, hr₃, hstep₃⟩ := free_pass hfree hitem hr₂
    simp only [ha] at hstep₃
    exact ⟨r₃, hr₃, by rw [hstep₃, hstep₁]⟩
  | none =>
    simp only [ha] at hstep₁
    have hr₂ := code_pass hcode hr₁ (hstep₁ ▸ hdata)
    obtain ⟨r₃, hr₃, hstep₃⟩ := free_pass hfree hitem hr₂
    simp only [ha] at hstep₃
    exact ⟨r₃, hr₃, hstep₁ ▸ hstep₃⟩

/-- **Data lie as they ask to.** -/
theorem asAsked_place {regions placed : List Region} {used : MemoryMap}
    (h : p.place platform options regions = .ok (placed, used)) {i : Nat} {item : DataItem} {r : Region}
    (hitem : p.data[i]? = some item) (hr : regions[i]? = some r) {name : String} (hdata : r.context = .data name) :
    ∃ r', placed[i]? = some r' ∧ item.AsAsked r' := by
  obtain ⟨r', hr', hstep⟩ := data_place h hitem hr hdata
  refine ⟨r', hr', ?_⟩
  unfold DataItem.AsAsked
  cases ha : item.fixedAddress with
  | some a =>
    simp only [ha] at hstep
    exact ⟨a, by rw [hstep], rfl⟩
  | none =>
    simp only [ha] at hstep
    obtain ⟨m, m', hplace⟩ := hstep
    obtain ⟨-, a, halloc, rfl⟩ := Region.place_eq_ok hplace
    exact ⟨a, rfl, (MemoryMap.allocate_eq_some halloc).2.2.1⟩

end Program

/-! ## Images -/

/-- The region takes up an address. -/
def PlacedRegion.Takes (r : PlacedRegion) (x : Nat) : Prop := r.address ≤ x ∧ x < r.stop

/-- The placement that a region of an image was placed with. -/
def Program.placementOf (p : Program) (platform : Platform) (options : Options) (r : PlacedRegion) : Placement :=
  match p.data[r.index]? with
  | some item => item.placement.getD platform.data
  | none => if r.cold then platform.coldCode
    else { platform.hotCode with alignment := max platform.hotCode.alignment (options.entryAlignment.getD 0) }

/-- **Where the regions of an image lie.** -/
structure Image.Allotted (i : Image) (p : Program) (platform : Platform) (options : Options) : Prop where
  /-- No two regions are the same. -/
  distinct : i.regions.Pairwise fun r s => r.index ≠ s.index
  /-- Two regions share no address unless both are data with a fixed address. -/
  apart : i.regions.Pairwise fun r s => ¬(p.isFixed r.index = true ∧ p.isFixed s.index = true) →
    ∀ x, ¬(r.Takes x ∧ s.Takes x)
  /-- A region without a fixed address lies in declared memory that its placement accepts. -/
  room : ∀ r ∈ i.regions, p.isFixed r.index = false → ∀ x, r.Takes x →
    ∃ d ∈ platform.memory, d.contains x = true ∧ (p.placementOf platform options r).accepts d.tag = true
  /-- Every piece of data has a region, which lies at the fixed address or is aligned. -/
  data : ∀ (n : Nat) (item : DataItem), p.data[n]? = some item → ∃ r ∈ i.regions, r.index = n ∧
    r.context = .data item.name ∧ r.size = item.payload.length ∧ match item.fixedAddress with
      | some a => r.address = a
      | none => 1 < (p.placementOf platform options r).alignment → (p.placementOf platform options r).alignment ∣
        r.address + item.pointerOffset + (p.placementOf platform options r).alignmentOffset
  /-- What is flagged as taken is what the regions take up of the declared memory. -/
  used : ∀ x, (∃ d ∈ i.usedMemory, d.isFlagged = true ∧ d.contains x = true) ↔
    (∃ r ∈ i.regions, r.Takes x) ∧ ∃ d ∈ platform.memory, d.contains x = true

namespace Program

variable {p : Program} {platform : Platform} {options : Options} {scheduled : List Scheduled}
  {emitted placed patched : List Region} {used : MemoryMap} {i : Image}

theorem Reached.placementOf_accepts (h : p.Reached platform options scheduled emitted placed patched used) {n a : Nat}
    {e : Region} {payload : Bytes} (hs : Stages scheduled emitted placed patched n e a payload) (t : MemoryTag) :
    (p.placementOf platform options ⟨n, e.context, a, payload.length, e.cold, payload⟩).accepts t =
      e.placement.accepts t := by
  obtain ⟨levels, data, code, rfl, hemits, -, -⟩ := h.exists_emits
  unfold placementOf
  by_cases hn : n < p.data.length
  · obtain ⟨item, hitem, hok⟩ := hemits.data_of_lt hn hs.emitted_eq
    simp only [hitem, (dataRegion_eq_ok hok).2.1]
  · obtain ⟨m, sm, b, -, -, hholds⟩ := hemits.slot_of_le (Nat.le_of_not_lt hn) hs.emitted_eq
    simp only [List.getElem?_eq_none (Nat.le_of_not_lt hn), hholds.placement]
    cases e.cold <;> rfl

theorem Reached.exists_data (h : p.Reached platform options scheduled emitted placed patched used) {n : Nat}
    {item : DataItem} (hitem : p.data[n]? = some item) : ∃ e a payload,
      Stages scheduled emitted placed patched n e a payload ∧ p.dataRegion platform item = .ok e ∧
      item.AsAsked { e with base := some a } := by
  obtain ⟨levels, data, code, rfl, hemits, -, -⟩ := h.exists_emits
  obtain ⟨e, he, hok⟩ := hemits.exists_data hitem
  obtain ⟨a, payload, hs⟩ := h.exists_stages he
  obtain ⟨r, hr, hasked⟩ := asAsked_place h.place_ok hitem he (dataRegion_eq_ok hok).1
  cases hr.symm.trans hs.placed_eq
  exact ⟨e, a, payload, hs, hok, hasked⟩

namespace Laid

variable (h : p.Laid platform options scheduled emitted placed patched used i)

include h

theorem takes_iff_occupies (x : Nat) : (∃ r ∈ i.regions, r.Takes x) ↔ ∃ r ∈ placed, r.Occupies x := by
  constructor
  · rintro ⟨r, hr, hx⟩
    obtain ⟨n, e, a, payload, hs, rfl⟩ := h.mem_regions.1 hr
    refine ⟨_, List.mem_of_getElem? hs.placed_eq, a, rfl, hx.1, ?_⟩
    rw [Region.size, ← hs.length_eq]
    exact hx.2
  · rintro ⟨q, hq, a, ha, hx⟩
    obtain ⟨n, hn⟩ := List.mem_iff_getElem?.1 hq
    obtain ⟨-, -, -, -, -, hplacing, -⟩ := h.exists_emits
    obtain ⟨e, base, he, rfl⟩ := getElem?_of_body hplacing.body hn
    obtain ⟨a', payload, hs⟩ := h.exists_stages he
    cases hn.symm.trans hs.placed_eq
    cases ha
    refine ⟨_, h.mem_regions.2 ⟨n, e, a, payload, hs, rfl⟩, hx.1, ?_⟩
    exact hs.length_eq.symm ▸ hx.2

theorem usedMemory_eq : i.usedMemory = used.toMemory := by
  obtain ⟨restarts, hcollect⟩ := h.collect_ok
  obtain ⟨sections, spans, -, -, rfl⟩ := collect_eq_ok hcollect
  rfl

theorem apart_regions : i.regions.Pairwise fun r s => ¬(p.isFixed r.index = true ∧ p.isFixed s.index = true) →
    ∀ x, ¬(r.Takes x ∧ s.Takes x) := by
  rw [h.regions_eq]
  refine (pairwise_index_sortRegions patched).imp_of_mem fun {r s} hr hs hne hfree x => ?_
  obtain ⟨n, e, a, payload, hstages, rfl⟩ := h.mem_sorted.1 hr
  obtain ⟨n', e', a', payload', hstages', rfl⟩ := h.mem_sorted.1 hs
  have happart := h.apart hstages hstages' hne hfree
  unfold PlacedRegion.Takes PlacedRegion.stop
  dsimp only
  omega

theorem room_regions {r : PlacedRegion} (hr : r ∈ i.regions) (hfree : p.isFixed r.index = false) {x : Nat}
    (hx : r.Takes x) : ∃ d ∈ platform.memory, d.contains x = true ∧
      (p.placementOf platform options r).accepts d.tag = true := by
  obtain ⟨n, e, a, payload, hs, rfl⟩ := h.mem_regions.1 hr
  obtain ⟨d, hd, haccepts⟩ := h.exists_declared hs hfree x hx.1 hx.2
  have hcontains := List.find?_some hd
  rw [Bool.and_eq_true] at hcontains
  refine ⟨d, List.mem_of_find?_eq_some hd, hcontains.1, ?_⟩
  rw [h.placementOf_accepts hs, ← Placement.accepts_ofMemoryRange, haccepts]

theorem data_regions {n : Nat} {item : DataItem} (hitem : p.data[n]? = some item) : ∃ r ∈ i.regions, r.index = n ∧
    r.context = .data item.name ∧ r.size = item.payload.length ∧ match item.fixedAddress with
      | some a => r.address = a
      | none => 1 < (p.placementOf platform options r).alignment → (p.placementOf platform options r).alignment ∣
        r.address + item.pointerOffset + (p.placementOf platform options r).alignmentOffset := by
  obtain ⟨e, a, payload, hs, hok, b, hb, hasked⟩ := h.exists_data hitem
  obtain ⟨hcontext, hplacement, hpointer, -, hpayload⟩ := dataRegion_eq_ok hok
  cases hb
  refine ⟨_, h.mem_regions.2 ⟨n, e, a, payload, hs, rfl⟩, rfl, hcontext, ?_, ?_⟩
  · rw [← hpayload, ← hs.length_eq]
  · simp only [placementOf, hitem]
    cases hfixed : item.fixedAddress with
    | some b => simpa [hfixed] using hasked
    | none =>
      simp only [hfixed, hplacement, hpointer] at hasked
      intro halign
      rw [Nat.add_assoc]
      exact hasked.resolve_left (Nat.not_le.2 halign)

end Laid

/-- **Placement of a whole image.**  Every image that is laid out is allotted: its regions share no address unless both
are data with a fixed address, they lie in declared memory that their placement accepts, data lie at their fixed address
or aligned, and the memory flagged as taken is what the regions take up of the declared memory. -/
theorem layout_allots (p : Program) (platform : Platform) (options : Options) (i : Image)
    (h : p.layout platform options = .ok i) : i.Allotted p platform options := by
  obtain ⟨scheduled, emitted, placed, patched, used, hlaid⟩ := exists_laid h
  refine ⟨?_, hlaid.apart_regions, fun r hr hfree x hx => hlaid.room_regions hr hfree hx,
    fun n item hitem => hlaid.data_regions hitem, fun x => ?_⟩
  · rw [hlaid.regions_eq]
    exact pairwise_index_sortRegions patched
  · obtain ⟨-, -, -, -, -, hplacing, -⟩ := hlaid.exists_emits
    rw [hlaid.usedMemory_eq, hplacing.housed.tracks.flagged_iff, covers_spansOf, hlaid.takes_iff_occupies]

/-- A method whose second block is hollow, and data of which some are pinned: two of them overlap, and a third lies
directly behind the words that hold them. -/
def pinned : Program :=
  { methods := [{
      name := "main", entry := 0, isSubtype := fun a b => a == b
      blocks := [
        ⟨[1], false, false, [⟨0, 4, false, fun _ => .ok [.word 7]⟩], []⟩,
        ⟨[2], false, false, [], []⟩,
        ⟨[3], false, false, [⟨1, 4, false, fun s => .ok [.absolute (s.blockTarget 0) 1]⟩], []⟩,
        ⟨[], false, false, [⟨2, 4, false, fun _ => .ok [.word 5]⟩], []⟩] }]
    data := [⟨"low", [1, 2, 3, 4], none, some 6, 0, []⟩, ⟨"high", [3, 4, 5], none, some 8, 0, []⟩,
      ⟨"near", [6], none, some 13, 0, []⟩, ⟨"free", [9, 9, 9], some (.simple 8 Usage.data), none, 1, []⟩]
    maxLevel := 0
    filler := fun _ _ _ => [] }

def pinnedPlatform : Platform :=
  ⟨[⟨64, 96, ⟨none, Attribute.loadedAtEntrypoint, Usage.code⟩⟩, ⟨0, 32, ⟨none, Attribute.ram, Usage.data⟩⟩],
    .simple 4 Usage.code, .simple 4 Usage.code, .simple 4 Usage.data⟩

def pinnedRegions : List PlacedRegion :=
  [⟨0, .data "low", 6, 4, false, [1, 2, 3, 4]⟩, ⟨1, .data "high", 8, 3, false, [3, 4, 5]⟩,
    ⟨2, .data "near", 13, 1, false, [6]⟩, ⟨3, .data "free", 15, 3, false, [9, 9, 9]⟩,
    ⟨4, .block 0 0, 64, 4, false, [7, 0, 0, 0]⟩, ⟨5, .block 0 2, 68, 4, false, [65, 0, 0, 0]⟩,
    ⟨6, .block 0 3, 72, 4, false, [5, 0, 0, 0]⟩]

def pinnedSchedule : Schedule :=
  { order := [0, 2, 3], index := [some 0, some 1, some 1, some 2], cold := [false, false, false, false]
    aliasOf := [none, some 2, none, none], aliases := [[], [], [1], []], groups := [[0, 2, 3]] }

theorem exists_layout_pinned : ∃ i, pinned.layout pinnedPlatform .default = .ok i ∧ i.regions = pinnedRegions ∧
    i.schedules = [pinnedSchedule] := by
  have hmap : MemoryMap.ofDeclared pinnedPlatform.memory =
      ⟨[⟨0, 32, ⟨none, Attribute.ram, Usage.data⟩, false⟩,
        ⟨64, 96, ⟨none, Attribute.loadedAtEntrypoint, Usage.code⟩, false⟩]⟩ := by cbv
  have hscheduled : (pinned.scheduleAll.toOption.map fun l => l.map (·.schedule)) = some [pinnedSchedule] := by
    decide +kernel
  obtain ⟨scheduled, hsome, hschedules⟩ := Option.map_eq_some_iff.1 hscheduled
  -- sorting goes by well-founded recursion, so the sorted map is put in before the round is evaluated
  have hround : (pinned.scheduleAll.toOption.bind fun scheduled =>
      (pinned.round pinnedPlatform .default scheduled Levels.empty).toOption.map fun r =>
        (r.raised, r.regions.zipIdx.filterMap fun entry => entry.1.base.map fun a =>
          PlacedRegion.mk entry.2 entry.1.context a entry.1.size entry.1.cold entry.1.payload)) =
        some ([], pinnedRegions) := by
    simp only [round, place, hmap]
    decide +kernel
  have hspans : (pinned.scheduleAll.toOption.bind fun scheduled =>
      (pinned.round pinnedPlatform .default scheduled Levels.empty).toOption.map fun r =>
        (scheduled.zipIdx.mapM fun entry => handlerSpans ⟨scheduled, r.regions⟩ entry.2 entry.1).toOption.isSome) =
        some true := by
    simp only [round, place, hmap]
    decide +kernel
  rw [hsome, Option.bind_some] at hround hspans
  obtain ⟨r, hr, hparts⟩ := Option.map_eq_some_iff.1 hround
  obtain ⟨hraised, hregions⟩ := Prod.mk.inj hparts
  rw [hr, Option.map_some, Option.some.injEq] at hspans
  obtain ⟨spans, hspans⟩ := Option.isSome_iff_exists.1 hspans
  have hsorted : sortRegions r.regions = pinnedRegions := by
    rw [sortRegions, hregions]
    cbv
  have hsections : collectSections Options.default.checkConsistency (sortRegions r.regions) =
      .ok [⟨6, [1, 2, 3, 4, 5]⟩, ⟨13, [6]⟩, ⟨15, [9, 9, 9]⟩, ⟨64, [7, 0, 0, 0, 65, 0, 0, 0, 5, 0, 0, 0]⟩] := by
    rw [hsorted]
    cbv
  obtain ⟨i, hi⟩ : ∃ i, collect pinnedPlatform .default scheduled r.regions r.used 0 = .ok i :=
    exists_collect r.used 0 hsections (Outcome.toOption_eq_some.1 hspans)
  have hlayout : pinned.layout pinnedPlatform .default = .ok i := by
    rw [layout_of_round (Outcome.toOption_eq_some.1 hsome) (Outcome.toOption_eq_some.1 hr) hraised, hi]
  obtain ⟨_, _, -, -, rfl⟩ := collect_eq_ok hi
  exact ⟨_, hlayout, hsorted, hschedules⟩

theorem layout_allots_pinned : ∃ i, pinned.layout pinnedPlatform .default = .ok i ∧
    i.Allotted pinned pinnedPlatform .default ∧ i.regions = pinnedRegions := by
  obtain ⟨i, hi, hregions, -⟩ := exists_layout_pinned
  exact ⟨i, hi, layout_allots pinned pinnedPlatform .default i hi, hregions⟩

end Program

end CodeImage
