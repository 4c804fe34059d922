import CodeImage.Proofs.Image.Emission
import CodeImage.Proofs.Image.Housing
/-!
# Placement — where the regions of a program come to lie

Placing regions changes nothing but their addresses.  Fixed pieces of data are placed first, then code, then the other
data; what holds of regions and memory while this goes on is `Placing`, and it holds at the end (`placing_place`).
Code of one method and coldness lies back to back from an aligned address on (`InRow`), so that regions which follow
each other touch (`InRow.touching`).
-/
namespace CodeImage

open MemoryMap

/-- What a method's code of one coldness asks of its place. -/
def Platform.codePlacement (platform : Platform) (options : Options) (cold : Bool) : Placement :=
  if cold then platform.coldCode
  else { platform.hotCode with alignment := max platform.hotCode.alignment (options.entryAlignment.getD 0) }

/-- **Code of one method and coldness lies in a row**, as emitted, from an aligned address on. -/
def InRow (platform : Platform) (options : Options) (emitted : List Region) (m : Nat) (cold : Bool)
    (regions : List Region) : Prop :=
  ∃ a, ∀ (i : Nat) (r : Region), regions[i]? = some r → r.isCodeOf m cold = true →
    r.base = some (a + lead (·.isCodeOf m cold) emitted i) ∧
      Aligned (a + (platform.codePlacement options cold).alignmentOffset) (platform.codePlacement options cold).alignment

/-- **Code of one method and coldness lies back to back.** -/
def Touching (m : Nat) (cold : Bool) (regions : List Region) : Prop :=
  ∀ (i : Nat) (r s : Region), regions[i]? = some r → regions[i + 1]? = some s → r.isCodeOf m cold = true →
    s.isCodeOf m cold = true → ∃ a, r.base = some a ∧ s.base = some (a + r.size)

section InRow

variable {platform : Platform} {options : Options} {emitted regions regions' : List Region} {m : Nat} {cold : Bool}

theorem lead_of_body (h : regions.map Region.body = emitted.map Region.body) (i : Nat) :
    lead (·.isCodeOf m cold) regions i = lead (·.isCodeOf m cold) emitted i := by
  have hbody : ∀ l : List Region, ((l.filter (·.isCodeOf m cold)).map Region.size) =
      (((l.map Region.body).filter (·.isCodeOf m cold)).map Region.size) := by
    intro l
    rw [List.filter_map, List.map_map]
    rfl
  rw [lead, lead, hbody (regions.take i), hbody (emitted.take i), List.map_take, List.map_take, h]

theorem InRow.frame (h : InRow platform options emitted m cold regions)
    (hsame : ∀ {j : Nat} {s : Region}, regions'[j]? = some s → s.isCodeOf m cold = true → regions[j]? = some s) :
    InRow platform options emitted m cold regions' := by
  obtain ⟨a, ha⟩ := h
  exact ⟨a, fun i r hr hcode => ha i r (hsame hr hcode) hcode⟩

theorem InRow.touching (h : InRow platform options emitted m cold regions)
    (hbody : regions.map Region.body = emitted.map Region.body) : Touching m cold regions := by
  intro i r s hr hs hrc hsc
  obtain ⟨a, ha⟩ := h
  refine ⟨_, (ha i r hr hrc).1, ?_⟩
  rw [(ha (i + 1) s hs hsc).1, ← lead_of_body hbody, lead_succ hr hrc, ← Nat.add_assoc, lead_of_body hbody]

theorem inRow_placeCode {name : String} {state state' : List Region × MemoryMap}
    (hbody : state.1.map Region.body = emitted.map Region.body)
    (h : placeCode platform options name m cold state = .ok state') :
    InRow platform options emitted m cold state'.1 := by
  rcases placeRun_eq_ok h with ⟨hsame, -, hnone⟩ | ⟨a, halloc, hsame, -⟩
  · rw [hsame]
    exact ⟨0, fun i r hr hcode => absurd hcode (List.filter_eq_nil_iff.1 hnone r (List.mem_of_getElem? hr))⟩
  · refine ⟨a, fun i r hr hcode => ?_⟩
    have haligned := (allocate_eq_some halloc).2.2.1
    rw [Nat.zero_add] at haligned
    rw [hsame, getElem?_assignFrom] at hr
    obtain ⟨r₀, hr₀, rfl⟩ := Option.map_eq_some_iff.1 hr
    have hcode₀ : r₀.isCodeOf m cold = true := by split at hcode <;> exact hcode
    rw [if_pos hcode₀, ← lead_of_body hbody]
    exact ⟨rfl, haligned⟩

end InRow

theorem Region.isCodeOf_iff (r : Region) (m : Nat) (cold : Bool) :
    r.isCodeOf m cold = true ↔ (∃ b, r.context = .block m b) ∧ r.cold = cold := by
  unfold Region.isCodeOf
  split
  · rename_i m' b hc
    rw [hc, Bool.and_eq_true, beq_iff_eq, beq_iff_eq]
    simp
  · rename_i name hc
    rw [hc]
    simp

namespace Program

/-- Region number `i` is that of a piece of data with a fixed address. -/
def isFixed (p : Program) (i : Nat) : Bool := (p.data[i]?.bind (·.fixedAddress)).isSome

theorem isFixed_eq_false_of_le {p : Program} {i : Nat} (h : p.data.length ≤ i) : p.isFixed i = false := by
  rw [isFixed, List.getElem?_eq_none h]
  rfl

theorem isFixed_of_item {p : Program} {i : Nat} {item : DataItem} (h : p.data[i]? = some item) :
    p.isFixed i = item.fixedAddress.isSome := by
  rw [isFixed, h]
  rfl

theorem mem_codeOrder (p : Program) (options : Options) (m : Nat) (cold : Bool) :
    (m, cold) ∈ p.codeOrder options ↔ m < p.methods.length := by
  unfold codeOrder
  dsimp only
  split
  · simp only [List.mem_flatMap, List.mem_range, List.mem_cons, List.not_mem_nil, or_false, Prod.mk.injEq]
    cases cold <;> simp
  · simp only [List.mem_append, List.mem_map, List.mem_range, Prod.mk.injEq]
    cases cold <;> simp

theorem nodup_codeOrder (p : Program) (options : Options) : (p.codeOrder options).Nodup := by
  unfold codeOrder
  dsimp only
  split
  · refine List.nodup_flatMap.2 ⟨fun m _ => by simp, List.nodup_range.imp fun {m m'} hne e he he' => hne ?_⟩
    simp only [List.mem_cons, List.not_mem_nil, or_false] at he he'
    rcases he with rfl | rfl <;> rcases he' with he' | he' <;> exact (Prod.mk.inj he').1
  · refine List.nodup_append.2 ⟨List.nodup_range.map fun _ _ h => (Prod.mk.inj h).1,
      List.nodup_range.map fun _ _ h => (Prod.mk.inj h).1, fun e he e' he' heq => ?_⟩
    obtain ⟨_, -, rfl⟩ := List.mem_map.1 he
    obtain ⟨_, -, rfl⟩ := List.mem_map.1 he'
    cases (Prod.mk.inj heq).2

end Program

namespace Program

variable {p : Program} {platform : Platform} {options : Options} {levels : Levels} {scheduled : List Scheduled}
  {data code : List Region}

theorem nodup_zipIdx_snd {α : Type} (l : List α) : (l.zipIdx.map Prod.snd).Nodup := by
  rw [List.zipIdx_map_snd]
  exact List.nodup_range'

/-- **Placement under way**: the regions emitted, some of them with an address, and the map of their memory. -/
structure Placing (p : Program) (platform : Platform) (emitted : List Region) (state : List Region × MemoryMap) :
    Prop where
  body : state.1.map Region.body = emitted.map Region.body
  housed : Housed platform.memory p.isFixed state.1 state.2

theorem placing_start (h : Emits p platform levels scheduled data code) :
    Placing p platform (data ++ code) (data ++ code, ofDeclared platform.memory) := by
  have hnone : ∀ r ∈ data ++ code, r.base = none := fun r hr => by
    obtain ⟨i, hi⟩ := List.mem_iff_getElem?.1 hr
    exact h.base_eq_none hi
  refine ⟨rfl, ⟨?_, fun {i j r s} hr _ _ _ x hx => ?_, fun {i r} hr _ x hx => ?_, fun r hr hsome => ?_,
    fun r hr a ha => ?_⟩⟩
  · refine (Tracks.ofDeclared platform.memory).congr fun x => ?_
    rw [covers_spansOf]
    refine iff_of_false (fun ⟨r, hr, hx⟩ => Region.not_occupies_of_base (hnone r hr) x hx) nofun
  · exact (Region.not_occupies_of_base (hnone r (List.mem_of_getElem? hr)) x hx).elim
  · exact (Region.not_occupies_of_base (hnone r (List.mem_of_getElem? hr)) x hx).elim
  · rw [hnone r hr] at hsome
    cases hsome
  · rw [hnone r hr] at ha
    cases ha

theorem Placing.code_of_isCodeOf (h : Emits p platform levels scheduled data code) {state : List Region × MemoryMap}
    (hplacing : Placing p platform (data ++ code) state) {j m : Nat} {s : Region} {cold : Bool}
    (hs : state.1[j]? = some s) (hcode : s.isCodeOf m cold = true) :
    p.data.length ≤ j ∧ s.placement = if cold then platform.coldCode else platform.hotCode := by
  obtain ⟨r, base, hr, rfl⟩ := getElem?_of_body hplacing.body hs
  obtain ⟨⟨b, hcontext⟩, rfl⟩ := (Region.isCodeOf_iff _ m cold).1 hcode
  obtain ⟨hj, sm, -, -, hholds⟩ := h.slot_of_context hr hcontext
  exact ⟨hj, hholds.placement⟩

/-! ## Steps -/

/-- **A piece of data goes to its fixed address**; nothing without one has an address yet. -/
theorem Placing.fixed_step {emitted : List Region} {state state' : List Region × MemoryMap}
    (hplacing : Placing p platform emitted state) {i a : Nat} {item : DataItem} (hitem : p.data[i]? = some item)
    (ha : item.fixedAddress = some a) (hunplaced : ∀ s, state.1[i]? = some s → s.base = none)
    (hothers : ∀ {j : Nat} {s : Region}, state.1[j]? = some s → p.isFixed j = false → s.base = none)
    (hstep : placeAt i (placeFixed a) state = .ok state') :
    Placing p platform emitted state' ∧ ∀ {j : Nat} {s : Region}, state'.1[j]? = some s → state.1[j]? = some s ∨
      j = i ∧ p.isFixed i = true := by
  have hfixed : p.isFixed i = true := by
    rw [isFixed_of_item hitem, ha]
    rfl
  rcases placeAt_eq_ok hstep with ⟨-, rfl⟩ | ⟨r, r', m', hr, hfix, rfl⟩
  · exact ⟨hplacing, fun hs => .inl hs⟩
  · have hr' := (placeFixed_eq_ok hfix).2.1
    refine ⟨⟨?_, hplacing.housed.fix hr hfixed (hunplaced r hr) hothers hfix⟩, fun {j s} hs => ?_⟩
    · rw [map_body_set hr (by rw [hr']; rfl)]
      exact hplacing.body
    · exact (Housed.getElem?_set_cases hs).imp_right fun hj => ⟨hj.1, hfixed⟩

/-- **The code of one coldness of a method is placed**, and no other region moves. -/
theorem Placing.code_step (h : Emits p platform levels scheduled data code) {state state' : List Region × MemoryMap}
    (hplacing : Placing p platform (data ++ code) state) {m : Nat} {cold : Bool}
    (hunplaced : ∀ {j : Nat} {s : Region}, state.1[j]? = some s → s.isCodeOf m cold = true → s.base = none)
    (hstep : placeCode platform options (p.methodName m) m cold state = .ok state') :
    Placing p platform (data ++ code) state' ∧ InRow platform options (data ++ code) m cold state'.1 ∧
      ∀ {j : Nat} {s : Region}, state'.1[j]? = some s → state.1[j]? = some s ∨
        p.data.length ≤ j ∧ s.isCodeOf m cold = true := by
  have hhoused : Housed platform.memory p.isFixed state'.1 state'.2 :=
    hplacing.housed.run (fun {j s} hs hcode => by
      obtain ⟨hj, hplacement⟩ := hplacing.code_of_isCodeOf h hs hcode
      refine ⟨isFixed_eq_false_of_le hj, hunplaced hs hcode, fun t => ?_⟩
      rw [hplacement]
      cases cold <;> rfl) hstep
  refine ⟨⟨?_, hhoused⟩, inRow_placeCode hplacing.body hstep, fun {j s} hs => ?_⟩
  · rcases placeRun_eq_ok hstep with ⟨hsame, -, -⟩ | ⟨a, -, hsame, -⟩
    · rw [hsame, hplacing.body]
    · rw [hsame, map_body_assignFrom, hplacing.body]
  · rcases placeRun_eq_ok hstep with ⟨hsame, -, -⟩ | ⟨a, -, hsame, -⟩
    · exact .inl (hsame ▸ hs)
    · refine (getElem?_assignFrom_cases (hsame ▸ hs)).imp_right ?_
      rintro ⟨r, hr, hcode, rfl⟩
      exact ⟨(hplacing.code_of_isCodeOf h hr hcode).1, hcode⟩

/-- **A piece of data is placed** where its placement finds room. -/
theorem Placing.data_step {emitted : List Region} {state state' : List Region × MemoryMap}
    (hplacing : Placing p platform emitted state) {i : Nat} (hfixed : p.isFixed i = false)
    (hunplaced : ∀ s, state.1[i]? = some s → s.base = none) (hstep : placeAt i Region.place state = .ok state') :
    Placing p platform emitted state' ∧
      ∀ {j : Nat} {s : Region}, state'.1[j]? = some s → state.1[j]? = some s ∨ j = i := by
  rcases placeAt_eq_ok hstep with ⟨-, rfl⟩ | ⟨r, r', m', hr, hplace, rfl⟩
  · exact ⟨hplacing, fun hs => .inl hs⟩
  · obtain ⟨-, a, -, hr'⟩ := Region.place_eq_ok hplace
    refine ⟨⟨?_, hplacing.housed.one hr hfixed (hunplaced r hr) hplace⟩, fun {j s} hs => ?_⟩
    · rw [map_body_set hr (by rw [hr']; rfl)]
      exact hplacing.body
    · exact (Housed.getElem?_set_cases hs).imp_right And.left

/-! ## Runs -/

/-- Pieces of data with a fixed address are placed first. -/
theorem placing_fixed (h : Emits p platform levels scheduled data code) {state : List Region × MemoryMap}
    (hfold : p.data.zipIdx.foldlM (fun state (item, i) => match item.fixedAddress with
      | some a => placeAt i (placeFixed a) state
      | none => .ok state) (data ++ code, ofDeclared platform.memory) = .ok state) :
    Placing p platform (data ++ code) state ∧
      ∀ {j : Nat} {s : Region}, state.1[j]? = some s → p.isFixed j = false → s.base = none := by
  have := Outcome.foldlM_keeps (P := fun rest state => (Placing p platform (data ++ code) state ∧
      ∀ {j : Nat} {s : Region}, state.1[j]? = some s → p.isFixed j = false → s.base = none) ∧
      (rest.map Prod.snd).Nodup ∧ ∀ e ∈ rest, p.data[e.2]? = some e.1 ∧ ∀ s, state.1[e.2]? = some s → s.base = none)
    ?_ ⟨⟨placing_start h, fun hs _ => h.base_eq_none hs⟩, nodup_zipIdx_snd p.data, fun e he =>
      ⟨List.mem_zipIdx_iff_getElem?.1 he, fun s hs => h.base_eq_none hs⟩⟩ hfold
  · exact this.1
  · rintro ⟨item, i⟩ rest state state' ⟨⟨hplacing, hothers⟩, hnodup, hrest⟩ hstep
    obtain ⟨hitem, hunplaced⟩ := hrest _ List.mem_cons_self
    obtain ⟨hi, hnodup⟩ := List.nodup_cons.1 hnodup
    have hrest := fun e he => hrest e (List.mem_cons_of_mem _ he)
    dsimp only at hstep
    split at hstep
    · rename_i a ha
      obtain ⟨hplacing', hmoved⟩ := hplacing.fixed_step hitem ha hunplaced hothers hstep
      refine ⟨⟨hplacing', fun {j s} hs hj => ?_⟩, hnodup, fun e he => ⟨(hrest e he).1, fun s hs => ?_⟩⟩
      · rcases hmoved hs with hs | ⟨rfl, hfixed⟩
        · exact hothers hs hj
        · rw [hfixed] at hj
          cases hj
      · rcases hmoved hs with hs | ⟨heq, -⟩
        · exact (hrest e he).2 s hs
        · exact (hi (List.mem_map.2 ⟨e, he, heq⟩)).elim
    · cases hstep
      exact ⟨⟨hplacing, hothers⟩, hnodup, hrest⟩

/-- **Code is placed next**, each coldness of a method by itself. -/
theorem placing_code (h : Emits p platform levels scheduled data code) {state state' : List Region × MemoryMap}
    (hplacing : Placing p platform (data ++ code) state)
    (hothers : ∀ {j : Nat} {s : Region}, state.1[j]? = some s → p.isFixed j = false → s.base = none)
    (hfold : (p.codeOrder options).foldlM (fun state (m, cold) =>
      placeCode platform options (p.methodName m) m cold state) state = .ok state') :
    Placing p platform (data ++ code) state' ∧
      (∀ {j : Nat} {s : Region}, j < p.data.length → state'.1[j]? = some s → p.isFixed j = false → s.base = none) ∧
      ∀ e ∈ p.codeOrder options, InRow platform options (data ++ code) e.1 e.2 state'.1 := by
  have := Outcome.foldlM_keeps (P := fun rest state => (Placing p platform (data ++ code) state ∧
      (∀ {j : Nat} {s : Region}, j < p.data.length → state.1[j]? = some s → p.isFixed j = false → s.base = none) ∧
      ∀ e ∈ p.codeOrder options, e ∈ rest ∨ InRow platform options (data ++ code) e.1 e.2 state.1) ∧
      rest.Nodup ∧ ∀ e ∈ rest, ∀ {j : Nat} {s : Region}, state.1[j]? = some s → s.isCodeOf e.1 e.2 = true →
        s.base = none)
    ?_ ⟨⟨hplacing, fun _ hs => hothers hs, fun e he => .inl he⟩, nodup_codeOrder p options, fun e _ j s hs hcode =>
      hothers hs (isFixed_eq_false_of_le (hplacing.code_of_isCodeOf h hs hcode).1)⟩ hfold
  · exact ⟨this.1.1, this.1.2.1, fun e he => (this.1.2.2 e he).resolve_left nofun⟩
  · rintro ⟨m, cold⟩ rest state state' ⟨⟨hplacing, hdata, hrows⟩, hnodup, hrest⟩ hstep
    obtain ⟨hmc, hnodup⟩ := List.nodup_cons.1 hnodup
    obtain ⟨hplacing', hrow, hmoved⟩ := hplacing.code_step h (hrest _ List.mem_cons_self) hstep
    -- a region holds code of one method and coldness only
    have hframe : ∀ e : Nat × Bool, e ≠ (m, cold) → ∀ {j : Nat} {s : Region}, state'.1[j]? = some s →
        s.isCodeOf e.1 e.2 = true → state.1[j]? = some s := by
      intro e hne j s hs hcode
      refine (hmoved hs).resolve_right fun ⟨_, hcode'⟩ => hne ?_
      obtain ⟨⟨b, hb⟩, hc⟩ := (Region.isCodeOf_iff s e.1 e.2).1 hcode
      obtain ⟨⟨b', hb'⟩, hc'⟩ := (Region.isCodeOf_iff s m cold).1 hcode'
      exact Prod.ext (RegionContext.block.inj (hb.symm.trans hb')).1 (hc.symm.trans hc')
    refine ⟨⟨hplacing', fun {j s} hj hs hfix => ?_, fun e he => ?_⟩, hnodup, fun e he j s hs hcode => ?_⟩
    · rcases hmoved hs with hs | ⟨hle, -⟩
      · exact hdata hj hs hfix
      · omega
    · by_cases hemc : e = (m, cold)
      · rw [hemc]
        exact .inr hrow
      · rcases hrows e he with he | he
        · exact .inl ((List.mem_cons.1 he).resolve_left hemc)
        · exact .inr (he.frame (hframe e hemc))
    · have hemc : e ≠ (m, cold) := fun heq => hmc (heq ▸ he)
      exact hrest e (List.mem_cons_of_mem _ he) (hframe e hemc hs hcode) hcode

/-- The other pieces of data are placed last. -/
theorem placing_data (h : Emits p platform levels scheduled data code) {state state' : List Region × MemoryMap}
    (hplacing : Placing p platform (data ++ code) state)
    (hunplaced : ∀ {j : Nat} {s : Region}, j < p.data.length → state.1[j]? = some s → p.isFixed j = false →
      s.base = none)
    (hfold : p.data.zipIdx.foldlM (fun state (item, i) => match item.fixedAddress with
      | some _ => Except.ok state
      | none => placeAt i Region.place state) state = .ok state') :
    Placing p platform (data ++ code) state' ∧
      ∀ {m : Nat} {cold : Bool}, InRow platform options (data ++ code) m cold state.1 →
        InRow platform options (data ++ code) m cold state'.1 := by
  have := Outcome.foldlM_keeps (P := fun rest state' => (Placing p platform (data ++ code) state' ∧
      ∀ {m : Nat} {cold : Bool}, InRow platform options (data ++ code) m cold state.1 →
        InRow platform options (data ++ code) m cold state'.1) ∧
      (rest.map Prod.snd).Nodup ∧ ∀ e ∈ rest, p.data[e.2]? = some e.1 ∧ (p.isFixed e.2 = false →
        ∀ s, state'.1[e.2]? = some s → s.base = none))
    ?_ ⟨⟨hplacing, fun hrow => hrow⟩, nodup_zipIdx_snd p.data, fun e he => ?_⟩ hfold
  · exact this.1
  · rintro ⟨item, i⟩ rest state₁ state₂ ⟨⟨hplacing, hrows⟩, hnodup, hrest⟩ hstep
    obtain ⟨hitem, hunplaced⟩ := hrest _ List.mem_cons_self
    obtain ⟨hi, hnodup⟩ := List.nodup_cons.1 hnodup
    have hrest := fun e he => hrest e (List.mem_cons_of_mem _ he)
    dsimp only at hstep
    split at hstep
    · cases hstep
      exact ⟨⟨hplacing, hrows⟩, hnodup, hrest⟩
    · rename_i hnone
      have hfixed : p.isFixed i = false := by
        rw [isFixed_of_item hitem, hnone]
        rfl
      obtain ⟨hplacing', hmoved⟩ := hplacing.data_step hfixed (hunplaced hfixed) hstep
      refine ⟨⟨hplacing', fun hrow => (hrows hrow).frame fun {j s} hs hcode => ?_⟩, hnodup, fun e he =>
        ⟨(hrest e he).1, fun hfix s hs => ?_⟩⟩
      · refine (hmoved hs).resolve_right fun hj => ?_
        have hle := (hplacing'.code_of_isCodeOf h hs hcode).1
        have hlt := (List.getElem?_eq_some_iff.1 hitem).1
        dsimp only at hlt
        omega
      · rcases hmoved hs with hs | heq
        · exact (hrest e he).2 hfix s hs
        · exact (hi (List.mem_map.2 ⟨e, he, heq⟩)).elim
  · have hitem := List.mem_zipIdx_iff_getElem?.1 he
    exact ⟨hitem, fun hfix s hs => hunplaced (List.getElem?_eq_some_iff.1 hitem).1 hs hfix⟩

/-- **What placement ends with**: the regions emitted, apart and in memory, and code in rows. -/
theorem placing_place (h : Emits p platform levels scheduled data code) {placed : List Region} {used : MemoryMap}
    (hplace : p.place platform options (data ++ code) = .ok (placed, used)) :
    Placing p platform (data ++ code) (placed, used) ∧
      ∀ {m : Nat} {cold : Bool}, m < p.methods.length → InRow platform options (data ++ code) m cold placed := by
  simp only [place, Outcome.bind_eq_ok] at hplace
  obtain ⟨state₁, hfixed, state₂, hcode, hdata⟩ := hplace
  obtain ⟨hplacing₁, hothers⟩ := placing_fixed h hfixed
  obtain ⟨hplacing₂, hunplaced, hrows⟩ := placing_code h hplacing₁ hothers hcode
  obtain ⟨hplacing, hkeeps⟩ := placing_data h hplacing₂ hunplaced hdata
  exact ⟨hplacing, fun {m cold} hm => hkeeps (hrows (m, cold) ((mem_codeOrder p options m cold).2 hm))⟩

end Program

end CodeImage
