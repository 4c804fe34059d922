import Mathlib.Data.List.Nodup
import CodeImage.Image.Emit
import CodeImage.Proofs.Outcome
/-!
# Emission — which regions a program is made of

The regions of a program are those of its data, in order, and those of its slots (`emit_eq_ok`).  A slot is a block
with a place of its own; `slots` lists them method after method, each method's in the order of its schedule
(`slots_split`).  No two regions hold the same block (`Emits.block_unique`).  What is annotated in a region is a
reference of its data or a fragment of its code (`annotation_of_dataRegion`, `Holds.exists_fragment`).
-/
namespace CodeImage

namespace Program

/-- **The slots of scheduled methods**: number of the method, the method, and the block. -/
def slots (scheduled : List Scheduled) : List (Nat × Scheduled × Nat) :=
  scheduled.zipIdx.flatMap fun (sm, m) => sm.schedule.order.map fun b => (m, sm, b)

theorem mem_slots {scheduled : List Scheduled} {m : Nat} {sm : Scheduled} {b : Nat} :
    (m, sm, b) ∈ slots scheduled ↔ scheduled[m]? = some sm ∧ b ∈ sm.schedule.order := by
  simp only [slots, List.mem_flatMap, List.mem_map, Prod.exists, List.mem_zipIdx_iff_getElem?]
  constructor
  · rintro ⟨sm', m', hm, b', hb, heq⟩
    cases heq
    exact ⟨hm, hb⟩
  · rintro ⟨hm, hb⟩
    exact ⟨sm, m, hm, b, hb, rfl⟩

/-- **A method's slots stand together**, in the order of its schedule. -/
theorem slots_split {scheduled : List Scheduled} {m : Nat} {sm : Scheduled} (h : scheduled[m]? = some sm) :
    ∃ before after, slots scheduled = before ++ (sm.schedule.order.map fun b => (m, sm, b)) ++ after := by
  obtain ⟨hm, rfl⟩ := List.getElem?_eq_some_iff.1 h
  have hsplit : scheduled = scheduled.take m ++ scheduled[m] :: scheduled.drop (m + 1) := by
    rw [List.getElem_cons_drop, List.take_append_drop]
  refine ⟨(scheduled.take m).zipIdx.flatMap fun (sm, m) => sm.schedule.order.map fun b => (m, sm, b),
    ((scheduled.drop (m + 1)).zipIdx (m + 1)).flatMap fun (sm, m) => sm.schedule.order.map fun b => (m, sm, b), ?_⟩
  conv => lhs; rw [slots, hsplit]
  rw [List.zipIdx_append, List.zipIdx_cons, List.flatMap_append, List.flatMap_cons, List.length_take,
    Nat.min_eq_left (Nat.le_of_lt hm), Nat.zero_add, List.append_assoc]

theorem nodup_slots {scheduled : List Scheduled} (h : ∀ sm ∈ scheduled, sm.schedule.order.Nodup) :
    ((slots scheduled).map fun slot => (slot.1, slot.2.2)).Nodup := by
  rw [slots, List.map_flatMap]
  refine List.nodup_flatMap.2 ⟨fun (sm, m) hsm => ?_, ?_⟩
  · rw [List.map_map]
    exact (h sm (List.mem_iff_getElem?.2 ⟨m, List.mem_zipIdx_iff_getElem?.1 hsm⟩)).map
      fun a b (hab : (m, a) = (m, b)) => (Prod.mk.inj hab).2
  · -- slots of different methods have different numbers
    have hidx : (scheduled.zipIdx.map Prod.snd).Pairwise (· ≠ ·) := by
      rw [List.zipIdx_map_snd]
      exact List.nodup_range'
    refine (List.pairwise_map.1 hidx).imp fun {a b} hab x hxa hxb => hab ?_
    simp only [List.mem_map] at hxa hxb
    obtain ⟨_, ⟨_, _, rfl⟩, rfl⟩ := hxa
    obtain ⟨_, ⟨_, _, rfl⟩, heq⟩ := hxb
    exact (Prod.mk.inj heq).1.symm

theorem forall₂_flatten {α β γ : Type} {R : β → γ → Prop} {f : α → List β} :
    ∀ {l : List α} {rows : List (List γ)}, List.Forall₂ (fun a row => List.Forall₂ R (f a) row) l rows →
      List.Forall₂ R (l.flatMap f) rows.flatten
  | [], _, .nil => .nil
  | a :: l, _, .cons hrow hrows => by
    rw [List.flatMap_cons, List.flatten_cons]
    exact List.rel_append hrow (forall₂_flatten hrows)

variable {p : Program} {platform : Platform} {levels : Levels} {scheduled : List Scheduled}

/-- **The regions of data and of slots.** -/
structure Emits (p : Program) (platform : Platform) (levels : Levels) (scheduled : List Scheduled)
    (data code : List Region) : Prop where
  data_ok : List.Forall₂ (fun item r => p.dataRegion platform item = .ok r) p.data data
  code_ok : List.Forall₂ (fun slot r => p.blockRegion platform levels slot.1 slot.2.1 slot.2.2 = .ok r)
    (slots scheduled) code

theorem emit_eq_ok {regions : List Region} (h : p.emit platform levels scheduled = .ok regions) :
    ∃ data code, regions = data ++ code ∧ Emits p platform levels scheduled data code := by
  simp only [emit, Outcome.bind_eq_ok, Outcome.pure_eq_ok] at h
  obtain ⟨data, hdata, code, hcode, rfl⟩ := h
  refine ⟨data, code.flatten, rfl, Outcome.mapM_eq_ok.1 hdata, forall₂_flatten ?_⟩
  refine (Outcome.mapM_eq_ok.1 hcode).imp fun (sm, m) row hrow => ?_
  rw [List.forall₂_map_left_iff]
  exact Outcome.mapM_eq_ok.1 hrow

/-! ## Names -/

theorem methodTarget?_eq_some {name : String} {t : Target} (h : p.methodTarget? name = some t) :
    ∃ k method, p.methods[k]? = some method ∧ method.name = name ∧ t = .block k method.entry := by
  obtain ⟨⟨method, k⟩, hfind, rfl⟩ := Option.map_eq_some_iff.1 h
  have hmem := List.mem_reverse.1 (List.mem_of_find?_eq_some hfind)
  exact ⟨k, method, List.mem_zipIdx_iff_getElem?.1 hmem, by simpa using List.find?_some hfind, rfl⟩

theorem dataTarget?_eq_some {name : String} {t : Target} (h : p.dataTarget? name = some t) :
    ∃ n item, p.data[n]? = some item ∧ item.name = name ∧ t = .region n := by
  obtain ⟨⟨item, n⟩, hfind, rfl⟩ := Option.map_eq_some_iff.1 h
  have hmem := List.mem_reverse.1 (List.mem_of_find?_eq_some hfind)
  exact ⟨n, item, List.mem_zipIdx_iff_getElem?.1 hmem, by simpa using List.find?_some hfind, rfl⟩

/-! ## Single regions -/

/-- What a piece of data decides about its region. -/
theorem dataRegion_eq_ok {item : DataItem} {r : Region} (h : p.dataRegion platform item = .ok r) :
    r.context = .data item.name ∧ r.placement = item.placement.getD platform.data ∧
      r.pointerOffset = item.pointerOffset ∧ r.base = none ∧ r.payload = item.payload := by
  simp only [dataRegion, Outcome.bind_eq_ok, Outcome.pure_eq_ok] at h
  obtain ⟨annotations, -, rfl⟩ := h
  exact ⟨rfl, rfl, rfl, rfl, rfl⟩

/-- The fragments of a block's region: those of its instructions, or else the filler. -/
def filled (filler : List Fragment) (encoded : List (Option (Nat × Nat) × Fragment)) :
    List (Option (Nat × Nat) × Fragment) :=
  if (payloadOf (encoded.map (·.2))).isEmpty then encoded ++ filler.map (none, ·) else encoded

/-- **What a slot decides about its region.** -/
structure Holds (p : Program) (platform : Platform) (levels : Levels) (m : Nat) (sm : Scheduled) (b : Nat)
    (r : Region) : Prop where
  context : r.context = .block m b
  cold : r.cold = sm.schedule.isCold b
  placement : r.placement = if r.cold then platform.coldCode else platform.hotCode
  pointer : r.pointerOffset = 0
  base : r.base = none
  bytes : ∃ encoded, p.encodeInsns levels m sm.schedule 0 (regionInsns sm b) = .ok encoded ∧
    r.payload = payloadOf ((filled (p.filler m b r.cold) encoded).map (·.2)) ∧
    r.annotations = annotationsFrom 0 (filled (p.filler m b r.cold) encoded)

theorem blockRegion_eq_ok {m b : Nat} {sm : Scheduled} {r : Region}
    (h : p.blockRegion platform levels m sm b = .ok r) : Holds p platform levels m sm b r := by
  simp only [blockRegion, Outcome.bind_eq_ok, Outcome.pure_eq_ok] at h
  obtain ⟨encoded, hencoded, rfl⟩ := h
  exact ⟨rfl, rfl, rfl, rfl, rfl, encoded, hencoded, rfl, rfl⟩

/-! ## Annotations -/

theorem perm_insert (a : Annotation) : ∀ l : List Annotation, (a.insert l).Perm (a :: l)
  | [] => .refl _
  | b :: l => by
    unfold Annotation.insert
    split
    · exact ((perm_insert a l).cons b).trans (.swap a b l)
    · exact .refl _

/-- Sorting annotations in keeps them all. -/
theorem perm_foldl_insert : ∀ new l : List Annotation, (new.foldl (fun l b => b.insert l) l).Perm (new ++ l)
  | [], _ => .refl _
  | b :: new, l =>
    (perm_foldl_insert new _).trans (((perm_insert b l).append_left new).trans List.perm_middle)

/-- **What is annotated in data**: a word for each reference, with the address of what it names. -/
theorem annotation_of_dataRegion {item : DataItem} {r : Region} (h : p.dataRegion platform item = .ok r)
    {a : Annotation} (ha : a ∈ r.annotations) : ∃ ref t, ref ∈ item.refs ∧ p.target? ref.target = some t ∧
      ref.offset + 4 ≤ item.payload.length ∧ a = ⟨ref.offset, 4, .absolute t ref.addend⟩ := by
  simp only [dataRegion, Outcome.bind_eq_ok, Outcome.pure_eq_ok] at h
  obtain ⟨annotations, hall, rfl⟩ := h
  rw [(perm_foldl_insert annotations []).mem_iff, List.append_nil] at ha
  obtain ⟨ref, href, hok⟩ := Outcome.exists_mem_of_forall₂_right (Outcome.mapM_eq_ok.1 hall) ha
  split at hok
  · cases hok
  · split at hok
    · rename_i hlength t ht
      cases hok
      exact ⟨ref, t, href, ht, by omega, rfl⟩
    · cases hok

theorem mem_annotationsFrom {a : Annotation} : ∀ {fragments : List (Option (Nat × Nat) × Fragment)} {offset : Nat},
    a ∈ annotationsFrom offset fragments → ∃ f ∈ fragments, ∃ n, f.2.annotation? n f.1 = some a ∧
      n + f.2.payload.length ≤ offset + (payloadOf (fragments.map (·.2))).length
  | (origin, f) :: rest, offset, h => by
    rw [annotationsFrom] at h
    simp only [List.map_cons, payloadOf, List.flatMap_cons, List.length_append]
    rcases List.mem_append.1 h with h | h
    · exact ⟨_, List.mem_cons_self, offset, Option.mem_toList.1 h, by dsimp only; omega⟩
    · obtain ⟨f', hf', n, hn, hle⟩ := mem_annotationsFrom h
      rw [payloadOf] at hle
      exact ⟨f', List.mem_cons_of_mem _ hf', n, hn, by omega⟩

theorem encodeInsns_cons {m : Nat} {s : Schedule} {offset b : Nat} {i : Instruction} {rest : List (Nat × Instruction)}
    {encoded : List (Option (Nat × Nat) × Fragment)} :
    p.encodeInsns levels m s offset ((b, i) :: rest) = .ok encoded ↔ ∃ fragments more,
      i.encode (p.siteOf levels m s b i.index offset) = .ok fragments ∧
      p.encodeInsns levels m s (offset + (payloadOf fragments).length) rest = .ok more ∧
      encoded = fragments.map (some (m, i.index), ·) ++ more := by
  simp only [encodeInsns, Outcome.bind_eq_ok, Outcome.pure_eq_ok]
  constructor
  · rintro ⟨fragments, hf, more, hm, rfl⟩
    exact ⟨fragments, more, hf, hm, rfl⟩
  · rintro ⟨fragments, more, hf, hm, rfl⟩
    exact ⟨fragments, hf, more, hm, rfl⟩

theorem mem_encodeInsns {m : Nat} {s : Schedule} {f : Option (Nat × Nat) × Fragment} :
    ∀ {insns : List (Nat × Instruction)} {offset : Nat} {encoded : List (Option (Nat × Nat) × Fragment)},
      p.encodeInsns levels m s offset insns = .ok encoded → f ∈ encoded → ∃ x ∈ insns, ∃ offset fragments,
        x.2.encode (p.siteOf levels m s x.1 x.2.index offset) = .ok fragments ∧ f.2 ∈ fragments ∧
        f.1 = some (m, x.2.index)
  | [], _, _, h, hf => by
    cases h
    cases hf
  | (b, i) :: rest, offset, encoded, h, hf => by
    obtain ⟨fragments, more, hfragments, hmore, rfl⟩ := encodeInsns_cons.1 h
    rcases List.mem_append.1 hf with hf | hf
    · obtain ⟨fragment, hfragment, rfl⟩ := List.mem_map.1 hf
      exact ⟨(b, i), List.mem_cons_self, offset, fragments, hfragments, hfragment, rfl⟩
    · obtain ⟨x, hx, hencode⟩ := mem_encodeInsns hmore hf
      exact ⟨x, List.mem_cons_of_mem _ hx, hencode⟩

theorem encode_of_encodeInsns {m : Nat} {s : Schedule} {x : Nat × Instruction} :
    ∀ {insns : List (Nat × Instruction)} {offset : Nat} {encoded : List (Option (Nat × Nat) × Fragment)},
      p.encodeInsns levels m s offset insns = .ok encoded → x ∈ insns →
      ∃ offset fragments, x.2.encode (p.siteOf levels m s x.1 x.2.index offset) = .ok fragments
  | (b, i) :: rest, offset, encoded, h, hx => by
    obtain ⟨fragments, more, hfragments, hmore, rfl⟩ := encodeInsns_cons.1 h
    rcases List.mem_cons.1 hx with rfl | hx
    · exact ⟨offset, fragments, hfragments⟩
    · exact encode_of_encodeInsns hmore hx

theorem mem_regionInsns {sm : Scheduled} {b c : Nat} {insn : Instruction} :
    (c, insn) ∈ regionInsns sm b ↔ (c ∈ sm.schedule.aliasesOf b ∨ c = b) ∧ insn ∈ sm.method.insnsOf c := by
  simp only [regionInsns, List.mem_flatMap, List.mem_append, List.mem_singleton, List.mem_map, Prod.mk.injEq]
  constructor
  · rintro ⟨c', hc', insn', hinsn', rfl, rfl⟩
    exact ⟨hc', hinsn'⟩
  · rintro ⟨hc, hinsn⟩
    exact ⟨c, hc, insn, hinsn, rfl, rfl⟩

/-- **What is annotated in code**: a fragment of the region, which stands in the filler or in what an instruction was
encoded as. -/
theorem Holds.exists_fragment {m b : Nat} {sm : Scheduled} {r : Region} (h : Holds p platform levels m sm b r)
    {a : Annotation} (ha : a ∈ r.annotations) : ∃ origin f n, f.annotation? n origin = some a ∧
      n + f.payload.length ≤ r.payload.length ∧ ((origin = none ∧ f ∈ p.filler m b r.cold) ∨
        ∃ c insn offset fragments, (c, insn) ∈ regionInsns sm b ∧
          insn.encode (p.siteOf levels m sm.schedule c insn.index offset) = .ok fragments ∧ f ∈ fragments ∧
          origin = some (m, insn.index)) := by
  obtain ⟨encoded, hencoded, hpayload, hannotations⟩ := h.bytes
  rw [hannotations] at ha
  obtain ⟨⟨origin, f⟩, hf, n, hn, hle⟩ := mem_annotationsFrom ha
  rw [Nat.zero_add, ← hpayload] at hle
  refine ⟨origin, f, n, hn, hle, ?_⟩
  have hfilled : (origin, f) ∈ encoded ++ (p.filler m b r.cold).map (none, ·) := by
    unfold filled at hf
    split at hf
    · exact hf
    · exact List.mem_append_left _ hf
  rcases List.mem_append.1 hfilled with hf | hf
  · obtain ⟨⟨c, insn⟩, hinsn, offset, fragments, hencode, hmem, horigin⟩ := mem_encodeInsns hencoded hf
    exact .inr ⟨c, insn, offset, fragments, hinsn, hencode, hmem, horigin⟩
  · obtain ⟨f, hf, heq⟩ := List.mem_map.1 hf
    cases heq
    exact .inl ⟨rfl, hf⟩

/-! ## Regions by number -/

namespace Emits

variable {data code : List Region}

theorem data_of_lt (h : Emits p platform levels scheduled data code) {i : Nat} {r : Region} (hi : i < p.data.length)
    (hr : (data ++ code)[i]? = some r) : ∃ item, p.data[i]? = some item ∧ p.dataRegion platform item = .ok r := by
  rw [List.getElem?_append_left (h.data_ok.length_eq ▸ hi)] at hr
  exact Outcome.forall₂_getElem?_right h.data_ok hr

theorem exists_data (h : Emits p platform levels scheduled data code) {i : Nat} {item : DataItem}
    (hitem : p.data[i]? = some item) : ∃ r, (data ++ code)[i]? = some r ∧ p.dataRegion platform item = .ok r := by
  obtain ⟨r, hr, hok⟩ := Outcome.forall₂_getElem? h.data_ok hitem
  exact ⟨r, by rw [List.getElem?_append_left (List.getElem?_eq_some_iff.1 hr).1, hr], hok⟩

theorem slot_of_le (h : Emits p platform levels scheduled data code) {i : Nat} {r : Region} (hi : p.data.length ≤ i)
    (hr : (data ++ code)[i]? = some r) : ∃ m sm b, scheduled[m]? = some sm ∧ b ∈ sm.schedule.order ∧
      Holds p platform levels m sm b r := by
  rw [List.getElem?_append_right (h.data_ok.length_eq ▸ hi)] at hr
  obtain ⟨⟨m, sm, b⟩, hslot, hok⟩ := Outcome.forall₂_getElem?_right h.code_ok hr
  obtain ⟨hsm, hb⟩ := mem_slots.1 (List.mem_of_getElem? hslot)
  exact ⟨m, sm, b, hsm, hb, blockRegion_eq_ok hok⟩

/-- **A region that holds a block is the region of its slot.** -/
theorem slot_of_context (h : Emits p platform levels scheduled data code) {i m b : Nat} {r : Region}
    (hr : (data ++ code)[i]? = some r) (hc : r.context = .block m b) : p.data.length ≤ i ∧ ∃ sm,
      scheduled[m]? = some sm ∧ b ∈ sm.schedule.order ∧ Holds p platform levels m sm b r := by
  by_cases hi : i < p.data.length
  · obtain ⟨item, -, hok⟩ := h.data_of_lt hi hr
    rw [(dataRegion_eq_ok hok).1] at hc
    cases hc
  · obtain ⟨m', sm, b', hsm, hb, hholds⟩ := h.slot_of_le (Nat.le_of_not_lt hi) hr
    cases hholds.context.symm.trans hc
    exact ⟨Nat.le_of_not_lt hi, sm, hsm, hb, hholds⟩

/-- **A method's regions stand together**, in the order of its schedule. -/
theorem exists_slots (h : Emits p platform levels scheduled data code) {m : Nat} {sm : Scheduled}
    (hsm : scheduled[m]? = some sm) : ∃ start, ∀ {k b : Nat}, sm.schedule.order[k]? = some b →
      ∃ r, (data ++ code)[start + k]? = some r ∧ Holds p platform levels m sm b r := by
  obtain ⟨before, after, hsplit⟩ := slots_split hsm
  refine ⟨p.data.length + before.length, fun {k b} hk => ?_⟩
  have hslot : (slots scheduled)[before.length + k]? = some (m, sm, b) := by
    rw [hsplit, List.append_assoc, List.getElem?_append_right (Nat.le_add_right _ _), Nat.add_sub_cancel_left,
      List.getElem?_append_left, List.getElem?_map, hk]
    · rfl
    · rw [List.length_map]
      exact (List.getElem?_eq_some_iff.1 hk).1
  obtain ⟨r, hr, hok⟩ := Outcome.forall₂_getElem? h.code_ok hslot
  refine ⟨r, ?_, blockRegion_eq_ok hok⟩
  rw [Nat.add_assoc, List.getElem?_append_right (h.data_ok.length_eq ▸ Nat.le_add_right _ _), ← h.data_ok.length_eq,
    Nat.add_sub_cancel_left, hr]

theorem base_eq_none (h : Emits p platform levels scheduled data code) {i : Nat} {r : Region}
    (hr : (data ++ code)[i]? = some r) : r.base = none := by
  by_cases hi : i < p.data.length
  · obtain ⟨item, -, hok⟩ := h.data_of_lt hi hr
    exact (dataRegion_eq_ok hok).2.2.2.1
  · obtain ⟨m, sm, b, -, -, hholds⟩ := h.slot_of_le (Nat.le_of_not_lt hi) hr
    exact hholds.base

/-- **No two regions hold the same block.** -/
theorem block_unique (h : Emits p platform levels scheduled data code)
    (hnodup : ∀ sm ∈ scheduled, sm.schedule.order.Nodup) {i j m b : Nat} {r s : Region}
    (hr : (data ++ code)[i]? = some r) (hs : (data ++ code)[j]? = some s) (hrc : r.context = .block m b)
    (hsc : s.context = .block m b) : i = j := by
  obtain ⟨hi, -⟩ := h.slot_of_context hr hrc
  obtain ⟨hj, -⟩ := h.slot_of_context hs hsc
  rw [List.getElem?_append_right (h.data_ok.length_eq ▸ hi)] at hr
  rw [List.getElem?_append_right (h.data_ok.length_eq ▸ hj)] at hs
  have hkey : ∀ {n : Nat} {r : Region}, code[n]? = some r → r.context = .block m b →
      ((slots scheduled).map fun slot => (slot.1, slot.2.2))[n]? = some (m, b) := by
    intro n r hr hc
    obtain ⟨⟨m', sm, b'⟩, hslot, hok⟩ := Outcome.forall₂_getElem?_right h.code_ok hr
    cases (blockRegion_eq_ok hok).context.symm.trans hc
    rw [List.getElem?_map, hslot]
    rfl
  have hir := hkey hr hrc
  have hjs := hkey hs hsc
  have := (List.getElem?_inj (List.getElem?_eq_some_iff.1 hir).1 (nodup_slots hnodup)).1 (hir.trans hjs.symm)
  rw [← h.data_ok.length_eq] at this
  omega

end Emits

end Program

end CodeImage
