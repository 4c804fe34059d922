import CodeImage.Proofs.Image.Addresses
/-!
# Rows — how far into its row of code a block lies

A method's code of one coldness lies in a row, in the order of the schedule, and the row starts where its placement asks
for.  So a block lies at an aligned address, and behind it the bytes of the blocks of its coldness that the schedule
puts in front (`Laid.exists_row`).
-/
namespace CodeImage

namespace Image

/-- The size of the region that holds a block. -/
def blockSize (i : Image) (m b : Nat) : Nat := ((i.regions.find? (·.context == .block m b)).map (·.size)).getD 0

/-- **The bytes in front of a block** in its method's code of its coldness, which the schedule `s` puts in order. -/
def bytesAhead (i : Image) (m : Nat) (s : Schedule) (b : Nat) : Nat :=
  (((s.order.take ((s.indexOf b).getD 0)).filter (s.isCold · == s.isCold b)).map (i.blockSize m)).sum

theorem bytesAhead_of_first (i : Image) (m : Nat) {s : Schedule} {b : Nat} (h : s.indexOf b = some 0) :
    i.bytesAhead m s b = 0 := by
  rw [bytesAhead, h]
  rfl

end Image

namespace Program

variable {p : Program} {platform : Platform} {options : Options} {levels : Levels} {scheduled : List Scheduled}
  {emitted placed patched data code : List Region} {used : MemoryMap} {i : Image}

/-- **What lies in front of a slot in its row** is what the schedule puts in front of it. -/
theorem Emits.lead_eq (h : Emits p platform levels scheduled data code) (hnodup : ∀ sm ∈ scheduled, sm.schedule.order.Nodup)
    {m start : Nat} {sm : Scheduled} (hsm : scheduled[m]? = some sm)
    (hslots : ∀ {k b : Nat}, sm.schedule.order[k]? = some b →
      ∃ r, (data ++ code)[start + k]? = some r ∧ Holds p platform levels m sm b r)
    {size : Nat → Nat} (hsize : ∀ {k b : Nat} {r : Region}, sm.schedule.order[k]? = some b →
      (data ++ code)[start + k]? = some r → size b = r.size) (cold : Bool) :
    ∀ {k : Nat}, k ≤ sm.schedule.order.length → lead (·.isCodeOf m cold) (data ++ code) (start + k) =
      (((sm.schedule.order.take k).filter (sm.schedule.isCold · == cold)).map size).sum
  | 0, _ => by
    refine lead_eq_zero fun j r hr hcode => ?_
    obtain ⟨⟨b, hcontext⟩, -⟩ := (r.isCodeOf_iff m cold).1 hcode
    obtain ⟨-, sm', hsm', hb, -⟩ := h.slot_of_context hr hcontext
    cases hsm.symm.trans hsm'
    obtain ⟨k, hk⟩ := List.mem_iff_getElem?.1 hb
    obtain ⟨r', hr', hholds⟩ := hslots hk
    rw [h.block_unique hnodup hr hr' hcontext hholds.context]
    omega
  | k + 1, hk => by
    have hlt : k < sm.schedule.order.length := hk
    have hb := List.getElem?_eq_getElem hlt
    obtain ⟨r, hr, hholds⟩ := hslots hb
    have hcode : r.isCodeOf m cold = true ↔ sm.schedule.isCold sm.schedule.order[k] = cold := by
      rw [r.isCodeOf_iff m cold, hholds.cold]
      exact and_iff_right ⟨_, hholds.context⟩
    have ih := h.lead_eq hnodup hsm hslots hsize cold (Nat.le_of_lt hlt)
    rw [← Nat.add_assoc, ← List.take_append_getElem hlt, List.filter_append, List.map_append, List.sum_append, ← ih]
    by_cases hcold : sm.schedule.isCold sm.schedule.order[k] = cold
    · rw [lead_succ hr (hcode.2 hcold), ← hsize hb hr]
      simp [hcold]
    · rw [lead_succ_of_neg hr (mt hcode.1 hcold)]
      simp [hcold]

namespace Laid

variable (h : p.Laid platform options scheduled emitted placed patched used i)

include h

theorem blockSize_eq {m b n a : Nat} {e : Region} {payload : Bytes} (hs : Stages scheduled emitted placed patched n e a payload)
    (hc : e.context = .block m b) : i.blockSize m b = e.size := by
  have hmem : ⟨n, e.context, a, payload.length, e.cold, payload⟩ ∈ i.regions := h.mem_regions.2 ⟨n, e, a, payload, hs, rfl⟩
  obtain ⟨r, hr, hmem', hc'⟩ := exists_find? (p := (·.context == .block m b)) hmem (beq_iff_eq.2 hc)
  obtain ⟨n', e', a', payload', hs', rfl⟩ := h.mem_regions.1 hmem'
  obtain ⟨rfl, rfl, rfl, rfl⟩ := h.slot_unique h.schedule_ok hs hs' hc (beq_iff_eq.1 hc')
  rw [Image.blockSize, hr]
  exact hs.length_eq

/-- **Blocks lie in rows**, one for each method and coldness, which start as their placement asks. -/
theorem exists_row {m : Nat} {sm : Scheduled} (hsm : scheduled[m]? = some sm) (cold : Bool) :
    ∃ start, ∀ {b : Nat}, sm.method.outline.Reaches b → sm.schedule.isCold b = cold →
      i.blockAddress? m b = some (start + i.bytesAhead m sm.schedule b) ∧
      MemoryMap.Aligned (start + (platform.codePlacement options cold).alignmentOffset)
        (platform.codePlacement options cold).alignment := by
  obtain ⟨g, hcomplete⟩ := complete_scheduled h.schedule_ok hsm
  have hm := (List.getElem?_eq_some_iff.1 (scheduled_getElem? h.schedule_ok hsm).1).1
  obtain ⟨levels, hemit⟩ := h.emit_ok
  obtain ⟨data, code, rfl, hemits⟩ := emit_eq_ok hemit
  obtain ⟨a, hrow⟩ := @(placing_place hemits h.place_ok).2 m cold hm
  obtain ⟨start, hslots⟩ := hemits.exists_slots hsm
  have hsize : ∀ {k b : Nat} {r : Region}, sm.schedule.order[k]? = some b → (data ++ code)[start + k]? = some r →
      i.blockSize m b = r.size := by
    intro k b r hb hr
    obtain ⟨e, he, hholds⟩ := hslots hb
    cases hr.symm.trans he
    obtain ⟨a, payload, hs⟩ := h.exists_stages hr
    exact h.blockSize_eq hs hholds.context
  refine ⟨a, fun {b} hb hcold => ?_⟩
  obtain ⟨hindex, hshared⟩ := hcomplete.shared_slotOwner hb
  obtain ⟨k, hk⟩ := List.mem_iff_getElem?.1 (hcomplete.slotOwner_mem hb)
  obtain ⟨e, he, hholds⟩ := hslots hk
  obtain ⟨a', payload, hs⟩ := h.exists_stages he
  have hcode : e.isCodeOf m cold = true := by
    rw [e.isCodeOf_iff m cold, hholds.cold, ← hshared]
    exact ⟨⟨_, hholds.context⟩, hcold⟩
  obtain ⟨hbase, haligned⟩ := hrow (start + k) _ hs.placed_eq hcode
  cases hbase
  refine ⟨?_, haligned⟩
  obtain ⟨_, _, _, _, _, hs', hholds', ha', -⟩ := h.exists_blockAddress hsm hb
  obtain ⟨-, -, rfl, -⟩ := h.slot_unique h.schedule_ok hs' hs hholds'.context hholds.context
  rw [ha', hemits.lead_eq (nodup_order_scheduled h.schedule_ok) hsm hslots hsize cold
    (Nat.le_of_lt (List.getElem?_eq_some_iff.1 hk).1), Image.bytesAhead, hindex, hcomplete.index k _ hk, hcold]
  rfl

end Laid

end Program

end CodeImage
