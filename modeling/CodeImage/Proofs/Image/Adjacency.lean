import CodeImage.Proofs.Image.Allotment
/-!
# Adjacency — falling through in the schedule and in memory

The slots of one method and coldness stand in memory in the order of the schedule, and nothing lies between two of them
that the schedule does not put there (`Reached.slots_in_row`).  So control falls from a slot into another exactly where
the one ends and the other starts (`adjacency_in_memory`).
-/
namespace CodeImage

namespace Schedule.Complete

variable {o : Outline} {g : FlowGraph} {s : Schedule} (h : s.Complete o g)

include h

/-- **Slots that follow each other are adjacent** when both are hot or both are cold. -/
theorem adjacent_of_order {k b c : Nat} (hb : s.order[k]? = some b) (hc : s.order[k + 1]? = some c)
    (hcold : s.isCold b = s.isCold c) : s.adjacent b c = true := by
  have hb' := ((h.mem_order b).1 (List.mem_of_getElem? hb)).2
  have hc' := ((h.mem_order c).1 (List.mem_of_getElem? hc)).2
  simp [adjacent, slotOwner, hb', hc', h.index k b hb, h.index (k + 1) c hc, hcold]

/-- **Between two slots of one coldness** all slots have it. -/
theorem isCold_between {j k l b c d : Nat} (hb : s.order[j]? = some b) (hc : s.order[k]? = some c)
    (hd : s.order[l]? = some d) (hjk : j < k) (hkl : k < l) (hcold : s.isCold b = s.isCold d) :
    s.isCold b = s.isCold c := by
  have hlater : ∀ {j k b c : Nat}, s.order[j]? = some b → s.order[k]? = some c → j < k → s.isCold b = true →
      s.isCold c = true := by
    intro j k b c hb hc hjk
    obtain ⟨hj, rfl⟩ := List.getElem?_eq_some_iff.1 hb
    obtain ⟨hk, rfl⟩ := List.getElem?_eq_some_iff.1 hc
    exact List.pairwise_iff_getElem.1 h.hotFirst j k hj hk hjk
  rw [Bool.eq_iff_iff]
  constructor
  · exact hlater hb hc hjk
  · intro hcold'
    rw [hcold]
    exact hlater hc hd hkl hcold'

end Schedule.Complete

namespace Program

variable {p : Program} {platform : Platform} {options : Options} {scheduled : List Scheduled}
  {emitted placed patched : List Region} {used : MemoryMap} {i : Image}

/-- **Slots stand in memory in the order of the schedule**, and two of them touch only when they follow each other. -/
theorem Reached.slots_in_row (h : p.Reached platform options scheduled emitted placed patched used)
    (hsched : p.scheduleAll = .ok scheduled) {m j b n a : Nat} {sm : Scheduled} {e : Region} {payload : Bytes}
    (hsm : scheduled[m]? = some sm) (hb : sm.schedule.order[j]? = some b)
    (hs : Stages scheduled emitted placed patched n e a payload) (hcontext : e.context = .block m b) :
    ∀ {d c n' a' : Nat} {e' : Region} {payload' : Bytes}, sm.schedule.order[j + d + 1]? = some c →
      sm.schedule.isCold b = sm.schedule.isCold c → Stages scheduled emitted placed patched n' e' a' payload' →
      e'.context = .block m c → a + payload.length ≤ a' ∧ (a + payload.length = a' → d = 0)
  | 0, c, n', a', e', payload', hc, hcold, hs', hcontext' => by
    obtain ⟨_, _, _, _, _, _, hs₁, hc₁, hs₂, hc₂⟩ := h.adjacent_slots hsched hsm hb hc hcold
    obtain ⟨rfl, rfl, rfl, rfl⟩ := h.slot_unique hsched hs hs₁ hcontext hc₁
    obtain ⟨-, -, rfl, -⟩ := h.slot_unique hsched hs' hs₂ hcontext' hc₂
    exact ⟨Nat.le_refl _, fun _ => rfl⟩
  | d + 1, c, n', a', e', payload', hc, hcold, hs', hcontext' => by
    obtain ⟨g, hcomplete⟩ := complete_scheduled hsched hsm
    obtain ⟨c₀, hc₀⟩ : ∃ c₀, sm.schedule.order[j + d + 1]? = some c₀ := by
      have hlt := (List.getElem?_eq_some_iff.1 hc).1
      exact ⟨_, List.getElem?_eq_getElem (by omega)⟩
    have hcold₀ := hcomplete.isCold_between hb hc₀ hc (by omega) (by omega) hcold
    obtain ⟨_, _, _, _, _, _, hs₁, hc₁, hs₂, hc₂⟩ := h.adjacent_slots hsched hsm hc₀ hc (hcold₀.symm.trans hcold)
    obtain ⟨hle, -⟩ := h.slots_in_row hsched hsm hb hs hcontext hc₀ hcold₀ hs₁ hc₁
    obtain ⟨-, -, rfl, -⟩ := h.slot_unique hsched hs' hs₂ hcontext' hc₂
    -- the slot in between is not empty, so the outer two do not touch
    have hpos := h.length_pos hs₁
    exact ⟨by omega, fun heq => by omega⟩

theorem Reached.mem_order_of_context (h : p.Reached platform options scheduled emitted placed patched used) {n m b a : Nat}
    {e : Region} {payload : Bytes} {sm : Scheduled} (hsm : scheduled[m]? = some sm)
    (hs : Stages scheduled emitted placed patched n e a payload) (hcontext : e.context = .block m b) :
    b ∈ sm.schedule.order := by
  obtain ⟨levels, data, code, rfl, hemits, -, -⟩ := h.exists_emits
  obtain ⟨-, sm', hsm', hb, -⟩ := hemits.slot_of_context hs.emitted_eq hcontext
  cases hsm.symm.trans hsm'
  exact hb

namespace Laid

variable (h : p.Laid platform options scheduled emitted placed patched used i) {m pre post : Nat} {sm : Scheduled}
  (hsm : scheduled[m]? = some sm)

include h hsm

/-- **Where one slot ends and the next one starts**, control falls from the one into the other. -/
theorem adjacent_of_touching {r q : PlacedRegion} (hr : r ∈ i.regions) (hpre : r.context = .block m pre)
    (hq : q ∈ i.regions) (hpost : q.context = .block m post)
    (hcold : sm.schedule.isCold pre = sm.schedule.isCold post) (htouch : r.address + r.size = q.address) :
    sm.schedule.adjacent pre post = true := by
  obtain ⟨n, e, a, payload, hs, rfl⟩ := h.mem_regions.1 hr
  obtain ⟨n', e', a', payload', hs', rfl⟩ := h.mem_regions.1 hq
  obtain ⟨j, hj⟩ := List.mem_iff_getElem?.1 (h.mem_order_of_context hsm hs hpre)
  obtain ⟨k, hk⟩ := List.mem_iff_getElem?.1 (h.mem_order_of_context hsm hs' hpost)
  dsimp only at htouch
  have hpos := h.length_pos hs
  have hpos' := h.length_pos hs'
  rcases Nat.lt_trichotomy j k with hlt | rfl | hlt
  · obtain ⟨d, rfl⟩ := Nat.exists_eq_add_of_lt hlt
    have hnext := (h.slots_in_row h.schedule_ok hsm hj hs hpre hk hcold hs' hpost).2 htouch
    subst hnext
    obtain ⟨g, hcomplete⟩ := complete_scheduled h.schedule_ok hsm
    exact hcomplete.adjacent_of_order hj hk hcold
  · -- a slot that is not empty does not end where it starts
    cases hj.symm.trans hk
    obtain ⟨-, -, rfl, -⟩ := h.slot_unique h.schedule_ok hs hs' hpre hpost
    omega
  · obtain ⟨d, rfl⟩ := Nat.exists_eq_add_of_lt hlt
    have hback := (h.slots_in_row h.schedule_ok hsm hk hs' hpost hj hcold.symm hs hpre).1
    omega

/-- **Control that falls from a slot** arrives where its region ends. -/
theorem fall_from_owner (howner : sm.schedule.alias? pre = none) (hpre : sm.schedule.isScheduled pre = true)
    (hpost : sm.schedule.isScheduled post = true) (hadj : sm.schedule.adjacent pre post = true) :
    ∃ r ∈ i.regions, r.context = .block m pre ∧ (∀ q ∈ i.regions, q.context = .block m pre → q = r) ∧
      i.blockAddress? m pre = some r.address ∧ i.blockAddress? m post = some (r.address + r.size) := by
  obtain ⟨g, hcomplete⟩ := complete_scheduled h.schedule_ok hsm
  have hmem : pre ∈ sm.schedule.order := (hcomplete.mem_order pre).2 ⟨(hcomplete.scheduled pre).1 hpre, howner⟩
  obtain ⟨levels, n, e, a, payload, hs, hholds, ha⟩ := h.exists_ownAddress hsm hmem
  refine ⟨_, h.mem_regions.2 ⟨n, e, a, payload, hs, rfl⟩, hholds.context, fun q hq hcontext => ?_, ha, ?_⟩
  · obtain ⟨n', e', a', payload', hs', rfl⟩ := h.mem_regions.1 hq
    obtain ⟨rfl, rfl, rfl, rfl⟩ := h.slot_unique h.schedule_ok hs hs' hholds.context hcontext
    rfl
  · exact h.blockAddress?_of_adjacent hsm hmem ((hcomplete.scheduled post).1 hpost) hadj hs hholds.context

/-- **A hollow block lies where the block that it falls into does.** -/
theorem fall_from_alias {t : Nat} (halias : sm.schedule.alias? pre = some t)
    (hpre : sm.schedule.isScheduled pre = true) (hpost : sm.schedule.isScheduled post = true)
    (hadj : sm.schedule.adjacent pre post = true) :
    ∃ a, i.blockAddress? m pre = some a ∧ i.blockAddress? m post = some a := by
  obtain ⟨g, hcomplete⟩ := complete_scheduled h.schedule_ok hsm
  have hslot : sm.schedule.slotOwner pre = sm.schedule.slotOwner post := by
    rw [Schedule.adjacent, halias] at hadj
    rw [Schedule.slotOwner, halias]
    exact beq_iff_eq.1 hadj
  obtain ⟨_, n, e, a, payload, hs, hholds, ha, -⟩ := h.exists_blockAddress hsm ((hcomplete.scheduled pre).1 hpre)
  obtain ⟨_, n', e', a', payload', hs', hholds', ha', -⟩ := h.exists_blockAddress hsm ((hcomplete.scheduled post).1 hpost)
  obtain ⟨-, -, rfl, -⟩ := h.slot_unique h.schedule_ok hs hs' hholds.context (hslot ▸ hholds'.context)
  exact ⟨a, ha, ha'⟩

end Laid

/-- **Adjacency in the schedule is adjacency in memory.**  Of two scheduled blocks that are adjacent, the second lies
directly behind the region of the first, or at the same address when the first has no region of its own.  Conversely
blocks of one coldness whose regions touch are adjacent. -/
theorem adjacency_in_memory (p : Program) (platform : Platform) (options : Options) (i : Image)
    (h : p.layout platform options = .ok i) (m : Nat) (s : Schedule) (hs : i.schedules[m]? = some s) (pre post : Nat)
    (hpre : s.isScheduled pre = true) (hpost : s.isScheduled post = true) :
    (s.adjacent pre post = true → match s.alias? pre with
      | none => ∃ r ∈ i.regions, r.context = .block m pre ∧ (∀ q ∈ i.regions, q.context = .block m pre → q = r) ∧
        i.blockAddress? m pre = some r.address ∧ i.blockAddress? m post = some (r.address + r.size)
      | some _ => ∃ a, i.blockAddress? m pre = some a ∧ i.blockAddress? m post = some a) ∧
    (s.alias? pre = none → s.alias? post = none → s.isCold pre = s.isCold post →
      ∀ r ∈ i.regions, r.context = .block m pre → ∀ q ∈ i.regions, q.context = .block m post →
        r.address + r.size = q.address → s.adjacent pre post = true) := by
  obtain ⟨scheduled, emitted, placed, patched, used, hlaid⟩ := exists_laid h
  rw [hlaid.schedules_eq, List.getElem?_map] at hs
  obtain ⟨sm, hsm, rfl⟩ := Option.map_eq_some_iff.1 hs
  refine ⟨fun hadj => ?_, fun _ _ hcold r hr hrc q hq hqc htouch => ?_⟩
  · cases halias : sm.schedule.alias? pre with
    | none => exact hlaid.fall_from_owner hsm halias hpre hpost hadj
    | some t => exact hlaid.fall_from_alias hsm halias hpre hpost hadj
  · exact hlaid.adjacent_of_touching hsm hr hrc hq hqc hcold htouch

theorem adjacency_in_memory_pinned : ∃ i, pinned.layout pinnedPlatform .default = .ok i ∧
    (∃ r ∈ i.regions, r.context = .block 0 0 ∧ i.blockAddress? 0 1 = some (r.address + r.size)) ∧
    (∃ a, i.blockAddress? 0 1 = some a ∧ i.blockAddress? 0 2 = some a) ∧ pinnedSchedule.adjacent 2 3 = true := by
  obtain ⟨i, hi, hregions, hschedules⟩ := exists_layout_pinned
  have hs : i.schedules[0]? = some pinnedSchedule := by rw [hschedules]; rfl
  have hmemory := adjacency_in_memory pinned pinnedPlatform .default i hi 0 pinnedSchedule hs
  obtain ⟨r, hr, hcontext, -, -, ha⟩ := (hmemory 0 1 (by decide) (by decide)).1 (by decide)
  refine ⟨i, hi, ⟨r, hr, hcontext, ha⟩, (hmemory 1 2 (by decide) (by decide)).1 (by decide), ?_⟩
  rw [hregions] at hmemory
  exact (hmemory 2 3 (by decide) (by decide)).2 (by decide) (by decide) (by decide)
    ⟨5, .block 0 2, 68, 4, false, [65, 0, 0, 0]⟩ (by decide) rfl ⟨6, .block 0 3, 72, 4, false, [5, 0, 0, 0]⟩ (by decide)
    rfl rfl

end Program

end CodeImage
