import CodeImage.Proofs.Image.Patching
import CodeImage.Proofs.Image.Placement
import CodeImage.Proofs.Image.Rounds
import CodeImage.Proofs.Schedule.Complete
/-!
# Addresses — where the blocks of an image lie

`Stages` follows one region of an image from its emission to its final bytes.  Every slot has a region and no other
region holds its block (`Reached.exists_slot`, `Reached.slot_unique`).  The image answers the address of every block
that control reaches (`Laid.exists_blockAddress`), and where the schedule lets control fall from a block into another,
the one lies directly in front of the other (`Laid.blockAddress?_of_adjacent`).
-/
namespace CodeImage

theorem AddressBook.blockAddress?_of_resolve {book : AddressBook} {m b a : Nat}
    (h : book.resolve (.block m b) = .ok a) : book.blockAddress? m b = some a := by
  rw [resolve] at h
  split at h
  · cases h
    assumption
  · cases h

namespace Program

variable {p : Program} {platform : Platform} {options : Options} {scheduled : List Scheduled}
  {emitted placed patched : List Region} {used : MemoryMap} {i : Image}

/-! ## Schedules -/

theorem scheduled_getElem? (h : p.scheduleAll = .ok scheduled) {m : Nat} {sm : Scheduled}
    (hsm : scheduled[m]? = some sm) : p.methods[m]? = some sm.method ∧ ∃ g,
      FlowGraph.ofOutline sm.method.outline = .ok g ∧ Schedule.of g sm.method.blockSizes = .ok sm.schedule := by
  obtain ⟨method, hmethod, hok⟩ := Outcome.forall₂_getElem?_right (Outcome.mapM_eq_ok.1 h) hsm
  obtain ⟨s, hs, rfl⟩ := Outcome.map_eq_ok.1 hok
  obtain ⟨g, hg, hof⟩ := Outcome.bind_eq_ok.1 hs
  exact ⟨hmethod, g, hg, Outcome.mapError_eq_ok.1 hof⟩

theorem exists_scheduled (h : p.scheduleAll = .ok scheduled) {m : Nat} {method : Method}
    (hm : p.methods[m]? = some method) : ∃ sm, scheduled[m]? = some sm ∧ sm.method = method := by
  obtain ⟨sm, hsm, hok⟩ := Outcome.forall₂_getElem? (Outcome.mapM_eq_ok.1 h) hm
  obtain ⟨s, -, rfl⟩ := Outcome.map_eq_ok.1 hok
  exact ⟨_, hsm, rfl⟩

theorem complete_scheduled (h : p.scheduleAll = .ok scheduled) {m : Nat} {sm : Scheduled}
    (hsm : scheduled[m]? = some sm) : ∃ g, Schedule.Complete sm.method.outline g sm.schedule := by
  obtain ⟨-, g, hg, hs⟩ := scheduled_getElem? h hsm
  exact ⟨g, Schedule.complete_of hg hs⟩

theorem nodup_order_scheduled (h : p.scheduleAll = .ok scheduled) :
    ∀ sm ∈ scheduled, sm.schedule.order.Nodup := by
  intro sm hsm
  obtain ⟨m, hm⟩ := List.mem_iff_getElem?.1 hsm
  obtain ⟨g, hc⟩ := complete_scheduled h hm
  exact hc.nodup

/-! ## Regions from emission to image -/

/-- **One region in all its stages**: emitted as `e`, placed at `a`, patched to `payload`. -/
structure Stages (scheduled : List Scheduled) (emitted placed patched : List Region) (n : Nat) (e : Region) (a : Nat)
    (payload : Bytes) : Prop where
  emitted_eq : emitted[n]? = some e
  placed_eq : placed[n]? = some { e with base := some a }
  patched_eq : patched[n]? = some { e with base := some a, payload := payload }
  length_eq : payload.length = e.payload.length
  patches : Patches ⟨scheduled, placed⟩ { e with base := some a } { e with base := some a, payload := payload }

theorem Stages.unique {n a a' : Nat} {e e' : Region} {payload payload' : Bytes}
    (h : Stages scheduled emitted placed patched n e a payload)
    (h' : Stages scheduled emitted placed patched n e' a' payload') : e = e' ∧ a = a' ∧ payload = payload' := by
  cases h.emitted_eq.symm.trans h'.emitted_eq
  have hpatched := h.patched_eq.symm.trans h'.patched_eq
  simp only [Option.some.injEq, Region.mk.injEq, true_and, and_true] at hpatched
  exact ⟨rfl, hpatched⟩

namespace Reached

theorem exists_emits (h : p.Reached platform options scheduled emitted placed patched used) :
    ∃ levels data code, emitted = data ++ code ∧ Emits p platform levels scheduled data code ∧
      Placing p platform emitted (placed, used) ∧
      ∀ {m : Nat} {cold : Bool}, m < p.methods.length → Touching m cold placed := by
  obtain ⟨levels, hemit⟩ := h.emit_ok
  obtain ⟨data, code, rfl, hemits⟩ := emit_eq_ok hemit
  obtain ⟨hplacing, hrows⟩ := placing_place hemits h.place_ok
  exact ⟨levels, data, code, rfl, hemits, hplacing, fun hm => (hrows hm).touching hplacing.body⟩

theorem stages_of_patched (h : p.Reached platform options scheduled emitted placed patched used) {n : Nat} {r : Region}
    (hr : patched[n]? = some r) : ∃ e a payload, Stages scheduled emitted placed patched n e a payload ∧
      r = { e with base := some a, payload := payload } := by
  obtain ⟨q, hq, hpatch⟩ := Outcome.forall₂_getElem?_right (patches_patchAll h.patch_ok) hr
  obtain ⟨-, -, -, -, -, hplacing, -⟩ := h.exists_emits
  obtain ⟨e, base, he, rfl⟩ := getElem?_of_body hplacing.body hq
  obtain ⟨a, ha⟩ := hpatch.exists_base
  obtain ⟨payload, rfl, hlength⟩ := hpatch.eq_with_payload
  cases ha
  exact ⟨e, a, payload, ⟨he, hq, hr, hlength, hpatch⟩, rfl⟩

theorem exists_stages (h : p.Reached platform options scheduled emitted placed patched used) {n : Nat} {e : Region}
    (he : emitted[n]? = some e) : ∃ a payload, Stages scheduled emitted placed patched n e a payload := by
  obtain ⟨-, -, -, -, -, hplacing, -⟩ := h.exists_emits
  obtain ⟨q, base, hq, -⟩ := getElem?_of_body hplacing.body.symm he
  obtain ⟨r, hr, -⟩ := Outcome.forall₂_getElem? (patches_patchAll h.patch_ok) hq
  obtain ⟨e', a, payload, hs, -⟩ := h.stages_of_patched hr
  cases he.symm.trans hs.emitted_eq
  exact ⟨a, payload, hs⟩

theorem length_pos (h : p.Reached platform options scheduled emitted placed patched used) {n a : Nat} {e : Region}
    {payload : Bytes} (hs : Stages scheduled emitted placed patched n e a payload) : 0 < payload.length := by
  obtain ⟨-, -, -, -, -, hplacing, -⟩ := h.exists_emits
  have hfilled := hplacing.housed.filled _ (List.mem_of_getElem? hs.placed_eq) rfl
  rw [hs.length_eq]
  exact List.length_pos_iff.2 hfilled

/-- **Every region ends within the words.** -/
theorem stop_lt (h : p.Reached platform options scheduled emitted placed patched used) {n a : Nat} {e : Region}
    {payload : Bytes} (hs : Stages scheduled emitted placed patched n e a payload) : a + payload.length < wordLimit := by
  obtain ⟨-, -, -, -, -, hplacing, -⟩ := h.exists_emits
  rw [hs.length_eq]
  exact hplacing.housed.within _ (List.mem_of_getElem? hs.placed_eq) a rfl

/-- **A region that the layout chose an address for lies in declared memory** that its placement accepts. -/
theorem exists_declared (h : p.Reached platform options scheduled emitted placed patched used) {n a : Nat} {e : Region}
    {payload : Bytes} (hs : Stages scheduled emitted placed patched n e a payload) (hfree : p.isFixed n = false) (x : Nat)
    (hax : a ≤ x) (hx : x < a + payload.length) :
    ∃ d, MemoryMap.declaredAt? platform.memory x = some d ∧ e.placement.accepts (HeapRange.ofMemoryRange d).tag = true := by
  obtain ⟨-, -, -, -, -, hplacing, -⟩ := h.exists_emits
  rw [hs.length_eq] at hx
  exact hplacing.housed.room hs.placed_eq hfree x ⟨a, rfl, hax, hx⟩

/-- **Every slot has a region.** -/
theorem exists_slot (h : p.Reached platform options scheduled emitted placed patched used) {m b : Nat} {sm : Scheduled}
    (hsm : scheduled[m]? = some sm) (hb : b ∈ sm.schedule.order) : ∃ levels n e a payload,
      Stages scheduled emitted placed patched n e a payload ∧ Holds p platform levels m sm b e := by
  obtain ⟨levels, data, code, rfl, hemits, -, -⟩ := h.exists_emits
  obtain ⟨start, hslots⟩ := hemits.exists_slots hsm
  obtain ⟨k, hk⟩ := List.mem_iff_getElem?.1 hb
  obtain ⟨e, he, hholds⟩ := hslots hk
  obtain ⟨a, payload, hs⟩ := h.exists_stages he
  exact ⟨levels, start + k, e, a, payload, hs, hholds⟩

/-- **Slots of one coldness that follow each other touch in memory.** -/
theorem adjacent_slots (h : p.Reached platform options scheduled emitted placed patched used)
    (hsched : p.scheduleAll = .ok scheduled) {m k b c : Nat} {sm : Scheduled} (hsm : scheduled[m]? = some sm)
    (hb : sm.schedule.order[k]? = some b) (hc : sm.schedule.order[k + 1]? = some c)
    (hcold : sm.schedule.isCold b = sm.schedule.isCold c) : ∃ n e e' a payload payload',
      Stages scheduled emitted placed patched n e a payload ∧ e.context = .block m b ∧
      Stages scheduled emitted placed patched (n + 1) e' (a + payload.length) payload' ∧ e'.context = .block m c := by
  obtain ⟨levels, data, code, rfl, hemits, -, htouching⟩ := h.exists_emits
  obtain ⟨start, hslots⟩ := hemits.exists_slots hsm
  obtain ⟨e, he, hholds⟩ := hslots hb
  obtain ⟨e', he', hholds'⟩ := hslots hc
  obtain ⟨a, payload, hs⟩ := h.exists_stages he
  obtain ⟨a', payload', hs'⟩ := h.exists_stages he'
  have hm : m < p.methods.length := (List.getElem?_eq_some_iff.1 (scheduled_getElem? hsched hsm).1).1
  obtain ⟨_, ha, ha'⟩ := htouching hm (start + k) _ _ hs.placed_eq hs'.placed_eq
    ((Region.isCodeOf_iff _ m e.cold).2 ⟨⟨b, hholds.context⟩, rfl⟩)
    ((Region.isCodeOf_iff _ m e.cold).2 ⟨⟨c, hholds'.context⟩, by
      rw [hholds.cold, hcold]
      exact hholds'.cold⟩)
  cases ha
  cases ha'
  refine ⟨start + k, e, e', a, payload, payload', hs, hholds.context, ?_, hholds'.context⟩
  rw [hs.length_eq]
  exact hs'

/-- **No other region holds the block of a slot.** -/
theorem slot_unique (h : p.Reached platform options scheduled emitted placed patched used)
    (hsched : p.scheduleAll = .ok scheduled) {n n' m b a a' : Nat} {e e' : Region} {payload payload' : Bytes}
    (hs : Stages scheduled emitted placed patched n e a payload)
    (hs' : Stages scheduled emitted placed patched n' e' a' payload') (hc : e.context = .block m b)
    (hc' : e'.context = .block m b) : n = n' ∧ e = e' ∧ a = a' ∧ payload = payload' := by
  obtain ⟨levels, data, code, rfl, hemits, -, -⟩ := h.exists_emits
  cases hemits.block_unique (nodup_order_scheduled hsched) hs.emitted_eq hs'.emitted_eq hc hc'
  exact ⟨rfl, hs.unique hs'⟩

/-! ## Looking addresses up -/

theorem ownerAddress?_eq (h : p.Reached platform options scheduled emitted placed patched used)
    (hsched : p.scheduleAll = .ok scheduled) {n m b a : Nat} {e : Region} {payload : Bytes}
    (hs : Stages scheduled emitted placed patched n e a payload) (hc : e.context = .block m b) :
    AddressBook.ownerAddress? ⟨scheduled, placed⟩ m b = some a ∧
      AddressBook.ownerAddress? ⟨scheduled, patched⟩ m b = some a := by
  have hfind : ∀ {regions : List Region}, (∃ r, regions[n]? = some r ∧ r.context = .block m b ∧ r.base = some a) →
      (∀ {k : Nat} {r : Region}, regions[k]? = some r → r.context = .block m b → k = n) →
      AddressBook.ownerAddress? ⟨scheduled, regions⟩ m b = some a := by
    rintro regions ⟨r, hr, hrc, hra⟩ hunique
    obtain ⟨q, hq, hmem, hqc⟩ :=
      exists_find? (p := (·.context == .block m b)) (List.mem_of_getElem? hr) (beq_iff_eq.2 hrc)
    obtain ⟨k, hk⟩ := List.mem_iff_getElem?.1 hmem
    cases hunique hk (beq_iff_eq.1 hqc)
    cases hk.symm.trans hr
    rw [AddressBook.ownerAddress?, hq]
    exact hra
  refine ⟨hfind ⟨_, hs.placed_eq, hc, rfl⟩ fun {k r} hr hrc => ?_, hfind ⟨_, hs.patched_eq, hc, rfl⟩ fun {k r} hr hrc => ?_⟩
  · obtain ⟨-, -, -, -, -, hplacing, -⟩ := h.exists_emits
    obtain ⟨e', base, he', rfl⟩ := getElem?_of_body hplacing.body hr
    obtain ⟨a', payload', hs'⟩ := h.exists_stages he'
    exact (h.slot_unique hsched hs' hs hrc hc).1
  · obtain ⟨e', a', payload', hs', rfl⟩ := h.stages_of_patched hr
    exact (h.slot_unique hsched hs' hs hrc hc).1

/-- **The address of a block that control reaches** is that of its slot's region. -/
theorem exists_address (h : p.Reached platform options scheduled emitted placed patched used)
    (hsched : p.scheduleAll = .ok scheduled) {m b : Nat} {sm : Scheduled} (hsm : scheduled[m]? = some sm)
    (hb : sm.method.outline.Reaches b) : ∃ levels n e a payload, Stages scheduled emitted placed patched n e a payload ∧
      Holds p platform levels m sm (sm.schedule.slotOwner b) e ∧
      AddressBook.blockAddress? ⟨scheduled, placed⟩ m b = some a ∧
      AddressBook.blockAddress? ⟨scheduled, patched⟩ m b = some a := by
  obtain ⟨g, hc⟩ := complete_scheduled hsched hsm
  obtain ⟨levels, n, e, a, payload, hs, hholds⟩ := h.exists_slot hsm (hc.slotOwner_mem hb)
  obtain ⟨ha, ha'⟩ := h.ownerAddress?_eq hsched hs hholds.context
  refine ⟨levels, n, e, a, payload, hs, hholds, ?_, ?_⟩
  · rw [AddressBook.blockAddress?, hsm]
    dsimp only
    rw [if_pos ((hc.scheduled b).2 hb), ha]
  · rw [AddressBook.blockAddress?, hsm]
    dsimp only
    rw [if_pos ((hc.scheduled b).2 hb), ha']

end Reached

/-! ## Addresses of an image -/

theorem collect_eq_ok {regions : List Region} {restarts : Nat}
    (h : collect platform options scheduled regions used restarts = .ok i) : ∃ sections spans,
      collectSections options.checkConsistency (sortRegions regions) = .ok sections ∧
      scheduled.zipIdx.mapM (fun (sm, m) => handlerSpans ⟨scheduled, regions⟩ m sm) = .ok spans ∧ i = {
        regions := sortRegions regions, sections
        relocations := Relocation.encode options.minZeroRun
          (((sortRegions regions).filter fun r => isRelocatable platform.memory r.address).map fun r =>
            ⟨r.address, r.payload⟩)
        handlerTables := (scheduled.zip spans).map fun (sm, s) => HandlerTable.of sm.method.isSubtype s
        codeMaps := (scheduled.zip spans).map fun (sm, s) => codeMapOf sm s
        schedules := scheduled.map (·.schedule)
        blockAddresses := scheduled.zipIdx.map fun (sm, m) => (List.range sm.method.blocks.length).map
          (AddressBook.blockAddress? ⟨scheduled, regions⟩ m)
        usedMemory := used.toMemory, restarts } := by
  simp only [collect, Outcome.bind_eq_ok, Outcome.mapError_eq_ok, Outcome.pure_eq_ok] at h
  obtain ⟨sections, hsections, spans, hspans, rfl⟩ := h
  exact ⟨sections, spans, hsections, hspans, rfl⟩

/-- An image answers the addresses that its regions have. -/
theorem blockAddress?_of_collect {regions : List Region} {restarts m b : Nat} {sm : Scheduled}
    (h : collect platform options scheduled regions used restarts = .ok i) (hsm : scheduled[m]? = some sm)
    (hb : b < sm.method.blocks.length) :
    i.blockAddress? m b = AddressBook.blockAddress? ⟨scheduled, regions⟩ m b := by
  obtain ⟨sections, spans, -, -, rfl⟩ := collect_eq_ok h
  rw [Image.blockAddress?]
  dsimp only
  rw [List.getElem?_map, List.getElem?_zipIdx, hsm]
  simp only [Option.map_some, Option.bind_some, Nat.zero_add, List.getElem?_map, List.getElem?_range hb,
    Option.join_some]

theorem mem_sortRegions {regions : List Region} {r : PlacedRegion} : r ∈ sortRegions regions ↔
    ∃ n q a, regions[n]? = some q ∧ q.base = some a ∧ r = ⟨n, q.context, a, q.size, q.cold, q.payload⟩ := by
  simp only [sortRegions, List.mem_mergeSort, List.mem_filterMap, Prod.exists, List.mem_zipIdx_iff_getElem?,
    Option.map_eq_some_iff]
  constructor
  · rintro ⟨q, n, hq, a, ha, rfl⟩
    exact ⟨n, q, a, hq, ha, rfl⟩
  · rintro ⟨n, q, a, hq, ha, rfl⟩
    exact ⟨q, n, hq, a, ha, rfl⟩

theorem Reached.mem_sorted (h : p.Reached platform options scheduled emitted placed patched used) {r : PlacedRegion} :
    r ∈ sortRegions patched ↔ ∃ n e a payload, Stages scheduled emitted placed patched n e a payload ∧
      r = ⟨n, e.context, a, payload.length, e.cold, payload⟩ := by
  rw [mem_sortRegions]
  constructor
  · rintro ⟨n, q, a, hq, ha, rfl⟩
    obtain ⟨e, a', payload, hs, rfl⟩ := h.stages_of_patched hq
    cases ha
    exact ⟨n, e, a, payload, hs, rfl⟩
  · rintro ⟨n, e, a, payload, hs, rfl⟩
    exact ⟨n, _, a, hs.patched_eq, rfl, rfl⟩

namespace Laid

theorem schedules_eq (h : p.Laid platform options scheduled emitted placed patched used i) :
    i.schedules = scheduled.map (·.schedule) := by
  obtain ⟨restarts, hcollect⟩ := h.collect_ok
  obtain ⟨sections, spans, -, -, rfl⟩ := collect_eq_ok hcollect
  rfl

theorem regions_eq (h : p.Laid platform options scheduled emitted placed patched used i) :
    i.regions = sortRegions patched := by
  obtain ⟨restarts, hcollect⟩ := h.collect_ok
  obtain ⟨sections, spans, -, -, rfl⟩ := collect_eq_ok hcollect
  rfl

theorem mem_regions (h : p.Laid platform options scheduled emitted placed patched used i) {r : PlacedRegion} :
    r ∈ i.regions ↔ ∃ n e a payload, Stages scheduled emitted placed patched n e a payload ∧
      r = ⟨n, e.context, a, payload.length, e.cold, payload⟩ := by
  rw [h.regions_eq, h.mem_sorted]

/-- **An image answers the address of every block that control reaches.** -/
theorem exists_blockAddress (h : p.Laid platform options scheduled emitted placed patched used i) {m b : Nat}
    {sm : Scheduled} (hsm : scheduled[m]? = some sm) (hb : sm.method.outline.Reaches b) :
    ∃ levels n e a payload, Stages scheduled emitted placed patched n e a payload ∧
      Holds p platform levels m sm (sm.schedule.slotOwner b) e ∧ i.blockAddress? m b = some a ∧
      AddressBook.blockAddress? ⟨scheduled, placed⟩ m b = some a := by
  obtain ⟨levels, n, e, a, payload, hs, hholds, ha, ha'⟩ := h.exists_address h.schedule_ok hsm hb
  refine ⟨levels, n, e, a, payload, hs, hholds, ?_, ha⟩
  obtain ⟨restarts, hcollect⟩ := h.collect_ok
  obtain ⟨-, g, hg, -⟩ := scheduled_getElem? h.schedule_ok hsm
  have hlt : b < sm.method.blocks.length := by
    have := (FlowGraph.closed_ofOutline hg).lt_of_reaches ((FlowGraph.reaches_ofOutline hg b).2 hb)
    rwa [FlowGraph.size_ofOutline hg, Outline.size, Method.outline, List.length_map] at this
  rw [blockAddress?_of_collect hcollect hsm hlt]
  exact ha'

theorem exists_ownAddress (h : p.Laid platform options scheduled emitted placed patched used i) {m b : Nat}
    {sm : Scheduled} (hsm : scheduled[m]? = some sm) (hb : b ∈ sm.schedule.order) :
    ∃ levels n e a payload, Stages scheduled emitted placed patched n e a payload ∧
      Holds p platform levels m sm b e ∧ i.blockAddress? m b = some a := by
  obtain ⟨g, hc⟩ := complete_scheduled h.schedule_ok hsm
  obtain ⟨hreach, halias⟩ := (hc.mem_order b).1 hb
  obtain ⟨levels, n, e, a, payload, hs, hholds, ha, -⟩ := h.exists_blockAddress hsm hreach
  rw [Schedule.slotOwner, halias] at hholds
  exact ⟨levels, n, e, a, payload, hs, hholds, ha⟩

/-- **References lead to where the image says blocks lie.** -/
theorem blockAddress?_of_resolve (h : p.Laid platform options scheduled emitted placed patched used i) {m t a : Nat}
    (ha : AddressBook.resolve ⟨scheduled, placed⟩ (.block m t) = .ok a) : i.blockAddress? m t = some a := by
  have ha' := AddressBook.blockAddress?_of_resolve ha
  have hlookup := ha'
  unfold AddressBook.blockAddress? at ha'
  split at ha'
  · rename_i sm hsm
    split at ha'
    · rename_i hscheduled
      obtain ⟨g, hc⟩ := complete_scheduled h.schedule_ok hsm
      obtain ⟨-, -, -, a', -, -, -, hi, hbook⟩ := h.exists_blockAddress hsm ((hc.scheduled t).1 hscheduled)
      cases hlookup.symm.trans hbook
      exact hi
    · cases ha'
  · cases ha'

/-- **Control that falls from the end of a slot arrives where the next block lies.** -/
theorem blockAddress?_of_adjacent (h : p.Laid platform options scheduled emitted placed patched used i) {m b t n a : Nat}
    {sm : Scheduled} {e : Region} {payload : Bytes} (hsm : scheduled[m]? = some sm) (hb : b ∈ sm.schedule.order)
    (ht : sm.method.outline.Reaches t) (hadj : sm.schedule.adjacent b t = true)
    (hs : Stages scheduled emitted placed patched n e a payload) (hc : e.context = .block m b) :
    i.blockAddress? m t = some (a + payload.length) := by
  obtain ⟨g, hcomplete⟩ := complete_scheduled h.schedule_ok hsm
  obtain ⟨k, hk, hk', hcold⟩ := hcomplete.adjacent_of_mem hb ht hadj
  obtain ⟨n₁, e₁, e₂, a₁, payload₁, payload₂, hs₁, hc₁, hs₂, hc₂⟩ := h.adjacent_slots h.schedule_ok hsm hk hk' hcold
  obtain ⟨rfl, rfl, rfl, rfl⟩ := h.slot_unique h.schedule_ok hs hs₁ hc hc₁
  obtain ⟨levels, n₃, e₃, a₃, payload₃, hs₃, hholds₃, ha₃, -⟩ := h.exists_blockAddress hsm ht
  obtain ⟨-, -, rfl, -⟩ := h.slot_unique h.schedule_ok hs₃ hs₂ hholds₃.context hc₂
  exact ha₃

end Laid

end Program

end CodeImage
