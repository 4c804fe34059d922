import CodeImage.Proofs.Image.Allotment
import CodeImage.Proofs.Image.Failures
/-!
# References — where a layout can find one that leads nowhere

References may lead to blocks that control reaches and to data (`Leads`), and all of these have an address once regions
are placed (`covers_place`).  So the layout of a program whose code keeps to them (`Wired`) finds a reference that leads
nowhere while it emits regions, or not at all (`emit_of_unresolved`).
-/
namespace CodeImage

def Fragment.target? : Fragment → Option Target
  | .absolute t _ | .relative t _ _ => some t
  | .bytes _ | .marker _ => none

theorem Fragment.target?_eq {f : Fragment} {n : Nat} {origin : Option (Nat × Nat)} {a : Annotation} {t : Target}
    (h : f.annotation? n origin = some a) (ht : a.kind.target? = some t) :
    f.target? = some t ∧ a.offset = n ∧ f.payload.length = 4 := by
  cases f with
  | bytes => cases h
  | absolute | relative =>
    cases h
    exact ⟨ht, rfl, length_leBytes 4 _⟩
  | marker =>
    cases h
    cases ht

namespace Program

variable {p : Program} {platform : Platform} {options : Options} {levels : Levels} {scheduled : List Scheduled}
  {data code placed patched : List Region} {used : MemoryMap}

/-- **What references may lead to**: blocks that control reaches, and pieces of data. -/
def Leads (p : Program) (scheduled : List Scheduled) : Target → Prop
  | .block m b => ∃ sm, scheduled[m]? = some sm ∧ sm.method.outline.Reaches b
  | .region n => n < p.data.length

/-- **Code that refers to what it may refer to only**, and whose handlers are blocks that control reaches. -/
structure Wired (p : Program) (scheduled : List Scheduled) : Prop where
  filler : ∀ m b cold, ∀ f ∈ p.filler m b cold, f.target? = none
  code : ∀ {levels : Levels} {m b offset : Nat} {sm : Scheduled} {insn : Instruction} {fragments : List Fragment}
    {f : Fragment} {t : Target}, scheduled[m]? = some sm → sm.method.outline.Reaches b → insn ∈ sm.method.insnsOf b →
    insn.encode (p.siteOf levels m sm.schedule b insn.index offset) = .ok fragments → f ∈ fragments →
    f.target? = some t → p.Leads scheduled t
  handlers : ∀ {m b : Nat} {sm : Scheduled} {c : Clause}, scheduled[m]? = some sm → sm.method.outline.Reaches b →
    c ∈ sm.method.clausesOf b → sm.method.outline.Reaches c.handler

/-- **Annotated words lie in their region** and lead to what references may lead to. -/
def Anchored (p : Program) (scheduled : List Scheduled) (r : Region) : Prop :=
  ∀ a ∈ r.annotations, ∀ t, a.kind.target? = some t → a.offset + 4 ≤ r.payload.length ∧ p.Leads scheduled t

/-- **Regions with an address for all that references may lead to.** -/
structure Covers (p : Program) (scheduled : List Scheduled) (regions : List Region) : Prop where
  base : ∀ r ∈ regions, ∃ a, r.base = some a
  slot : ∀ {m b : Nat} {sm : Scheduled}, scheduled[m]? = some sm → b ∈ sm.schedule.order →
    ∃ r ∈ regions, r.context = .block m b
  data : p.data.length ≤ regions.length

theorem Covers.exists_region (h : p.Covers scheduled placed) {m b : Nat} {sm : Scheduled}
    (hsm : scheduled[m]? = some sm) (hb : b ∈ sm.schedule.order) :
    ∃ r a, placed.find? (·.context == .block m b) = some r ∧ r.base = some a := by
  obtain ⟨q, hq, hcontext⟩ := h.slot hsm hb
  obtain ⟨r, hr, hmem, -⟩ := exists_find? (p := (·.context == .block m b)) hq (beq_iff_eq.2 hcontext)
  obtain ⟨a, ha⟩ := h.base r hmem
  exact ⟨r, a, hr, ha⟩

theorem leads_of_dataTarget? {name : String} {t : Target} (h : p.dataTarget? name = some t) : p.Leads scheduled t := by
  obtain ⟨n, item, hn, -, rfl⟩ := dataTarget?_eq_some h
  exact (List.getElem?_eq_some_iff.1 hn).1

section Scheduled

variable (hsched : p.scheduleAll = .ok scheduled)

include hsched

/-! ## Emission -/

theorem leads_of_methodTarget? {name : String} {t : Target} (h : p.methodTarget? name = some t) :
    p.Leads scheduled t := by
  obtain ⟨k, method, hk, -, rfl⟩ := methodTarget?_eq_some h
  obtain ⟨sm, hsm, rfl⟩ := exists_scheduled hsched hk
  exact ⟨sm, hsm, .refl⟩

theorem leads_of_target? {name : String} {t : Target} (h : p.target? name = some t) : p.Leads scheduled t := by
  rw [target?, Option.orElse_eq_orElse, Option.orElse_eq_or, Option.or_eq_some_iff] at h
  rcases h with h | ⟨-, h⟩
  · exact leads_of_methodTarget? hsched h
  · exact leads_of_dataTarget? h

/-- **A slot's region holds instructions of blocks that control reaches.** -/
theorem reaches_of_regionInsns {m b c : Nat} {sm : Scheduled} {insn : Instruction} (hsm : scheduled[m]? = some sm)
    (hb : b ∈ sm.schedule.order) (h : (c, insn) ∈ regionInsns sm b) :
    sm.method.outline.Reaches c ∧ insn ∈ sm.method.insnsOf c := by
  obtain ⟨hc, hinsn⟩ := mem_regionInsns.1 h
  obtain ⟨-, g, hg, hs⟩ := scheduled_getElem? hsched hsm
  obtain ⟨_, hcomplete⟩ := complete_scheduled hsched hsm
  have hreach := ((hcomplete.mem_order b).1 hb).1
  refine ⟨?_, hinsn⟩
  rcases hc with hc | rfl
  · -- a block has an index where the block whose slot it shares has one
    have hindex := Schedule.indexOf_alias hg hs ((Schedule.mem_aliasesOf_iff hg hs b c).1 hc)
    rw [← hcomplete.scheduled, Schedule.isScheduled] at hreach ⊢
    rw [hindex]
    exact hreach
  · exact hreach

/-- **Every instruction of a block that control reaches stands in the region of a slot.** -/
theorem exists_regionInsns {m c : Nat} {sm : Scheduled} {insn : Instruction} (hsm : scheduled[m]? = some sm)
    (hc : sm.method.outline.Reaches c) (h : insn ∈ sm.method.insnsOf c) :
    ∃ b ∈ sm.schedule.order, (c, insn) ∈ regionInsns sm b := by
  obtain ⟨-, g, hg, hs⟩ := scheduled_getElem? hsched hsm
  obtain ⟨_, hcomplete⟩ := complete_scheduled hsched hsm
  by_cases hmem : c ∈ sm.schedule.order
  · exact ⟨c, hmem, mem_regionInsns.2 ⟨.inr rfl, h⟩⟩
  · obtain ⟨b, hb, halias, -⟩ := hcomplete.shared c hc hmem
    refine ⟨b, hb, mem_regionInsns.2 ⟨.inl ?_, h⟩⟩
    exact (Schedule.mem_aliasesOf_iff hg hs b c).2 halias

theorem anchored_of_emits (hp : p.Wired scheduled) (h : Emits p platform levels scheduled data code) :
    ∀ r ∈ data ++ code, p.Anchored scheduled r := by
  intro r hr a ha t ht
  rcases List.mem_append.1 hr with hr | hr
  · obtain ⟨item, -, hok⟩ := Outcome.exists_mem_of_forall₂_right h.data_ok hr
    obtain ⟨ref, t', -, ht', hle, rfl⟩ := annotation_of_dataRegion hok ha
    cases ht
    rw [(dataRegion_eq_ok hok).2.2.2.2]
    exact ⟨hle, leads_of_target? hsched ht'⟩
  · obtain ⟨⟨m, sm, b⟩, hslot, hok⟩ := Outcome.exists_mem_of_forall₂_right h.code_ok hr
    obtain ⟨hsm, hb⟩ := mem_slots.1 hslot
    obtain ⟨origin, f, n, hf, hle, hsource⟩ := (blockRegion_eq_ok hok).exists_fragment ha
    obtain ⟨htarget, hoffset, hlength⟩ := Fragment.target?_eq hf ht
    refine ⟨by omega, ?_⟩
    rcases hsource with ⟨-, hfiller⟩ | ⟨c, insn, offset, fragments, hinsn, hencode, hmem, -⟩
    · rw [hp.filler _ _ _ f hfiller] at htarget
      cases htarget
    · obtain ⟨hc, hinsn⟩ := reaches_of_regionInsns hsched hsm hb hinsn
      exact hp.code hsm hc hinsn hencode hmem htarget

/-! ## Placement -/

/-- **Placed regions cover a program.** -/
theorem covers_place (h : Emits p platform levels scheduled data code)
    (hplace : p.place platform options (data ++ code) = .ok (placed, used)) : p.Covers scheduled placed := by
  obtain ⟨hplacing, hrows⟩ := placing_place h hplace
  refine ⟨fun r hr => ?_, fun {m b sm} hsm hb => ?_, ?_⟩
  · obtain ⟨n, hn⟩ := List.mem_iff_getElem?.1 hr
    obtain ⟨e, base, he, rfl⟩ := getElem?_of_body hplacing.body hn
    by_cases hlt : n < p.data.length
    · obtain ⟨item, hitem, hok⟩ := h.data_of_lt hlt he
      obtain ⟨r, hr, a, ha, -⟩ := asAsked_place hplace hitem he (dataRegion_eq_ok hok).1
      cases hn.symm.trans hr
      exact ⟨a, ha⟩
    · obtain ⟨m, sm, b, hsm, -, hholds⟩ := h.slot_of_le (Nat.le_of_not_lt hlt) he
      have hm := (List.getElem?_eq_some_iff.1 (scheduled_getElem? hsched hsm).1).1
      obtain ⟨start, hrow⟩ := @hrows m e.cold hm
      exact ⟨_, (hrow n _ hn ((Region.isCodeOf_iff _ m e.cold).2 ⟨⟨b, hholds.context⟩, rfl⟩)).1⟩
  · obtain ⟨start, hslots⟩ := h.exists_slots hsm
    obtain ⟨k, hk⟩ := List.mem_iff_getElem?.1 hb
    obtain ⟨e, he, hholds⟩ := hslots hk
    obtain ⟨r, base, hr, rfl⟩ := getElem?_of_body hplacing.body.symm he
    exact ⟨r, List.mem_of_getElem? hr, hholds.context⟩
  · have hlength : placed.length = (data ++ code).length := by simpa using congrArg List.length hplacing.body
    rw [hlength, List.length_append, ← h.data_ok.length_eq]
    exact Nat.le_add_right _ _

/-- **What references may lead to has an address.** -/
theorem Covers.exists_resolve (h : p.Covers scheduled placed) {t : Target} (ht : p.Leads scheduled t) :
    ∃ a, AddressBook.resolve ⟨scheduled, placed⟩ t = .ok a := by
  cases t with
  | block m b =>
    obtain ⟨sm, hsm, hb⟩ := ht
    obtain ⟨g, hcomplete⟩ := complete_scheduled hsched hsm
    obtain ⟨r, a, hr, ha⟩ := h.exists_region hsm (hcomplete.slotOwner_mem hb)
    refine ⟨a, ?_⟩
    simp only [AddressBook.resolve, AddressBook.blockAddress?, AddressBook.ownerAddress?, hsm,
      (hcomplete.scheduled b).2 hb, if_true, hr, Option.bind_some, ha]
  | region n =>
    have hn : n < placed.length := Nat.lt_of_lt_of_le ht h.data
    obtain ⟨a, ha⟩ := h.base placed[n] (List.getElem_mem hn)
    refine ⟨a + placed[n].pointerOffset, ?_⟩
    simp only [AddressBook.resolve, List.getElem?_eq_getElem hn, ha]

/-! ## Patching -/

theorem fixup_ne_unresolved (h : p.Covers scheduled placed) {r : Region} (hr : p.Anchored scheduled r)
    {a : Annotation} (ha : a ∈ r.annotations) {base : Nat} {what : Dangling} :
    fixup ⟨scheduled, placed⟩ r base a ≠ .error (.unresolved what) := by
  intro herror
  rcases fixup_error herror with ⟨t, ht, herror⟩ | ⟨t, bits, -, he⟩
  · obtain ⟨goal, hgoal⟩ := h.exists_resolve hsched (hr a ha t ht).2
    rw [hgoal] at herror
    cases herror
  · cases he

end Scheduled

theorem exists_patchRegion : ∀ {fixups : List Fixup} {r : Region},
    (∀ offset word, .patch offset word ∈ fixups → offset + 4 ≤ r.payload.length) → ∃ r', patchRegion r fixups = .ok r'
  | [], r, _ => ⟨r, rfl⟩
  | .raise _ _ :: fixups, r, h =>
    @exists_patchRegion fixups r fun offset word hmem => h offset word (List.mem_cons_of_mem _ hmem)
  | .patch offset word :: fixups, r, h => by
    have hle := h offset word List.mem_cons_self
    have hlength : (overwrite r.payload offset (leBytes 4 word)).length = r.payload.length :=
      length_overwrite r.payload offset _ (by rw [length_leBytes]; exact hle)
    obtain ⟨r', hr'⟩ := @exists_patchRegion fixups { r with payload := overwrite r.payload offset (leBytes 4 word) }
      fun offset word hmem => by
        rw [hlength]
        exact h offset word (List.mem_cons_of_mem _ hmem)
    refine ⟨r', ?_⟩
    rw [patchRegion, List.foldlM_cons]
    simp only [patched?, if_pos hle]
    exact hr'

theorem exists_patchRegion_of_fixupsOf {book : AddressBook} {r : Region} {fixups : List Fixup}
    (hr : p.Anchored scheduled r) (h : fixupsOf book r = .ok fixups) : ∃ r', patchRegion r fixups = .ok r' := by
  refine exists_patchRegion fun offset word hmem => ?_
  obtain ⟨base, a, ha, hok⟩ := exists_fixup_of_mem h hmem
  rcases fixup_eq_ok hok with ⟨_, -, heq⟩ | ⟨t, _, _, ht, -, heq, -⟩ | ⟨_, _, _, _, -, heq⟩
  · cases heq
  · cases heq
    exact (hr a ha t ht).1
  · cases heq

theorem patchAll_ne_unresolved (hsched : p.scheduleAll = .ok scheduled) (h : p.Covers scheduled placed)
    (hplaced : ∀ r ∈ placed, p.Anchored scheduled r) {what : Dangling} :
    patchAll scheduled placed ≠ .error (.image (.unresolved what)) := by
  intro herror
  rcases patchAll_error_cases herror with ⟨_, he⟩ | ⟨r, hr, base, a, ha, cause, herror, he⟩ |
    ⟨r, hr, fixups, cause, hfixups, herror, he⟩
  · cases he
  · cases he
    exact fixup_ne_unresolved hsched h (hplaced r hr) ha herror
  · obtain ⟨r', hr'⟩ := exists_patchRegion_of_fixupsOf (hplaced r hr) hfixups
    rw [hr'] at herror
    cases herror

/-! ## Collection -/

theorem Covers.of_patchAll (h : p.Covers scheduled placed) (hpatch : patchAll scheduled placed = .ok (patched, [])) :
    p.Covers scheduled patched := by
  have hall := patches_patchAll hpatch
  refine ⟨fun r hr => ?_, fun {m b sm} hsm hb => ?_, hall.length_eq ▸ h.data⟩
  · obtain ⟨q, hq, hpatches⟩ := Outcome.exists_mem_of_forall₂_right hall hr
    obtain ⟨payload, rfl, -⟩ := hpatches.eq_with_payload
    exact h.base q hq
  · obtain ⟨q, hq, hcontext⟩ := h.slot hsm hb
    obtain ⟨r, hr, hpatches⟩ := Outcome.exists_mem_of_forall₂ hall hq
    obtain ⟨payload, rfl, -⟩ := hpatches.eq_with_payload
    exact ⟨_, hr, hcontext⟩

theorem exists_handlerSpans (hsched : p.scheduleAll = .ok scheduled) (hp : p.Wired scheduled)
    (h : p.Covers scheduled patched) {m : Nat} {sm : Scheduled} (hsm : scheduled[m]? = some sm) :
    ∃ spans, handlerSpans ⟨scheduled, patched⟩ m sm = .ok spans := by
  refine Outcome.exists_mapM fun b hb => ?_
  obtain ⟨g, hcomplete⟩ := complete_scheduled hsched hsm
  have hreach := ((hcomplete.mem_order b).1 hb).1
  obtain ⟨r, a, hr, ha⟩ := h.exists_region hsm hb
  obtain ⟨handlers, hhandlers⟩ : ∃ handlers, ((sm.method.clausesOf b).mapM fun c => do
      let handler ← (AddressBook.resolve ⟨scheduled, patched⟩ (.block m c.handler)).mapError LayoutError.image
      return HandlerEntry.mk c.filter handler) = .ok handlers := by
    refine Outcome.exists_mapM fun c hc => ?_
    obtain ⟨goal, hgoal⟩ := h.exists_resolve hsched (t := .block m c.handler) ⟨sm, hsm, hp.handlers hsm hreach hc⟩
    rw [hgoal]
    exact ⟨_, rfl⟩
  refine ⟨⟨a, a + r.size, handlers⟩, ?_⟩
  rw [hr]
  simp only [Outcome.bind_eq_ok, Outcome.mapError_eq_ok, Outcome.pure_eq_ok]
  exact ⟨r, rfl, a, by rw [Region.address, ha], handlers, hhandlers, rfl⟩

theorem collect_ne_unresolved {restarts : Nat} {what : Dangling} (hsched : p.scheduleAll = .ok scheduled)
    (hp : p.Wired scheduled) (h : p.Covers scheduled patched) :
    collect platform options scheduled patched used restarts ≠ .error (.image (.unresolved what)) := by
  intro herror
  rcases Outcome.bind_eq_error herror with herror | ⟨sections, -, herror⟩
  · obtain ⟨e, herror, he⟩ := Outcome.mapError_eq_error.1 herror
    cases he
    obtain ⟨a, ha⟩ := collectSections_error herror
    cases ha
  · rcases Outcome.bind_eq_error herror with herror | ⟨spans, -, herror⟩
    · obtain ⟨⟨sm, m⟩, hmem, hfails⟩ := Outcome.mapM_eq_error herror
      obtain ⟨spans, hspans⟩ := exists_handlerSpans hsched hp h (List.mem_zipIdx_iff_getElem?.1 hmem)
      cases hspans.symm.trans hfails
    · cases herror

/-! ## Layout -/

theorem emit_of_round_unresolved {what : Dangling} (hsched : p.scheduleAll = .ok scheduled) (hp : p.Wired scheduled)
    (h : p.round platform options scheduled levels = .error (.image (.unresolved what))) :
    p.emit platform levels scheduled = .error (.unresolved what) := by
  rcases round_error_cases h with ⟨cause, hemit, he⟩ | ⟨_, he⟩ | ⟨emitted, placed, used, hemit, hplace, h⟩
  · cases he
    exact hemit
  · cases he
  · obtain ⟨data, code, rfl, hemits⟩ := emit_eq_ok hemit
    have hplaced : ∀ r ∈ placed, p.Anchored scheduled r := by
      intro r hr
      obtain ⟨n, hn⟩ := List.mem_iff_getElem?.1 hr
      obtain ⟨e, base, he, rfl⟩ := getElem?_of_body (placing_place hemits hplace).1.body hn
      exact anchored_of_emits hsched hp hemits e (List.mem_of_getElem? he)
    exact absurd h (patchAll_ne_unresolved hsched (covers_place hsched hemits hplace) hplaced)

/-- **A layout finds a reference that leads nowhere at emission only.** -/
theorem emit_of_unresolved {what : Dangling} (hsched : p.scheduleAll = .ok scheduled) (hp : p.Wired scheduled)
    (h : p.layout platform options = .error (.image (.unresolved what))) :
    ∃ levels, p.emit platform levels scheduled = .error (.unresolved what) := by
  have hend := p.ending_layout platform options hsched
  rw [h] at hend
  generalize hout : (Except.error (.image (.unresolved what)) : Except LayoutError Image) = out at hend
  cases hend with
  | reached restarts hr =>
    obtain ⟨levels, data, code, rfl, hemits, -, -⟩ := hr.exists_emits
    have hcovers := (covers_place hsched hemits hr.place_ok).of_patchAll hr.patch_ok
    exact absurd hout.symm (collect_ne_unresolved hsched hp hcovers)
  | failed hround =>
    cases hout
    exact ⟨_, emit_of_round_unresolved hsched hp hround⟩
  | exhausted what => cases hout
  | restartLimit n => cases hout

theorem layout_of_emit_error {e : ImageError} (hsched : p.scheduleAll = .ok scheduled)
    (h : p.emit platform Levels.empty scheduled = .error e) : p.layout platform options = .error (.image e) := by
  rw [p.layout_eq_rounds platform options hsched, rounds.eq_def]
  dsimp only
  rw [round, h]
  rfl

end Program

end CodeImage
