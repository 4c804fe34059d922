import CodeImage.Proofs.Image.References
import CodeImage.Proofs.Listing.ControlFlow
import CodeImage.Proofs.Listing.Validity
/-!
# Dangling — what valid listings refer to in vain

The names of methods and of data are checked as one, so a valid listing may call a piece of data.  Nothing else in it
can lead nowhere: its layout ends at such a reference exactly when code that control reaches calls something that is
data (`dangles_only_at_calls_of_data`).
-/
namespace CodeImage

/-! ## Names -/

theorem Machine.names_of_encode {mc : Machine} {method : String} {i : Insn} {s : Site} {fragments : List Fragment}
    {f : Fragment} {t : Target} (h : mc.encode method i s = .ok fragments) (hf : f ∈ fragments)
    (ht : f.target? = some t) : i.Names s t := by
  rcases mem_encode h hf with ⟨_, rfl⟩ | ⟨t', hnames, hrefers, -⟩
  · cases ht
  · rcases hrefers with rfl | ⟨-, _, _, rfl⟩
    · cases ht
      exact hnames
    · cases ht
      exact hnames

theorem find?_named_eq_none {α : Type} {nameOf : α → String} {l : List α} {name : String} :
    l.zipIdx.reverse.find? (fun x => nameOf x.1 == name) = none ↔ ∀ a ∈ l, nameOf a ≠ name := by
  rw [List.find?_eq_none]
  constructor
  · intro h a ha hname
    obtain ⟨k, hk⟩ := List.mem_iff_getElem?.1 ha
    exact h (a, k) (List.mem_reverse.2 (List.mem_zipIdx_iff_getElem?.2 hk)) (beq_iff_eq.2 hname)
  · rintro h ⟨a, k⟩ ha
    have ha := List.mem_of_getElem? (List.mem_zipIdx_iff_getElem?.1 (List.mem_reverse.1 ha))
    simpa using h a ha

namespace Program

variable {p : Program} {name : String}

theorem methodTarget?_eq_none : p.methodTarget? name = none ↔ ∀ m ∈ p.methods, m.name ≠ name := by
  rw [methodTarget?, Option.map_eq_none_iff, find?_named_eq_none]

theorem dataTarget?_eq_none : p.dataTarget? name = none ↔ ∀ item ∈ p.data, item.name ≠ name := by
  rw [dataTarget?, Option.map_eq_none_iff, find?_named_eq_none]

end Program

namespace Listing

variable {l : Listing} {mc : Machine} {platform : Platform} {options : Options} {scheduled : List Scheduled}

/-- **Every name in a valid listing is that of a method or of a piece of data.** -/
theorem known_of_insn (h : l.fault? = none) {lm : ListedMethod} (hlm : lm ∈ l.methods) {i : Insn} (hi : i ∈ lm.insns)
    {name : String} (hname : i.reference? = some name) : name ∈ l.names := by
  have hfind := (fault?_eq_none.1 h).2.2.1 lm hlm
  rw [unknownIn?, Option.map_eq_none_iff, List.find?_eq_none] at hfind
  simpa using hfind name (List.mem_filterMap.2 ⟨i, hi, hname⟩)

theorem known_of_ref (h : l.fault? = none) {item : DataItem} (hitem : item ∈ l.data) {ref : DataRef}
    (href : ref ∈ item.refs) : ref.target ∈ l.names ∧ ref.offset + 4 ≤ item.payload.length := by
  have hfind := List.findSome?_eq_none_iff.1 ((fault?_eq_none.1 h).2.2.2 item hitem) ref href
  split at hfind
  · cases hfind
  · split at hfind
    · cases hfind
    · rename_i hknown hlength
      exact ⟨by simpa using hknown, by omega⟩

/-- A name that no method has is that of a piece of data. -/
theorem exists_data_of_mem_names {name : String} (h : name ∈ l.names) (hnone : (l.program mc).methodTarget? name = none) :
    ∃ item ∈ l.data, item.name = name := by
  rcases List.mem_append.1 h with h | h
  · obtain ⟨lm, hlm, rfl⟩ := List.mem_map.1 h
    exact absurd rfl (Program.methodTarget?_eq_none.1 hnone _ (List.mem_map_of_mem hlm))
  · exact List.mem_map.1 h

/-! ## Valid listings -/

/-- **A call in code that control reaches names a piece of data**, and no method has that name. -/
structure CallsData (l : Listing) (mc : Machine) (callee : String) : Prop where
  call : ∃ lm ∈ l.methods, ∃ b block k returns, (lm.method mc).outline.Reaches b ∧ lm.blocks[b]? = some block ∧
    (.call callee returns, k) ∈ lm.insnsOf block
  method : ∀ lm ∈ l.methods, lm.name ≠ callee
  data : ∃ item ∈ l.data, item.name = callee

theorem wired (hvalid : l.fault? = none) (hsched : (l.program mc).scheduleAll = .ok scheduled) :
    (l.program mc).Wired scheduled := by
  refine ⟨fun _ _ _ f hf => ?_, fun {levels m b offset sm insn fragments f t} hsm hb hinsn hencode hf ht => ?_,
    fun {m b sm c} hsm hb hc => ?_⟩
  · rw [List.mem_singleton.1 hf]
    rfl
  · obtain ⟨lm, hlm, hmethod⟩ := exists_listed hsched hsm
    have hw := wellFormed_of_mem hvalid (List.mem_of_getElem? hlm)
    rw [← hmethod] at hb hinsn
    obtain ⟨block, hblock, i, hi, rfl⟩ := ListedMethod.exists_of_mem_insnsOf hinsn
    rcases Machine.names_of_encode hencode hf ht with ⟨name, -, hname⟩ | ⟨label, hlabel, t', ht', rfl⟩
    · rcases hname with hname | hname
      · exact Program.leads_of_methodTarget? hsched hname
      · exact Program.leads_of_dataTarget? hname
    · exact ⟨sm, hsm, hmethod ▸ hb.tail (hw.steps_target mc hblock hi hlabel ht')⟩
  · obtain ⟨lm, hlm, hmethod⟩ := exists_listed hsched hsm
    rw [← hmethod] at hb hc ⊢
    exact hb.tail (ListedMethod.steps_handler mc hc)

theorem dataRegion_ne_error (hvalid : l.fault? = none) {item : DataItem} (hitem : item ∈ l.data) {e : ImageError} :
    (l.program mc).dataRegion platform item ≠ .error e := by
  intro h
  rcases Outcome.bind_eq_error h with h | ⟨_, -, h⟩
  · obtain ⟨ref, href, h⟩ := Outcome.mapM_eq_error h
    obtain ⟨hname, hlength⟩ := known_of_ref hvalid hitem href
    rw [if_neg (Nat.not_lt.2 hlength)] at h
    split at h
    · cases h
    · rename_i hnone
      rw [Program.target?, Option.orElse_eq_orElse, Option.orElse_eq_or, Option.or_eq_none_iff] at hnone
      obtain ⟨item', hitem', hname'⟩ := exists_data_of_mem_names hname hnone.1
      exact Program.dataTarget?_eq_none.1 hnone.2 item' hitem' hname'
  · cases h

/-- **Emission of a valid listing fails at calls of data only.** -/
theorem callsData_of_emit_error (hvalid : l.fault? = none) (hsched : (l.program mc).scheduleAll = .ok scheduled)
    {levels : Levels} {e : ImageError} (h : (l.program mc).emit platform levels scheduled = .error e) :
    ∃ callee, e = .unresolved (.method callee) ∧ l.CallsData mc callee := by
  rcases Program.emit_error_cases h with ⟨item, hitem, h⟩ | ⟨m, sm, b, c, insn, offset, hsm, hb, hinsn, h⟩
  · exact absurd h (dataRegion_ne_error hvalid hitem)
  · obtain ⟨hc, hinsn⟩ := Program.reaches_of_regionInsns hsched hsm hb hinsn
    obtain ⟨lm, hlm, hmethod⟩ := exists_listed hsched hsm
    have hlm := List.mem_of_getElem? hlm
    rw [← hmethod] at hc hinsn
    obtain ⟨block, hblock, ⟨i, k⟩, hi, rfl⟩ := ListedMethod.exists_of_mem_insnsOf hinsn
    have hmem : i ∈ lm.insns := List.mem_of_getElem? (ListedMethod.mem_insns_of_mem_insnsOf hi)
    rcases Machine.encode_error h with ⟨callee, returns, rfl, hnone, rfl⟩ | ⟨target, rfl, hnone, hdata, -⟩ |
      ⟨label, hlabel, hnone, -⟩
    · refine ⟨callee, rfl, ⟨lm, hlm, c, block, k, returns, hc, hblock, hi⟩, fun lm' hlm' => ?_, ?_⟩
      · exact Program.methodTarget?_eq_none.1 hnone _ (List.mem_map_of_mem hlm')
      · exact exists_data_of_mem_names (known_of_insn hvalid hlm hmem rfl) hnone
    · obtain ⟨item, hitem, hname⟩ := exists_data_of_mem_names (known_of_insn hvalid hlm hmem rfl) hnone
      exact absurd hname (Program.dataTarget?_eq_none.1 hdata item hitem)
    · obtain ⟨t, ht, -⟩ := (wellFormed_of_mem hvalid hlm).targets block (List.mem_of_getElem? hblock) (i, k) hi label hlabel
      rw [hnone] at ht
      cases ht

theorem not_callsData_of_emit (hsched : (l.program mc).scheduleAll = .ok scheduled) {levels : Levels}
    {emitted : List Region} (h : (l.program mc).emit platform levels scheduled = .ok emitted) {callee : String} :
    ¬l.CallsData mc callee := by
  rintro ⟨⟨lm, hlm, c, block, k, returns, hc, hblock, hcall⟩, hnone, -⟩
  obtain ⟨m, hm⟩ := List.mem_iff_getElem?.1 hlm
  obtain ⟨sm, hsm, hmethod⟩ := exists_scheduledMethod hsched hm
  have hinsn : ListedMethod.instruction mc lm.name (.call callee returns, k) ∈ sm.method.insnsOf c := by
    rw [hmethod, ListedMethod.insnsOf_method mc hblock]
    exact List.mem_map_of_mem hcall
  obtain ⟨b, hb, hregion⟩ := Program.exists_regionInsns hsched hsm (hmethod ▸ hc) hinsn
  obtain ⟨data, code, -, hemits⟩ := Program.emit_eq_ok h
  obtain ⟨r, -, hok⟩ := Outcome.exists_mem_of_forall₂ hemits.code_ok (Program.mem_slots.2 ⟨hsm, hb⟩)
  obtain ⟨encoded, hencoded, -⟩ := (Program.blockRegion_eq_ok hok).bytes
  obtain ⟨offset, fragments, hencode⟩ := Program.encode_of_encodeInsns hencoded hregion
  obtain ⟨t, ht, -⟩ := Outcome.bind_eq_ok.1 hencode
  obtain ⟨n, method, hn, hname, -⟩ := Program.methodTarget?_eq_some (methodTarget_eq_ok ht)
  obtain ⟨lm', hlm', rfl⟩ := List.mem_map.1 (List.mem_of_getElem? hn)
  exact hnone lm' hlm' hname

/-- **Layouts of valid listings dangle at calls of data only.**  A reference that leads nowhere ends the layout of a
valid listing exactly when code that control reaches calls something that is data, and it is one of these calls. -/
theorem dangles_only_at_calls_of_data (l : Listing) (mc : Machine) (platform : Platform) (options : Options)
    (hvalid : l.fault? = none) :
    (∀ what, (l.program mc).layout platform options = .error (.image (.unresolved what)) →
      ∃ callee, what = .method callee ∧ l.CallsData mc callee) ∧
    ((∃ callee, l.CallsData mc callee) → ∃ callee, l.CallsData mc callee ∧
      (l.program mc).layout platform options = .error (.image (.unresolved (.method callee)))) := by
  obtain ⟨scheduled, hsched⟩ := exists_scheduleAll hvalid mc
  constructor
  · intro what h
    obtain ⟨levels, hemit⟩ := Program.emit_of_unresolved hsched (wired hvalid hsched) h
    obtain ⟨callee, he, hcallee⟩ := callsData_of_emit_error hvalid hsched hemit
    cases he
    exact ⟨callee, rfl, hcallee⟩
  · rintro ⟨callee, hcallee⟩
    cases hemit : (l.program mc).emit platform Levels.empty scheduled with
    | ok emitted => exact absurd hcallee (not_callsData_of_emit hsched hemit)
    | error e =>
      obtain ⟨callee', rfl, hcallee'⟩ := callsData_of_emit_error hvalid hsched hemit
      exact ⟨callee', hcallee', Program.layout_of_emit_error hsched hemit⟩

/-- **A method that calls a piece of data.** -/
def misled : ListedMethod := (ListedMethod.empty "f" "a").addBlock "a" [.call "d" true, .ret]

def misledListing : Listing := ⟨"f", [misled.complete.1], [.ofWords "d" [1] []]⟩

theorem dangles_only_at_calls_of_data_misled : misledListing.fault? = none ∧ misled.complete.2 = none ∧
    (misledListing.program .default).layout Board.default.platform .default =
      .error (.image (.unresolved (.method "d"))) := by
  have hvalid : misledListing.fault? = none := by decide +kernel
  refine ⟨hvalid, by decide +kernel, ?_⟩
  have hcall : misledListing.CallsData .default "d" :=
    ⟨⟨_, List.mem_cons_self, 0, _, 0, true, .refl, rfl, List.mem_cons_self⟩, by decide +kernel,
      _, List.mem_cons_self, rfl⟩
  obtain ⟨callee, ⟨-, -, item, hitem, rfl⟩, h⟩ :=
    (dangles_only_at_calls_of_data misledListing .default Board.default.platform .default hvalid).2 ⟨"d", hcall⟩
  cases List.mem_singleton.1 hitem
  exact h

end Listing

end CodeImage
