import CodeImage.Proofs.Image.Restarts
import CodeImage.Proofs.Listing.ControlFlow
import CodeImage.Proofs.Listing.Validity
/-!
# Convergence — layouts of listings need few restarts

The machine of listings holds distances in calls and jumps, and at level zero only.  So a layout raises each of them at
most once, and the number of calls and jumps bounds that of its restarts (`restarts_converge`).
-/
namespace CodeImage

/-- **Calls and jumps at level zero hold distances**, and nothing else does. -/
theorem Machine.level_of_encode {mc : Machine} {method : String} {i : Insn} {s : Site} {fragments : List Fragment}
    {t : Target} {bits word : Nat} (h : mc.encode method i s = .ok fragments)
    (hmem : .relative t bits word ∈ fragments) : s.level = 0 ∧ i.isLeap = true := by
  rcases mem_encode h hmem with ⟨_, hf⟩ | ⟨_, -, hrefers, hleap⟩
  · cases hf
  · exact ⟨(hrefers.resolve_left nofun).1, hleap.resolve_right nofun⟩

namespace Listing

/-- **The number of calls and jumps.** -/
def leapCount (l : Listing) : Nat := (l.methods.map fun m => m.insns.countP Insn.isLeap).sum

/-- The calls and jumps: method and number. -/
def leaps (l : Listing) : List (Nat × Nat) :=
  l.methods.zipIdx.flatMap fun (m, n) => (m.insns.zipIdx.filter (·.1.isLeap)).map fun (_, k) => (n, k)

theorem mem_leaps {l : Listing} {m k : Nat} {lm : ListedMethod} {i : Insn} (hm : l.methods[m]? = some lm)
    (hk : lm.insns[k]? = some i) (hi : i.isLeap = true) : (m, k) ∈ l.leaps := by
  refine List.mem_flatMap.2 ⟨(lm, m), List.mem_zipIdx_iff_getElem?.2 hm, List.mem_map.2 ⟨(i, k), ?_, rfl⟩⟩
  exact List.mem_filter.2 ⟨List.mem_zipIdx_iff_getElem?.2 hk, hi⟩

theorem length_leaps (l : Listing) : l.leaps.length = l.leapCount := by
  have hcount : ∀ (insns : List Insn) (n : Nat),
      ((insns.zipIdx n).filter (·.1.isLeap)).length = insns.countP Insn.isLeap := by
    intro insns n
    conv => rhs; rw [← List.zipIdx_map_fst n insns, List.countP_map]
    exact List.countP_eq_length_filter.symm
  have hall : ∀ (methods : List ListedMethod) (n : Nat), ((methods.zipIdx n).flatMap fun (m, n) =>
      (m.insns.zipIdx.filter (·.1.isLeap)).map fun (_, k) => (n, k)).length =
        (methods.map fun m => m.insns.countP Insn.isLeap).sum := by
    intro methods
    induction methods with
    | nil => intro n; rfl
    | cons m methods ih =>
      intro n
      rw [List.zipIdx_cons, List.flatMap_cons, List.length_append, ih, List.length_map, hcount, List.map_cons,
        List.sum_cons]
  exact hall l.methods 0

/-- **Each call or jump of a listing is raised at most once**, and no other instruction is. -/
theorem raisedOnce (l : Listing) (mc : Machine) {scheduled : List Scheduled}
    (hscheduled : (l.program mc).scheduleAll = .ok scheduled) : (l.program mc).RaisedOnce scheduled l.leaps := by
  refine ⟨Nat.one_pos, l.failsAtReferences mc, fun _ _ _ t bits word h => ?_, fun {levels m i} h => ?_⟩
  · simp [program, Machine.filler, Fragment.word] at h
  · obtain ⟨sm, b, insn, site, fragments, t, bits, word, hsm, hinsn, rfl, hlevel, hencode, hmem⟩ := h
    obtain ⟨lm, hlm, hmethod⟩ := exists_listed hscheduled hsm
    rw [← hmethod] at hinsn
    obtain ⟨block, -, i, hi, rfl⟩ := ListedMethod.exists_of_mem_insnsOf hinsn
    obtain ⟨hzero, hleap⟩ := Machine.level_of_encode hencode hmem
    exact ⟨hlevel.symm.trans hzero, mem_leaps hlm (ListedMethod.mem_insns_of_mem_insnsOf hi) hleap⟩

/-- **Restarts converge.**  A layout of a listing makes no more restarts than there are calls and jumps, never lacks an
encoding, and is stopped by the limit only if that is lower.  Whatever a program's instructions are, levels stay in
their bounds and never fall, and an image comes from a round in which every distance was in reach. -/
theorem restarts_converge :
    (∀ (l : Listing) (mc : Machine) (platform : Platform) (options : Options), ∃ history,
      (l.program mc).LayoutCourse platform options history ((l.program mc).layout platform options) ∧
        Program.Convergent options.maxRestarts l.leapCount history ((l.program mc).layout platform options)) ∧
    ∀ (p : Program) (platform : Platform) (options : Options), ∃ history,
      p.LayoutCourse platform options history (p.layout platform options) ∧
        p.Steady platform options history (p.layout platform options) := by
  refine ⟨fun l mc platform options => ?_, fun p platform options => ?_⟩
  · obtain ⟨history, hcourse⟩ := (l.program mc).course_layout platform options
    refine ⟨history, hcourse, ?_⟩
    rw [← length_leaps]
    exact hcourse.convergent (l.raisedOnce mc)
  · obtain ⟨history, hcourse⟩ := p.course_layout platform options
    exact ⟨history, hcourse, hcourse.steady⟩

end Listing

end CodeImage
