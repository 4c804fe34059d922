import Mathlib.Data.List.Pairwise
import CodeImage.Image.Check
import CodeImage.Proofs.Image.Addresses
/-!
# Order — the regions of an image one behind the other

Unless both have addresses of their own, two regions of an image share no address (`Reached.apart`).  Where no region
has one, the sorted regions follow each other (`Reached.inOrder_sorted`), and then the region that holds an address is
found by halving (`InOrder.regionAt?_eq_some`).
-/
namespace CodeImage

/-- **Regions that are not empty and follow each other**, within the words. -/
structure InOrder (regions : List PlacedRegion) : Prop where
  apart : regions.Pairwise fun a b => a.stop ≤ b.address
  size : ∀ r ∈ regions, r.size = r.payload.length
  filled : ∀ r ∈ regions, r.address < r.stop
  within : ∀ r ∈ regions, r.stop < wordLimit

namespace InOrder

theorem tail {r : PlacedRegion} {rest : List PlacedRegion} (h : InOrder (r :: rest)) : InOrder rest :=
  ⟨h.apart.tail, fun q hq => h.size q (List.mem_cons_of_mem r hq), fun q hq => h.filled q (List.mem_cons_of_mem r hq),
    fun q hq => h.within q (List.mem_cons_of_mem r hq)⟩

theorem wordStop_eq {regions : List PlacedRegion} (h : InOrder regions) {r : PlacedRegion} (hr : r ∈ regions) :
    r.wordStop = r.stop := Nat.mod_eq_of_lt (h.within r hr)

/-- **The region that holds an address is found.** -/
theorem regionAt?_eq_some {i : Image} (h : InOrder i.regions) {r : PlacedRegion} (hr : r ∈ i.regions) {x : Nat}
    (hle : r.address ≤ x) (hlt : x < r.stop) : i.regionAt? x = some r := by
  obtain ⟨front, back, hsplit⟩ := List.append_of_mem hr
  have hsplit' : i.regions = (front ++ [r]) ++ back := by rw [hsplit, List.append_assoc]; rfl
  have happart := h.apart
  rw [hsplit, List.pairwise_append, List.pairwise_cons] at happart
  obtain ⟨-, ⟨hback, -⟩, hfront⟩ := happart
  have hcount : partitionPoint (fun q : PlacedRegion => decide (q.address ≤ x)) ((front ++ [r]) ++ back) =
      (front ++ [r]).length := by
    refine partitionPoint_append _ _ _ (fun q hq => ?_) (fun q hq => ?_)
    · rw [decide_eq_true_eq]
      rcases List.mem_append.1 hq with hq | hq
      · have hqr := hfront q hq r List.mem_cons_self
        have hfilled := h.filled q (hsplit ▸ List.mem_append_left _ hq)
        omega
      · rw [List.mem_singleton.1 hq]
        exact hle
    · rw [decide_eq_false_iff_not]
      have := hback q hq
      omega
  rw [Image.regionAt?, hsplit', hcount, List.take_left, List.reverse_append, List.reverse_singleton,
    List.singleton_append, List.find?_cons_of_pos]
  rw [h.wordStop_eq hr]
  exact decide_eq_true hlt

end InOrder

namespace Program

variable {p : Program} {platform : Platform} {options : Options} {scheduled : List Scheduled}
  {emitted placed patched : List Region} {used : MemoryMap} {i : Image}

theorem pairwise_index_sortRegions (regions : List Region) :
    (sortRegions regions).Pairwise fun a b => a.index ≠ b.index := by
  refine ((List.mergeSort_perm _ _).pairwise_iff fun hab => Ne.symm hab).2 ?_
  have hlt : regions.zipIdx.Pairwise fun a b => a.2 < b.2 := by
    rw [← List.pairwise_map, List.zipIdx_map_snd]
    exact List.pairwise_lt_range'
  refine hlt.filterMap _ fun x y hxy a ha b hb => ?_
  obtain ⟨_, -, rfl⟩ := Option.map_eq_some_iff.1 ha
  obtain ⟨_, -, rfl⟩ := Option.map_eq_some_iff.1 hb
  exact Nat.ne_of_lt hxy

namespace Reached

/-- **Regions lie apart** unless the addresses of both are fixed. -/
theorem apart (h : p.Reached platform options scheduled emitted placed patched used) {n n' a a' : Nat} {e e' : Region}
    {payload payload' : Bytes} (hs : Stages scheduled emitted placed patched n e a payload)
    (hs' : Stages scheduled emitted placed patched n' e' a' payload') (hne : n ≠ n')
    (hfree : ¬(p.isFixed n = true ∧ p.isFixed n' = true)) :
    a + payload.length ≤ a' ∨ a' + payload'.length ≤ a := by
  obtain ⟨-, -, -, -, -, hplacing, -⟩ := h.exists_emits
  have happart := hplacing.housed.apart hs.placed_eq hs'.placed_eq hne hfree (max a a')
  have hpos := h.length_pos hs
  have hpos' := h.length_pos hs'
  rw [Region.occupies_at, Region.occupies_at, Region.size, Region.size, ← hs.length_eq, ← hs'.length_eq] at happart
  simp only [MemoryMap.Covers] at happart
  omega

/-- **Sorted regions follow each other** when no address is fixed. -/
theorem inOrder_sorted (h : p.Reached platform options scheduled emitted placed patched used)
    (hfree : ∀ n, p.isFixed n = false) : InOrder (sortRegions patched) := by
  refine ⟨?_, fun r hr => ?_, fun r hr => ?_, fun r hr => ?_⟩
  · refine List.Pairwise.imp_of_mem (fun {r s} hr hs hrs => ?_)
      ((MemoryMap.pairwise_mergeSort_spans PlacedRegion.address PlacedRegion.stop _).and (pairwise_index_sortRegions patched))
    obtain ⟨n, e, a, payload, hstages, rfl⟩ := h.mem_sorted.1 hr
    obtain ⟨n', e', a', payload', hstages', rfl⟩ := h.mem_sorted.1 hs
    have hpos := h.length_pos hstages'
    rcases h.apart hstages hstages' hrs.2 (by rw [hfree]; simp) with hle | hle
    · exact hle
    · exact absurd hrs.1 (by dsimp only; omega)
  · obtain ⟨n, e, a, payload, -, rfl⟩ := h.mem_sorted.1 hr
    rfl
  · obtain ⟨n, e, a, payload, hs, rfl⟩ := h.mem_sorted.1 hr
    exact Nat.lt_add_of_pos_right (h.length_pos hs)
  · obtain ⟨n, e, a, payload, hs, rfl⟩ := h.mem_sorted.1 hr
    exact h.stop_lt hs

end Reached

end Program

end CodeImage
