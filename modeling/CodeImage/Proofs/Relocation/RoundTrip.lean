import CodeImage.Proofs.Relocation.Load
/-!
# RoundTrip — replayed records hold what the last piece holds

Where spans overlap, the last one counts (`lastAt?`).  Joining pieces keeps what counts at each address
(`lastAt?_joinPieces`), and so does replaying records (`lastAt?_reconstruct`).  Filling up spans to whole words changes
nothing that a span holds, for what it adds runs at most into spans that come later (`lastAt?_map_padded`).
-/
namespace CodeImage

/-- **The byte that counts at an address**: that of the last span which has one. -/
def lastAt? (spans : List Span) (x : Nat) : Option UInt8 := spans.reverse.findSome? (·.at? x)

theorem lastAt?_cons (s : Span) (spans : List Span) (x : Nat) :
    lastAt? (s :: spans) x = (lastAt? spans x).or (s.at? x) := by
  simp [lastAt?, List.findSome?_append]

theorem lastAt?_append (front back : List Span) (x : Nat) :
    lastAt? (front ++ back) x = (lastAt? back x).or (lastAt? front x) := by
  simp [lastAt?, List.findSome?_append]

theorem exists_lastAt? (spans : List Span) (x : Nat) : (∃ b, lastAt? spans x = some b) ↔ ∃ s ∈ spans, s.Covers x := by
  rw [← Option.isSome_iff_exists, lastAt?, List.findSome?_isSome_iff]
  simp only [List.mem_reverse, Span.covers_iff_at?, Option.isSome_iff_exists]

/-- Spans behind an address hold nothing there. -/
theorem lastAt?_of_lt {spans : List Span} {x : Nat} (h : ∀ s ∈ spans, x < s.address) :
    lastAt? (spans.map Span.padded) x = none := by
  refine Option.eq_none_iff_forall_ne_some.2 fun b hb => ?_
  obtain ⟨t, ht, hx⟩ := (exists_lastAt? _ x).1 ⟨b, hb⟩
  obtain ⟨s, hs, rfl⟩ := List.mem_map.1 ht
  have := h s hs
  rw [Span.covers_padded] at hx
  omega

/-- **Filling up spans that lie apart changes nothing that they hold.** -/
theorem lastAt?_map_padded {x : Nat} {b : UInt8} : ∀ {spans : List Span},
    spans.Pairwise (fun s t => s.stop < t.address) → lastAt? spans x = some b → lastAt? (spans.map Span.padded) x = some b
  | [], _, h => h
  | s :: spans, hapart, h => by
    obtain ⟨hs, hapart⟩ := List.pairwise_cons.1 hapart
    rw [lastAt?_cons, Option.or_eq_some_iff] at h
    rw [List.map_cons, lastAt?_cons, Option.or_eq_some_iff]
    rcases h with h | ⟨-, h⟩
    · exact .inl (lastAt?_map_padded hapart h)
    · -- the spans that follow start behind the address
      have hx := (s.covers_iff_at? x).2 ⟨b, h⟩
      exact .inr ⟨lastAt?_of_lt fun t ht => Nat.lt_trans hx.2 (hs t ht), Span.at?_padded h⟩

namespace Relocation

/-! ## Joining -/

theorem lastAt?_go (x : Nat) : ∀ {pieces : List Span} {s : Span}, Joinable (s :: pieces) →
    lastAt? (joinPieces.go s pieces) x = (lastAt? pieces x).or (s.at? x)
  | [], s, _ => lastAt?_cons s [] x
  | y :: pieces, s, h => by
    have hle := (List.pairwise_cons.1 h.sorted).1 y List.mem_cons_self
    rw [go_cons (h.within s List.mem_cons_self), lastAt?_cons y, Option.or_assoc]
    split
    · rename_i htouch
      rw [lastAt?_go x (h.overlay htouch), at?_overlay hle htouch]
    · rw [lastAt?_cons s, lastAt?_go x h.tail, Option.or_assoc]

/-- **Joining sorted pieces keeps what counts at each address.** -/
theorem lastAt?_joinPieces {pieces : List Span} (h : Joinable pieces) (x : Nat) :
    lastAt? (joinPieces pieces) x = lastAt? pieces x := by
  cases pieces with
  | nil => rfl
  | cons s pieces => rw [joinPieces, lastAt?_go x h, lastAt?_cons]

/-! ## Replaying -/

/-- **A record counts wherever it writes**, and the spans so far elsewhere. -/
theorem findSome?_replayOne {spans : List Span} (hspans : ∀ s ∈ spans, s.stop < wordLimit) (r : RelocationRecord)
    (x : Nat) : (replayOne spans r).findSome? (·.at? x) = (r.span.at? x).or (spans.findSome? (·.at? x)) := by
  unfold replayOne
  split
  · rename_i s rest
    split
    · rename_i hstop
      rw [beq_iff_eq, Span.wordStop_eq (hspans s List.mem_cons_self), Span.stop] at hstop
      rw [List.findSome?_cons, List.findSome?_cons, Span.at?_append, hstop, RelocationRecord.span]
      cases Span.at? ⟨r.address, r.bytes⟩ x <;> rfl
    · rw [List.findSome?_cons, RelocationRecord.span]
      cases Span.at? ⟨r.address, r.bytes⟩ x <;> rfl
  · rw [List.findSome?_cons, RelocationRecord.span]
    cases Span.at? ⟨r.address, r.bytes⟩ x <;> rfl

theorem findSome?_replay (x : Nat) : ∀ {records : List RelocationRecord} {spans : List Span},
    (∀ r ∈ records, r.span.stop < wordLimit) → (∀ s ∈ spans, s.stop < wordLimit) →
    (records.foldl replayOne spans).findSome? (·.at? x) =
      (lastAt? (records.map RelocationRecord.span) x).or (spans.findSome? (·.at? x))
  | [], _, _, _ => rfl
  | r :: records, spans, hrecords, hspans => by
    obtain ⟨hr, hrecords⟩ := List.forall_mem_cons.1 hrecords
    rw [List.foldl_cons, findSome?_replay x hrecords (stop_lt_of_replayOne hr hspans), findSome?_replayOne hspans,
      List.map_cons, lastAt?_cons, Option.or_assoc]

/-- **Replaying records keeps what counts at each address.** -/
theorem lastAt?_reconstruct {records : List RelocationRecord} (h : ∀ r ∈ records, r.span.stop < wordLimit) (x : Nat) :
    lastAt? (reconstruct records) x = lastAt? (records.map RelocationRecord.span) x := by
  rw [lastAt?, reconstruct, List.reverse_reverse, findSome?_replay x h (by simp), List.findSome?_nil, Option.or_none]

theorem lastAt?_consecutive {a : Nat} {records : List RelocationRecord} {bytes : Bytes} (h : Consecutive a records bytes)
    (x : Nat) : lastAt? (records.map RelocationRecord.span) x = Span.at? ⟨a, bytes⟩ x := by
  induction h with
  | nil a => simp [lastAt?, Span.at?]
  | cons _ ih => rw [List.map_cons, lastAt?_cons, ih, Span.at?_append, RelocationRecord.span]

theorem lastAt?_encode (minRun x : Nat) : ∀ {spans : List Span}, (∀ s ∈ spans, s.stop ≤ wordLimit) →
    lastAt? ((spans.flatMap (encodeSpan minRun)).map RelocationRecord.span) x = lastAt? (spans.map Span.padded) x
  | [], _ => rfl
  | s :: spans, h => by
    obtain ⟨hs, hspans⟩ := List.forall_mem_cons.1 h
    rw [List.flatMap_cons, List.map_append, lastAt?_append, lastAt?_encode minRun x hspans, List.map_cons, lastAt?_cons,
      lastAt?_consecutive (consecutive_encodeSpan minRun hs), Span.padded]

theorem four_dvd_add_padding (n : Nat) : 4 ∣ n + padding n := by
  unfold padding
  omega

/-! ## The round trip -/

/-- An address inside one of the spans. -/
def Covered (spans : List Span) (x : Nat) : Prop := ∃ s ∈ spans, s.Covers x

/-- **Filled up, spans that lie apart cover what they cover and the filling behind each maximal run.** -/
theorem covers_padded_iff_run {spans : List Span} (hapart : spans.Pairwise fun s t => s.stop < t.address)
    {P : Nat → Prop} (hP : ∀ x, P x ↔ Covered spans x) (x : Nat) : (∃ s ∈ spans, s.padded.Covers x) ↔
      P x ∨ ∃ lo hi, MaximalRun P lo hi ∧ hi ≤ x ∧ x < hi + padding (hi - lo) := by
  -- empty spans cover nothing and are filled up with nothing
  have hruns := maximalRun_iff (hapart.filter fun s => !s.bytes.isEmpty) (P := P)
    (fun s hs => by simpa using (List.mem_filter.1 hs).2) (fun x => by
      rw [hP, Covered]
      constructor
      · rintro ⟨s, hs, hx⟩
        refine ⟨s, List.mem_filter.2 ⟨hs, ?_⟩, hx⟩
        unfold Span.Covers Span.stop at hx
        simpa using List.length_pos_iff.1 (show 0 < s.bytes.length by omega)
      · rintro ⟨s, hs, hx⟩
        exact ⟨s, (List.mem_filter.1 hs).1, hx⟩)
  simp only [hruns, List.mem_filter]
  constructor
  · rintro ⟨s, hs, hx⟩
    rw [Span.covers_padded] at hx
    by_cases hstop : x < s.stop
    · exact .inl ((hP x).2 ⟨s, hs, hx.1, hstop⟩)
    · have hne : s.bytes ≠ [] := by
        intro hnil
        rw [hnil] at hx
        exact hstop hx.2
      exact .inr ⟨_, _, ⟨s, ⟨hs, by simpa using hne⟩, rfl, rfl⟩, by omega, by simpa [Span.stop] using hx.2⟩
  · rintro (hx | ⟨lo, hi, ⟨s, ⟨hs, -⟩, rfl, rfl⟩, hlo, hhi⟩)
    · obtain ⟨s, hs, hx⟩ := (hP x).1 hx
      exact ⟨s, hs, (s.covers_padded x).2 ⟨hx.1, Nat.lt_add_right _ hx.2⟩⟩
    · refine ⟨s, hs, (s.covers_padded x).2 ⟨?_, by simpa [Span.stop] using hhi⟩⟩
      exact Nat.le_trans (Nat.le_add_right ..) hlo

section

variable (minRun : Nat) {pieces : List Span} (hjoinable : Joinable pieces) (hends : ∀ y ∈ pieces, y.stop + 3 < wordLimit)

include hjoinable hends

theorem lastAt?_reconstruct_encode (x : Nat) :
    lastAt? (reconstruct (encode minRun pieces)) x = lastAt? ((joinPieces pieces).map Span.padded) x := by
  have hlimit := stop_lt_of_joinPieces hjoinable hends
  rw [encode, lastAt?_reconstruct (stop_lt_of_encodeSpan minRun hlimit), lastAt?_encode minRun x fun s hs => by
    have := hlimit s hs
    omega]

theorem covered_reconstruct (x : Nat) : Covered (reconstruct (encode minRun pieces)) x ↔ Covered pieces x ∨
    ∃ lo hi, MaximalRun (Covered pieces) lo hi ∧ hi ≤ x ∧ x < hi + padding (hi - lo) := by
  have hjoined := joined_joinPieces hjoinable
  rw [← covers_padded_iff_run (P := Covered pieces) hjoined.apart fun x => (hjoined.covers_iff x).symm]
  rw [Covered, ← exists_lastAt?, lastAt?_reconstruct_encode minRun hjoinable hends, exists_lastAt?]
  simp

end

theorem reconstruct_consecutive {a : Nat} {records : List RelocationRecord} {bytes : Bytes}
    (h : Consecutive a records bytes) (hlimit : a + bytes.length < wordLimit) (hne : bytes ≠ []) :
    reconstruct records = [⟨a, bytes⟩] := by
  cases h with
  | nil => exact absurd rfl hne
  | @cons r records more tail =>
    rw [List.length_append, ← Nat.add_assoc] at hlimit
    have hreplay : records.foldl replayOne [r.span] = [⟨r.address, r.bytes ++ more⟩] := replay_consecutive tail hlimit rfl
    rw [reconstruct, List.foldl_cons]
    exact congrArg List.reverse hreplay

/-- **Replayed records hold what the last piece holds** wherever there is one, and elsewhere only the filling behind a
maximal run of pieces.  No address that takes more than a word comes up. -/
theorem reconstruct_encode (minRun : Nat) (pieces : List Span)
    (hsorted : pieces.Pairwise fun a b => a.address ≤ b.address) (hends : ∀ y ∈ pieces, y.stop ≤ wordLimit - 4) :
    (∀ s ∈ reconstruct (encode minRun pieces), s.stop < wordLimit) ∧
    (∀ x, Covered pieces x → ∃ b, lastAt? pieces x = some b ∧ lastAt? (reconstruct (encode minRun pieces)) x = some b) ∧
    (∀ x, Covered (reconstruct (encode minRun pieces)) x ↔ Covered pieces x ∨ ∃ lo hi,
      MaximalRun (Covered pieces) lo hi ∧ hi ≤ x ∧ x < hi + padding (hi - lo) ∧ padding (hi - lo) ≤ 3) ∧
    ∀ base bytes, pieces = [⟨base, bytes⟩] → bytes ≠ [] → ∃ n ≤ 3, 4 ∣ bytes.length + n ∧
      reconstruct (encode minRun pieces) = [⟨base, bytes ++ List.replicate n 0⟩] := by
  have hlimit : ∀ y ∈ pieces, y.stop + 3 < wordLimit := by
    intro y hy
    have := hends y hy
    have : 4 ≤ wordLimit := by decide
    omega
  have hjoinable : Joinable pieces := ⟨hsorted, fun y hy => Nat.lt_of_add_right_lt (hlimit y hy)⟩
  refine ⟨stop_lt_of_reconstruct minRun (stop_lt_of_joinPieces hjoinable hlimit), fun x hx => ?_, fun x => ?_, ?_⟩
  · obtain ⟨b, hb⟩ := (exists_lastAt? pieces x).2 hx
    refine ⟨b, hb, ?_⟩
    rw [lastAt?_reconstruct_encode minRun hjoinable hlimit]
    exact lastAt?_map_padded (joined_joinPieces hjoinable).apart ((lastAt?_joinPieces hjoinable x).trans hb)
  · simpa only [padding_le, and_true] using covered_reconstruct minRun hjoinable hlimit x
  · rintro base bytes rfl hne
    have hstop : base + bytes.length + 3 < wordLimit := hlimit ⟨base, bytes⟩ List.mem_cons_self
    have hspan : Span.stop ⟨base, bytes⟩ ≤ wordLimit := Nat.le_of_lt (Nat.lt_of_add_right_lt hstop)
    have hpadding := padding_le bytes.length
    refine ⟨padding bytes.length, hpadding, four_dvd_add_padding _, ?_⟩
    have hrecords : encode minRun [⟨base, bytes⟩] = encodeSpan minRun ⟨base, bytes⟩ := List.append_nil _
    rw [hrecords]
    refine reconstruct_consecutive (consecutive_encodeSpan minRun hspan) ?_
      (List.append_ne_nil_of_left_ne_nil hne _)
    rw [List.length_append, List.length_replicate]
    omega

/-- The second piece replaces the middle of the first, the third is empty, the filling behind the first run overlaps the
fourth piece, and that behind the second run ends where the last piece starts. -/
def overlapping : List Span :=
  [⟨0, [1, 2, 3, 4, 5]⟩, ⟨1, [9, 0]⟩, ⟨5, []⟩, ⟨7, [6, 0, 0]⟩, ⟨11, [0, 0, 0, 0, 8]⟩]

theorem reconstruct_encode_overlapping : overlapping.Pairwise (fun a b => a.address ≤ b.address) ∧
    (∀ y ∈ overlapping, y.stop ≤ wordLimit - 4) ∧
    reconstruct (encode 1 overlapping) = [⟨0, [1, 9, 0, 4, 5, 0, 0, 0]⟩, ⟨7, [6, 0, 0, 0, 0, 0, 0, 0, 8, 0, 0, 0]⟩] ∧
    (∀ x, Covered overlapping x → ∃ b, lastAt? overlapping x = some b ∧
      lastAt? (reconstruct (encode 1 overlapping)) x = some b) ∧ lastAt? overlapping 7 = some 6 := by
  have hsorted : overlapping.Pairwise fun a b => a.address ≤ b.address := by decide
  have hends : ∀ y ∈ overlapping, y.stop ≤ wordLimit - 4 := by decide
  exact ⟨hsorted, hends, by decide +kernel, (reconstruct_encode 1 overlapping hsorted hends).2.1, by decide⟩

end Relocation

end CodeImage
