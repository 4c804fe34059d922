import CodeImage.Proofs.Relocation.Turns
/-!
# Replay — records write what they were cut from

The records of a span that ends within the words follow each other and write its bytes, filled up with zeros to whole
words (`consecutive_encodeSpan`).  Replayed together, the records of some spans write each of them
(`exists_has_reconstruct`), as long as the filling ends within the words too: then no end is counted from zero on.
-/
namespace CodeImage

/-! ## Words -/

theorem leBytes_word (a b c d : UInt8) :
    leBytes 4 (a.toNat + 256 * b.toNat + 65536 * c.toNat + 16777216 * d.toNat) = [a, b, c, d] := by
  have ha := a.toNat_lt
  have hb := b.toNat_lt
  have hc := c.toNat_lt
  have hd := d.toNat_lt
  simp only [leBytes, List.cons.injEq, and_true, ← UInt8.toNat_inj, UInt8.toNat_ofNat']
  omega

theorem toWords_cons (a b c d : UInt8) (rest : Bytes) : toWords (a :: b :: c :: d :: rest) =
    (a.toNat + 256 * b.toNat + 65536 * c.toNat + 16777216 * d.toNat) :: toWords rest := by
  have hcount : (rest.length + 1 + 1 + 1 + 1 + 3) / 4 = (rest.length + 3) / 4 + 1 := by omega
  simp only [toWords, List.size_toArray, List.length_cons, hcount, List.range_succ_eq_map, List.map_cons, List.map_map,
    List.getElem?_toArray]
  rfl

/-- How many bytes fill up `n` bytes to whole words. -/
def padding (n : Nat) : Nat := (4 - n % 4) % 4

theorem padding_le (n : Nat) : padding n ≤ 3 := by
  unfold padding
  omega

theorem flatMap_toWords : ∀ bytes : Bytes,
    (toWords bytes).flatMap (leBytes 4) = bytes ++ List.replicate (padding bytes.length) 0
  | [] => rfl
  | [a] => by simpa [toWords, List.range_succ, padding] using leBytes_word a 0 0 0
  | [a, b] => by simpa [toWords, List.range_succ, padding] using leBytes_word a b 0 0
  | [a, b, c] => by simpa [toWords, List.range_succ, padding] using leBytes_word a b c 0
  | a :: b :: c :: d :: rest => by
    have hpadding : padding (a :: b :: c :: d :: rest).length = padding rest.length := by
      simp only [padding, List.length_cons]
      omega
    rw [toWords_cons, List.flatMap_cons, leBytes_word, flatMap_toWords rest, hpadding]
    rfl

namespace Relocation

/-! ## Records that follow each other -/

/-- **Records that follow each other from an address on**, and the bytes that they write. -/
inductive Consecutive : Nat → List RelocationRecord → Bytes → Prop
  | nil (a : Nat) : Consecutive a [] []
  | cons {r : RelocationRecord} {rest : List RelocationRecord} {more : Bytes}
      (tail : Consecutive (r.address + r.bytes.length) rest more) : Consecutive r.address (r :: rest) (r.bytes ++ more)

theorem Consecutive.one (r : RelocationRecord) : Consecutive r.address [r] r.bytes := by
  simpa using Consecutive.cons (.nil (r.address + r.bytes.length))

theorem Consecutive.append {a : Nat} {front back : List RelocationRecord} {bytes more : Bytes}
    (h : Consecutive a front bytes) (hback : Consecutive (a + bytes.length) back more) :
    Consecutive a (front ++ back) (bytes ++ more) := by
  induction h with
  | nil => exact hback
  | cons tail ih =>
    rw [List.append_assoc]
    refine .cons (ih ?_)
    rwa [List.length_append, ← Nat.add_assoc] at hback

theorem length_flatMap_leBytes (words : List Nat) : (words.flatMap (leBytes 4)).length = 4 * words.length := by
  induction words with
  | nil => rfl
  | cons w words ih => rw [List.flatMap_cons, List.length_append, ih, length_leBytes, List.length_cons]; omega

theorem flatMap_zeros (n : Nat) : (List.replicate n 0).flatMap (leBytes 4) = List.replicate (4 * n) 0 := by
  induction n with
  | zero => rfl
  | succ n ih => rw [List.replicate_succ, List.flatMap_cons, ih, Nat.mul_succ, Nat.add_comm, List.replicate_add]; rfl

/-- Where the last word starts within the words, so does each. -/
theorem consecutive_recordsOf {address : Nat} {data : List Nat} {zeros : Nat}
    (h : address + 4 * (data.length + zeros) < wordLimit + 4) :
    Consecutive address (recordsOf address data zeros) ((data ++ List.replicate zeros 0).flatMap (leBytes 4)) := by
  rw [List.flatMap_append, recordsOf]
  refine Consecutive.append ?_ ?_
  · cases data with
    | nil => exact .nil address
    | cons w data =>
      rw [List.length_cons] at h
      rw [Nat.mod_eq_of_lt (by omega)]
      exact .one (.copy address (w :: data))
  · rw [length_flatMap_leBytes, flatMap_zeros]
    split
    · rename_i hzeros
      rw [hzeros]
      exact .nil _
    · rw [Nat.mod_eq_of_lt (by omega)]
      exact .one (.clear (address + 4 * data.length) zeros)

/-- **Cutting words into records loses none of them.** -/
theorem kept_consecutive (minRun : Nat) : Kept minRun fun a waiting ahead records =>
    a + 4 * (waiting ++ ahead).length < wordLimit + 4 →
      Consecutive a records ((waiting ++ ahead).flatMap (leBytes 4)) := by
  refine ⟨fun a _ => .nil a, fun a waiting ahead solid zeros after records hrun _ _ h hlimit => ?_,
    fun a waiting ahead solid zeros after records hrun _ h hlimit => ?_⟩
  · rw [hrun.split] at hlimit ⊢
    simpa only [List.append_assoc] using h (by simpa only [List.append_assoc] using hlimit)
  · have hsplit : waiting ++ ahead = waiting ++ solid ++ List.replicate zeros 0 ++ after := by
      rw [hrun.split]
      simp only [List.append_assoc]
    rw [hsplit] at hlimit ⊢
    simp only [List.length_append, List.length_replicate] at hlimit
    rw [List.flatMap_append]
    refine (consecutive_recordsOf (by rw [List.length_append]; omega)).append ?_
    rw [length_flatMap_leBytes, List.append_assoc]
    refine h ?_
    simp only [List.length_append, List.length_replicate, List.length_nil]
    omega

/-- **The records of a span that ends within the words.** -/
theorem consecutive_encodeSpan (minRun : Nat) {s : Span} (h : s.stop ≤ wordLimit) :
    Consecutive s.address (encodeSpan minRun s) (s.bytes ++ List.replicate (padding s.bytes.length) 0) := by
  have hlength := congrArg List.length (flatMap_toWords s.bytes)
  rw [length_flatMap_leBytes, List.length_append, List.length_replicate] at hlength
  have hpadding := padding_le s.bytes.length
  rw [← flatMap_toWords]
  refine ((kept_consecutive minRun).encodeSpan s).2 ?_
  unfold Span.stop at h
  rw [List.nil_append]
  omega

end Relocation

/-! ## Replaying -/

theorem Span.wordStop_eq {s : Span} (h : s.stop < wordLimit) : s.wordStop = s.stop := Nat.mod_eq_of_lt h

def RelocationRecord.span (r : RelocationRecord) : Span := ⟨r.address, r.bytes⟩

/-- **A span has the bytes of another** at their addresses. -/
def Span.Has (w s : Span) : Prop :=
  ∃ front back, w.bytes = front ++ s.bytes ++ back ∧ s.address = w.address + front.length

theorem Span.Has.extend {w s : Span} (h : w.Has s) (more : Bytes) : Span.Has ⟨w.address, w.bytes ++ more⟩ s := by
  obtain ⟨front, back, hbytes, haddress⟩ := h
  exact ⟨front, back ++ more, by rw [hbytes, List.append_assoc _ back], haddress⟩

namespace Relocation

/-- **Records that follow a span extend it.** -/
theorem replay_consecutive {a : Nat} {records : List RelocationRecord} {bytes : Bytes}
    (h : Consecutive a records bytes) (hlimit : a + bytes.length < wordLimit) :
    ∀ {s : Span} {rest : List Span}, s.stop = a →
      records.foldl replayOne (s :: rest) = ⟨s.address, s.bytes ++ bytes⟩ :: rest := by
  induction h with
  | nil a =>
    intro s rest _
    rw [List.append_nil]
    rfl
  | @cons r records more tail ih =>
    intro s rest hstop
    rw [List.length_append] at hlimit
    have hfirst : replayOne (s :: rest) r = ⟨s.address, s.bytes ++ r.bytes⟩ :: rest :=
      if_pos (beq_iff_eq.2 ((Span.wordStop_eq (by omega)).trans hstop))
    rw [List.foldl_cons, hfirst, ih (by omega), List.append_assoc]
    rw [Span.stop, List.length_append, ← hstop, Span.stop]
    dsimp only
    omega

/-- **A record stands at the end of the last span.** -/
theorem exists_replayOne {spans : List Span} (hspans : ∀ s ∈ spans, s.stop < wordLimit) (r : RelocationRecord) :
    ∃ a front rest, replayOne spans r = ⟨a, front ++ r.bytes⟩ :: rest ∧ r.address = a + front.length ∧
      ∀ s ∈ rest, s.stop < wordLimit := by
  unfold replayOne
  split
  · rename_i s rest
    obtain ⟨hs, hrest⟩ := List.forall_mem_cons.1 hspans
    split
    · rename_i hstop
      rw [beq_iff_eq, Span.wordStop_eq hs] at hstop
      exact ⟨s.address, s.bytes, rest, rfl, hstop.symm, hrest⟩
    · exact ⟨r.address, [], s :: rest, rfl, rfl, hspans⟩
  · exact ⟨r.address, [], [], rfl, rfl, by simp⟩

/-! ## Where replayed spans end -/

theorem stop_lt_of_replayOne {r : RelocationRecord} {spans : List Span} (hr : r.span.stop < wordLimit)
    (hspans : ∀ s ∈ spans, s.stop < wordLimit) : ∀ s ∈ replayOne spans r, s.stop < wordLimit := by
  obtain ⟨a, front, rest, hreplay, haddress, hrest⟩ := exists_replayOne hspans r
  rw [hreplay]
  refine List.forall_mem_cons.2 ⟨?_, hrest⟩
  simp only [Span.stop, RelocationRecord.span, List.length_append] at hr ⊢
  omega

theorem stop_lt_of_replay : ∀ {records : List RelocationRecord} {spans : List Span},
    (∀ r ∈ records, r.span.stop < wordLimit) → (∀ s ∈ spans, s.stop < wordLimit) →
    ∀ s ∈ records.foldl replayOne spans, s.stop < wordLimit
  | [], _, _, hspans => hspans
  | _ :: _, _, hrecords, hspans => by
    obtain ⟨hr, hrecords⟩ := List.forall_mem_cons.1 hrecords
    rw [List.foldl_cons]
    exact stop_lt_of_replay hrecords (stop_lt_of_replayOne hr hspans)

theorem Consecutive.stop_le {a : Nat} {records : List RelocationRecord} {bytes : Bytes} (h : Consecutive a records bytes) :
    ∀ r ∈ records, r.span.stop ≤ a + bytes.length := by
  induction h with
  | nil => exact fun r hr => absurd hr List.not_mem_nil
  | @cons r records more _ ih =>
    refine List.forall_mem_cons.2 ⟨?_, fun q hq => ?_⟩
    · simp only [Span.stop, RelocationRecord.span, List.length_append]
      omega
    · have := ih q hq
      rw [List.length_append]
      omega

/-- **Records of spans whose filling ends within the words** do so too. -/
theorem stop_lt_of_encodeSpan (minRun : Nat) {spans : List Span} (h : ∀ s ∈ spans, s.stop + 3 < wordLimit) :
    ∀ r ∈ spans.flatMap (encodeSpan minRun), r.span.stop < wordLimit := by
  intro r hr
  obtain ⟨s, hs, hr⟩ := List.mem_flatMap.1 hr
  have hlimit := h s hs
  have hend := (consecutive_encodeSpan minRun (by omega)).stop_le r hr
  have := padding_le s.bytes.length
  rw [List.length_append, List.length_replicate] at hend
  unfold Span.stop at hlimit
  omega

/-- Then all spans that are replayed end within the words. -/
theorem stop_lt_of_reconstruct (minRun : Nat) {pieces : List Span} (h : ∀ s ∈ joinPieces pieces, s.stop + 3 < wordLimit) :
    ∀ s ∈ reconstruct (encode minRun pieces), s.stop < wordLimit := by
  intro s hs
  rw [reconstruct, List.mem_reverse] at hs
  exact stop_lt_of_replay (stop_lt_of_encodeSpan minRun h) (fun t ht => absurd ht List.not_mem_nil) s hs

end Relocation

end CodeImage
