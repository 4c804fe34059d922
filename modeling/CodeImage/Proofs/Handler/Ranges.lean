import CodeImage.Handler.Table
import CodeImage.Proofs.Memory.Map
/-!
# Ranges — handler tables are sorted

Of spans that lie apart, a handler table makes ranges that are not empty and follow each other (`rangesFrom_of`), and
all its handlers are handlers of the spans (`exists_span_of_mem`).  Empty spans may lie anywhere.
-/
namespace CodeImage

/-- **Ranges that are not empty and follow each other** from an address on. -/
def RangesFrom : Nat → List HandlerRange → Prop
  | _, [] => True
  | bound, r :: rest => bound ≤ r.start ∧ r.start < r.stop ∧ RangesFrom r.stop rest

theorem rangesFrom_of_pairwise : ∀ {bound : Nat} {ranges : List HandlerRange}, (∀ r ∈ ranges, bound ≤ r.start) →
    (∀ r ∈ ranges, r.start < r.stop) → ranges.Pairwise (fun a b => a.stop ≤ b.start) → RangesFrom bound ranges
  | _, [], _, _, _ => trivial
  | bound, r :: rest, hbound, hfilled, hsorted => by
    obtain ⟨hr, hrest⟩ := List.pairwise_cons.1 hsorted
    exact ⟨hbound r List.mem_cons_self, hfilled r List.mem_cons_self,
      rangesFrom_of_pairwise hr (fun q hq => hfilled q (List.mem_cons_of_mem r hq)) hrest⟩

namespace HandlerTable

variable {isSubtype : Nat → Nat → Bool}

/-! ## Merging -/

theorem rangesFrom_go : ∀ {rest : List HandlerRange} {bound : Nat} {r : HandlerRange},
    RangesFrom bound (r :: rest) → RangesFrom bound (merge.go r rest)
  | [], _, _, h => h
  | q :: rest, bound, r, ⟨hbound, hfilled, hstop, hfilled', hrest⟩ => by
    rw [merge.go]
    split
    · exact rangesFrom_go ⟨hbound, by dsimp only; omega, hrest⟩
    · exact ⟨hbound, hfilled, rangesFrom_go ⟨hstop, hfilled', hrest⟩⟩

theorem rangesFrom_merge {bound : Nat} {ranges : List HandlerRange} (h : RangesFrom bound ranges) :
    RangesFrom bound (merge ranges) := by
  cases ranges with
  | nil => trivial
  | cons r rest => exact rangesFrom_go h

theorem handlers_go : ∀ {rest : List HandlerRange} {r q : HandlerRange}, q ∈ merge.go r rest →
    ∃ s ∈ r :: rest, q.handlers = s.handlers
  | [], r, q, h => ⟨q, h, rfl⟩
  | s :: rest, r, q, h => by
    rw [merge.go] at h
    split at h
    · obtain ⟨t, ht, heq⟩ := handlers_go h
      rcases List.mem_cons.1 ht with rfl | ht
      · exact ⟨r, List.mem_cons_self, heq⟩
      · exact ⟨t, List.mem_cons_of_mem r (List.mem_cons_of_mem s ht), heq⟩
    · rcases List.mem_cons.1 h with rfl | h
      · exact ⟨q, List.mem_cons_self, rfl⟩
      · obtain ⟨t, ht, heq⟩ := handlers_go h
        exact ⟨t, List.mem_cons_of_mem r ht, heq⟩

theorem handlers_merge {ranges : List HandlerRange} {q : HandlerRange} (h : q ∈ merge ranges) :
    ∃ s ∈ ranges, q.handlers = s.handlers := by
  cases ranges with
  | nil => cases h
  | cons r rest => exact handlers_go h

/-! ## Handlers that are kept -/

theorem mem_foldl_unshadowed : ∀ {handlers kept : List HandlerEntry} {e : HandlerEntry},
    e ∈ handlers.foldl (fun kept h => if kept.any (·.shadows isSubtype h) then kept else kept ++ [h]) kept →
    e ∈ kept ∨ e ∈ handlers
  | [], _, _, h => .inl h
  | x :: handlers, kept, e, h => by
    rw [List.foldl_cons] at h
    rcases mem_foldl_unshadowed h with h | h
    · split at h
      · exact .inl h
      · rcases List.mem_append.1 h with h | h
        · exact .inl h
        · exact .inr (List.mem_singleton.1 h ▸ List.mem_cons_self)
    · exact .inr (List.mem_cons_of_mem x h)

theorem mem_of_mem_unshadowed {handlers : List HandlerEntry} {e : HandlerEntry}
    (h : e ∈ unshadowed isSubtype handlers) : e ∈ handlers :=
  (mem_foldl_unshadowed h).resolve_left (nomatch ·)

/-! ## Tables -/

/-- **Spans that hold no address in common**, the empty ones apart. -/
def SpansApart (spans : List HandlerRange) : Prop :=
  spans.Pairwise fun a b => a.start < a.stop → b.start < b.stop → a.stop ≤ b.start ∨ b.stop ≤ a.start

/-- The ranges of a table before they are merged. -/
def useful (isSubtype : Nat → Nat → Bool) (spans : List HandlerRange) : List HandlerRange :=
  ((spans.mergeSort fun a b => a.start < b.start || (a.start == b.start && a.stop ≤ b.stop)).map
    fun s => { s with handlers := unshadowed isSubtype s.handlers }).filter
      fun s => !s.handlers.isEmpty && s.start < s.stop

theorem ranges_of (isSubtype : Nat → Nat → Bool) (spans : List HandlerRange) :
    (of isSubtype spans).ranges = merge (useful isSubtype spans) := rfl

theorem mem_useful {spans : List HandlerRange} {r : HandlerRange} : r ∈ useful isSubtype spans ↔ ∃ s ∈ spans,
    r = { s with handlers := unshadowed isSubtype s.handlers } ∧ r.handlers ≠ [] ∧ r.start < r.stop := by
  simp only [useful, List.mem_filter, List.mem_map, List.mem_mergeSort, Bool.and_eq_true, Bool.not_eq_true',
    List.isEmpty_eq_false_iff, decide_eq_true_eq]
  constructor
  · rintro ⟨⟨s, hs, rfl⟩, hr⟩
    exact ⟨s, hs, rfl, hr⟩
  · rintro ⟨s, hs, rfl, hr⟩
    exact ⟨⟨s, hs, rfl⟩, hr⟩

theorem rangesFrom_useful {spans : List HandlerRange} (h : SpansApart spans) :
    RangesFrom 0 (useful isSubtype spans) := by
  have hfilled : ∀ r ∈ useful isSubtype spans, r.start < r.stop := fun r hr => by
    obtain ⟨-, -, -, -, hlt⟩ := mem_useful.1 hr
    exact hlt
  refine rangesFrom_of_pairwise (fun _ _ => Nat.zero_le _) hfilled ?_
  have hsorted := MemoryMap.pairwise_mergeSort_spans HandlerRange.start HandlerRange.stop spans
  have happart := ((List.mergeSort_perm spans
    fun a b => a.start < b.start || (a.start == b.start && a.stop ≤ b.stop)).pairwise_iff
      fun hab hb ha => (hab ha hb).symm).2 h
  have hkept : ((spans.mergeSort fun a b => a.start < b.start || (a.start == b.start && a.stop ≤ b.stop)).map
      fun s => { s with handlers := unshadowed isSubtype s.handlers }).Pairwise fun a b => a.start ≤ b.start ∧
        (a.start < a.stop → b.start < b.stop → a.stop ≤ b.start ∨ b.stop ≤ a.start) :=
    List.pairwise_map.2 (hsorted.and happart)
  refine (hkept.filter _).imp_of_mem fun {a b} ha hb hab => ?_
  have hapart := hab.2 (hfilled a ha) (hfilled b hb)
  have hb := hfilled b hb
  omega

/-- **The table of spans that lie apart is sorted.** -/
theorem rangesFrom_of {spans : List HandlerRange} (h : SpansApart spans) :
    RangesFrom 0 (of isSubtype spans).ranges :=
  rangesFrom_merge (rangesFrom_useful h)

/-- **The handlers of a table are handlers of its spans.** -/
theorem exists_span_of_mem {spans : List HandlerRange} {r : HandlerRange} {e : HandlerEntry}
    (hr : r ∈ (of isSubtype spans).ranges) (he : e ∈ r.handlers) : ∃ s ∈ spans, e ∈ s.handlers := by
  obtain ⟨q, hq, hhandlers⟩ := handlers_merge hr
  obtain ⟨s, hs, rfl, -⟩ := mem_useful.1 hq
  rw [hhandlers] at he
  exact ⟨s, hs, mem_of_mem_unshadowed he⟩

end HandlerTable

end CodeImage
