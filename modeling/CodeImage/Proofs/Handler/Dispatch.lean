import Mathlib.Data.List.Pairwise
import CodeImage.Proofs.Handler.Ranges
import CodeImage.Proofs.Handler.Types
/-!
# Dispatch — handler tables keep where exceptions go

A table drops handlers, sorts and merges its spans and is searched by halves.  None of this changes where an exception
goes: dropped handlers would never have been the first to take a type (`find?_unshadowed`), merging keeps the handlers
of every address (`guards_merge`), and halving finds the one range that holds an address (`find?_of_mem`).  So an
exception goes to the first handler of its span that takes it (`dispatch_preserved`).
-/
namespace CodeImage

/-- The range holds an address. -/
def HandlerRange.Holds (r : HandlerRange) (pc : Nat) : Prop := r.start ≤ pc ∧ pc < r.stop

instance (r : HandlerRange) (pc : Nat) : Decidable (r.Holds pc) := inferInstanceAs (Decidable (_ ∧ _))

/-- **A handler takes a type**: it takes every type, or one that the type derives from. -/
def TypeHierarchy.Catches (h : TypeHierarchy) (e : HandlerEntry) (ty : Nat) : Prop :=
  e.filter = none ∨ ∃ f, e.filter = some f ∧ h.Derives ty f

/-- **The first of some handlers that takes a type** lies at an address. -/
def TypeHierarchy.FirstCatch (h : TypeHierarchy) (handlers : List HandlerEntry) (ty a : Nat) : Prop :=
  ∃ front e back, handlers = front ++ e :: back ∧ (∀ x ∈ front, ¬h.Catches x ty) ∧ h.Catches e ty ∧ e.handler = a

theorem TypeHierarchy.takes_iff {h : TypeHierarchy} {e : HandlerEntry} {ty : Nat} :
    e.takes h.isSubtype ty = true ↔ h.Catches e ty := by
  unfold HandlerEntry.takes Catches
  cases e.filter with
  | none => simp
  | some f => simp [isSubtype_iff]

theorem TypeHierarchy.firstCatch_iff {h : TypeHierarchy} {handlers : List HandlerEntry} {ty a : Nat} :
    (handlers.find? (·.takes h.isSubtype ty)).map (·.handler) = some a ↔ h.FirstCatch handlers ty a := by
  simp only [Option.map_eq_some_iff, List.find?_eq_some_iff_append, takes_iff, Bool.not_eq_true',
    ← Bool.not_eq_true, FirstCatch]
  constructor
  · rintro ⟨e, ⟨he, front, back, rfl, hfront⟩, rfl⟩
    exact ⟨front, e, back, rfl, hfront, he, rfl⟩
  · rintro ⟨front, e, back, rfl, hfront, he, rfl⟩
    exact ⟨e, ⟨he, front, back, rfl, hfront⟩, rfl⟩

namespace HandlerTable

variable {isSubtype : Nat → Nat → Bool} {pc ty : Nat}

/-! ## Handlers that are dropped -/

/-- What a handler takes is taken by those that leave nothing to it. -/
theorem takes_of_shadows (htrans : ∀ a b c, isSubtype a b = true → isSubtype b c = true → isSubtype a c = true)
    {e h : HandlerEntry} (hshadows : e.shadows isSubtype h = true) (htakes : h.takes isSubtype ty = true) :
    e.takes isSubtype ty = true := by
  unfold HandlerEntry.shadows at hshadows
  unfold HandlerEntry.takes at htakes ⊢
  cases he : e.filter with
  | none => rfl
  | some f =>
    cases hh : h.filter with
    | none => rw [he, hh] at hshadows; cases hshadows
    | some g =>
      rw [he, hh] at hshadows
      rw [hh] at htakes
      exact htrans ty g f htakes hshadows

/-- **Dropping handlers that nothing is left to** keeps the first that takes a type. -/
theorem find?_unshadowed (htrans : ∀ a b c, isSubtype a b = true → isSubtype b c = true → isSubtype a c = true)
    (handlers : List HandlerEntry) :
    (unshadowed isSubtype handlers).find? (·.takes isSubtype ty) = handlers.find? (·.takes isSubtype ty) := by
  suffices hfold : ∀ (handlers kept : List HandlerEntry),
      (handlers.foldl (fun kept h => if kept.any (·.shadows isSubtype h) then kept else kept ++ [h]) kept).find?
        (·.takes isSubtype ty) = (kept ++ handlers).find? (·.takes isSubtype ty) from hfold handlers []
  intro handlers
  induction handlers with
  | nil => simp
  | cons h handlers ih =>
    intro kept
    rw [List.foldl_cons, ih]
    split
    · rename_i hany
      obtain ⟨e, he, hshadows⟩ := List.any_eq_true.1 hany
      simp only [List.find?_append, List.find?_cons]
      -- where `h` would be the first to take the type, `e` takes it before
      cases htakes : h.takes isSubtype ty with
      | false => rfl
      | true =>
        have hsome : (kept.find? (·.takes isSubtype ty)).isSome = true :=
          List.find?_isSome.2 ⟨e, he, takes_of_shadows htrans hshadows htakes⟩
        obtain ⟨x, hx⟩ := Option.isSome_iff_exists.1 hsome
        simp [hx]
    · rw [List.append_assoc]
      rfl

/-! ## Ranges that are merged -/

/-- **What ranges say of an address**: the handlers of a range that holds it. -/
def Guards (ranges : List HandlerRange) (pc : Nat) (handlers : List HandlerEntry) : Prop :=
  ∃ r ∈ ranges, r.Holds pc ∧ r.handlers = handlers

theorem guards_cons {r : HandlerRange} {ranges : List HandlerRange} {handlers : List HandlerEntry} :
    Guards (r :: ranges) pc handlers ↔ (r.Holds pc ∧ r.handlers = handlers) ∨ Guards ranges pc handlers := by
  simp only [Guards, List.mem_cons, or_and_right, exists_or, exists_eq_left]

theorem guards_go {handlers : List HandlerEntry} : ∀ {rest : List HandlerRange} {bound : Nat} {r : HandlerRange},
    RangesFrom bound (r :: rest) → (Guards (merge.go r rest) pc handlers ↔ Guards (r :: rest) pc handlers)
  | [], _, _, _ => Iff.rfl
  | q :: rest, bound, r, ⟨hbound, hfilled, hstop, hfilled', hrest⟩ => by
    rw [merge.go]
    split
    · rename_i hjoin
      rw [Bool.and_eq_true, beq_iff_eq, beq_iff_eq] at hjoin
      -- the joined range holds what the two held
      have hholds : HandlerRange.Holds { r with stop := q.stop } pc ↔ r.Holds pc ∨ q.Holds pc := by
        simp only [HandlerRange.Holds]
        omega
      have hjoined : RangesFrom bound ({ r with stop := q.stop } :: rest) := ⟨hbound, by dsimp only; omega, hrest⟩
      rw [guards_go hjoined, guards_cons, guards_cons, guards_cons, hholds, hjoin.2, or_and_right, or_assoc]
    · rw [guards_cons, guards_cons, guards_go ⟨hstop, hfilled', hrest⟩]

/-- **Merging keeps the handlers of every address.** -/
theorem guards_merge {ranges : List HandlerRange} {bound : Nat} {handlers : List HandlerEntry}
    (h : RangesFrom bound ranges) : Guards (merge ranges) pc handlers ↔ Guards ranges pc handlers := by
  cases ranges with
  | nil => exact Iff.rfl
  | cons r rest => exact guards_go h

/-- The first of merged ranges starts where the first did and has its handlers. -/
theorem head_go : ∀ (rest : List HandlerRange) (r : HandlerRange),
    ∃ q more, merge.go r rest = q :: more ∧ q.start = r.start ∧ q.handlers = r.handlers
  | [], r => ⟨r, [], rfl, rfl, rfl⟩
  | s :: rest, r => by
    rw [merge.go]
    split
    · exact head_go rest { r with stop := s.stop }
    · exact ⟨r, _, rfl, rfl, rfl⟩

/-- Ranges of which no neighbours could be merged. -/
def Merged (ranges : List HandlerRange) : Prop :=
  ranges.IsChain fun a b => ¬(a.stop = b.start ∧ a.handlers = b.handlers)

theorem merged_go : ∀ (rest : List HandlerRange) (r : HandlerRange), Merged (merge.go r rest)
  | [], r => .singleton r
  | q :: rest, r => by
    rw [merge.go]
    split
    · exact merged_go rest _
    · rename_i hkeep
      obtain ⟨s, more, hs, hstart, hhandlers⟩ := head_go rest q
      have hmore := merged_go rest q
      rw [hs] at hmore ⊢
      refine List.isChain_cons_cons.2 ⟨fun htouch => hkeep ?_, hmore⟩
      rw [hstart, hhandlers] at htouch
      simpa using htouch

theorem merged_merge (ranges : List HandlerRange) : Merged (merge ranges) := by
  cases ranges with
  | nil => exact .nil
  | cons r rest => exact merged_go rest r

theorem le_start_of_mem : ∀ {ranges : List HandlerRange} {bound : Nat}, RangesFrom bound ranges →
    ∀ r ∈ ranges, bound ≤ r.start ∧ r.start < r.stop
  | [], _, _ => nofun
  | q :: rest, bound, ⟨hbound, hfilled, hrest⟩ => by
    refine List.forall_mem_cons.2 ⟨⟨hbound, hfilled⟩, fun r hr => ?_⟩
    have := le_start_of_mem hrest r hr
    omega

/-- **Merged ranges that touch differ in their handlers**; only neighbours can touch. -/
theorem pairwise_of_merged : ∀ {ranges : List HandlerRange} {bound : Nat}, RangesFrom bound ranges → Merged ranges →
    ranges.Pairwise fun a b => a.stop ≤ b.start ∧ (a.stop = b.start → a.handlers ≠ b.handlers)
  | [], _, _, _ => .nil
  | [r], _, _, _ => List.pairwise_singleton _ r
  | r :: q :: rest, bound, ⟨_, _, hrest⟩, hmerged => by
    obtain ⟨hrq, hmerged⟩ := List.isChain_cons_cons.1 hmerged
    refine List.pairwise_cons.2 ⟨List.forall_mem_cons.2 ⟨⟨hrest.1, fun htouch heq => hrq ⟨htouch, heq⟩⟩, fun s hs => ?_⟩,
      pairwise_of_merged hrest hmerged⟩
    have hqs := le_start_of_mem hrest.2.2 s hs
    have hq := hrest.2.1
    have hr := hrest.1
    exact ⟨by omega, fun htouch => by omega⟩

/-! ## Looking up -/

/-- The ranges in front of an address, and behind them at most one that holds it. -/
theorem exists_split (pc : Nat) : ∀ {ranges : List HandlerRange} {bound : Nat}, RangesFrom bound ranges →
    ∃ front back, ranges = front ++ back ∧ (∀ r ∈ front, r.stop ≤ pc) ∧ (∀ r ∈ back, pc < r.stop) ∧
      ∀ r ∈ back.tail, pc < r.start
  | [], _, _ => ⟨[], [], rfl, nofun, nofun, nofun⟩
  | q :: rest, bound, ⟨_, _, hrest⟩ => by
    by_cases hq : q.stop ≤ pc
    · obtain ⟨front, back, rfl, hfront, hback, htail⟩ := exists_split pc hrest
      exact ⟨q :: front, back, rfl, List.forall_mem_cons.2 ⟨hq, hfront⟩, hback, htail⟩
    · have hbehind := le_start_of_mem hrest
      refine ⟨[], q :: rest, rfl, nofun, List.forall_mem_cons.2 ⟨by omega, fun r hr => ?_⟩, fun r hr => ?_⟩
      · have := hbehind r hr
        omega
      · have := hbehind r hr
        omega

theorem find?_of_split {front back : List HandlerRange} (hfront : ∀ r ∈ front, r.stop ≤ pc)
    (hback : ∀ r ∈ back, pc < r.stop) : find? isSubtype ⟨front ++ back⟩ pc ty = back.head?.bind fun r =>
      if pc < r.start then none else (r.handlers.find? (·.takes isSubtype ty)).map (·.handler) := by
  have hpoint : partitionPoint (fun r : HandlerRange => decide (r.stop ≤ pc)) (front ++ back) = front.length :=
    partitionPoint_append _ _ _ (fun r hr => decide_eq_true (hfront r hr))
      (fun r hr => decide_eq_false (Nat.not_le.2 (hback r hr)))
  rw [find?]
  dsimp only
  rw [hpoint, List.getElem?_append_right (Nat.le_refl _), Nat.sub_self, ← List.head?_eq_getElem?]
  cases back.head? <;> rfl

/-- **Halving finds the range that holds an address.** -/
theorem find?_of_mem {ranges : List HandlerRange} {bound : Nat} (h : RangesFrom bound ranges) {r : HandlerRange}
    (hr : r ∈ ranges) (hpc : r.Holds pc) :
    find? isSubtype ⟨ranges⟩ pc ty = (r.handlers.find? (·.takes isSubtype ty)).map (·.handler) := by
  obtain ⟨front, back, rfl, hfront, hback, htail⟩ := exists_split pc h
  rw [find?_of_split hfront hback]
  unfold HandlerRange.Holds at hpc
  rcases List.mem_append.1 hr with hr | hr
  · have := hfront r hr
    omega
  · cases back with
    | nil => cases hr
    | cons q rest =>
      rcases List.mem_cons.1 hr with rfl | hr
      · rw [List.head?_cons, Option.bind_some, if_neg (Nat.not_lt.2 hpc.1)]
      · have := htail r hr
        omega

theorem find?_of_gap {ranges : List HandlerRange} {bound : Nat} (h : RangesFrom bound ranges)
    (hgap : ∀ r ∈ ranges, ¬r.Holds pc) : find? isSubtype ⟨ranges⟩ pc ty = none := by
  obtain ⟨front, back, rfl, hfront, hback, -⟩ := exists_split pc h
  rw [find?_of_split hfront hback]
  cases back with
  | nil => rfl
  | cons q rest =>
    have hq := hgap q (List.mem_append_right front List.mem_cons_self)
    have hstop := hback q List.mem_cons_self
    unfold HandlerRange.Holds at hq
    rw [List.head?_cons, Option.bind_some, if_pos (by omega)]

/-! ## Tables of spans -/

section Spans

variable {spans : List HandlerRange} (hapart : SpansApart spans)

include hapart

/-- Two spans that hold an address are one. -/
theorem SpansApart.eq_of_holds {s t : HandlerRange} (hs : s ∈ spans) (ht : t ∈ spans) (hspc : s.Holds pc)
    (htpc : t.Holds pc) : s = t := by
  by_contra hne
  have : Std.Symm fun a b : HandlerRange => a.start < a.stop → b.start < b.stop → a.stop ≤ b.start ∨ b.stop ≤ a.start :=
    ⟨fun a b hab hb ha => (hab ha hb).symm⟩
  have hdisjoint := List.Pairwise.forall hapart hs ht hne
  unfold HandlerRange.Holds at hspc htpc
  omega

theorem guards_of {handlers : List HandlerEntry} : Guards (of isSubtype spans).ranges pc handlers ↔
    ∃ s ∈ spans, s.Holds pc ∧ unshadowed isSubtype s.handlers = handlers ∧ handlers ≠ [] := by
  rw [ranges_of, guards_merge (rangesFrom_useful hapart)]
  constructor
  · rintro ⟨r, hr, hpc, rfl⟩
    obtain ⟨s, hs, rfl, hne, -⟩ := mem_useful.1 hr
    exact ⟨s, hs, hpc, rfl, hne⟩
  · rintro ⟨s, hs, hpc, rfl, hne⟩
    exact ⟨_, mem_useful.2 ⟨s, hs, rfl, hne, Nat.lt_of_le_of_lt hpc.1 hpc.2⟩, hpc, rfl⟩

/-- **An exception goes to the first handler of its span that takes it.** -/
theorem find?_of_span (htrans : ∀ a b c, isSubtype a b = true → isSubtype b c = true → isSubtype a c = true)
    {s : HandlerRange} (hs : s ∈ spans) (hpc : s.Holds pc) :
    (of isSubtype spans).find? isSubtype pc ty = (s.handlers.find? (·.takes isSubtype ty)).map (·.handler) := by
  rw [← find?_unshadowed htrans]
  by_cases hnil : unshadowed isSubtype s.handlers = []
  · -- the span left no range
    rw [hnil]
    refine find?_of_gap (rangesFrom_of hapart) fun r hr hrpc => ?_
    obtain ⟨t, ht, htpc, hhandlers, hne⟩ := (guards_of hapart).1 ⟨r, hr, hrpc, rfl⟩
    cases hapart.eq_of_holds hs ht hpc htpc
    exact hne (hhandlers.symm.trans hnil)
  · obtain ⟨r, hr, hrpc, hhandlers⟩ := (guards_of hapart).2 ⟨s, hs, hpc, rfl, hnil⟩
    rw [← hhandlers]
    exact find?_of_mem (rangesFrom_of hapart) hr hrpc

theorem find?_of_no_span (hgap : ∀ s ∈ spans, ¬s.Holds pc) : (of isSubtype spans).find? isSubtype pc ty = none := by
  refine find?_of_gap (rangesFrom_of hapart) fun r hr hrpc => ?_
  obtain ⟨s, hs, hspc, -⟩ := (guards_of hapart).1 ⟨r, hr, hrpc, rfl⟩
  exact hgap s hs hspc

variable {h : TypeHierarchy}

theorem find?_eq_some_iff {a : Nat} : (of h.isSubtype spans).find? h.isSubtype pc ty = some a ↔
    ∃ s ∈ spans, s.Holds pc ∧ h.FirstCatch s.handlers ty a := by
  constructor
  · intro hfind
    by_cases hspan : ∃ s ∈ spans, s.Holds pc
    · obtain ⟨s, hs, hpc⟩ := hspan
      rw [find?_of_span hapart h.isSubtype_trans hs hpc] at hfind
      exact ⟨s, hs, hpc, TypeHierarchy.firstCatch_iff.1 hfind⟩
    · rw [find?_of_no_span hapart fun s hs hpc => hspan ⟨s, hs, hpc⟩] at hfind
      cases hfind
  · rintro ⟨s, hs, hpc, hcatch⟩
    rw [find?_of_span hapart h.isSubtype_trans hs hpc]
    exact TypeHierarchy.firstCatch_iff.2 hcatch

theorem find?_eq_none_iff : (of h.isSubtype spans).find? h.isSubtype pc ty = none ↔
    ∀ s ∈ spans, s.Holds pc → ∀ e ∈ s.handlers, ¬h.Catches e ty := by
  constructor
  · intro hfind s hs hpc e he hcatch
    rw [find?_of_span hapart h.isSubtype_trans hs hpc, Option.map_eq_none_iff, List.find?_eq_none] at hfind
    exact hfind e he (TypeHierarchy.takes_iff.2 hcatch)
  · intro hnone
    by_cases hspan : ∃ s ∈ spans, s.Holds pc
    · obtain ⟨s, hs, hpc⟩ := hspan
      rw [find?_of_span hapart h.isSubtype_trans hs hpc, Option.map_eq_none_iff, List.find?_eq_none]
      exact fun e he htakes => hnone s hs hpc e he (TypeHierarchy.takes_iff.1 htakes)
    · exact find?_of_no_span hapart fun s hs hpc => hspan ⟨s, hs, hpc⟩

end Spans

/-- **Handler tables preserve dispatch.**  An exception raised at an address goes to the first handler, in the list that
the span of this address was given, that takes its type, and nowhere if there is no such span or handler.  The ranges of
the table are not empty, follow each other, and those that touch have different handlers. -/
theorem dispatch_preserved (h : TypeHierarchy) {spans : List HandlerRange} (hapart : SpansApart spans) :
    (∀ pc ty a, (of h.isSubtype spans).find? h.isSubtype pc ty = some a ↔
      ∃ s ∈ spans, s.Holds pc ∧ h.FirstCatch s.handlers ty a) ∧
    (∀ pc ty, (of h.isSubtype spans).find? h.isSubtype pc ty = none ↔
      ∀ s ∈ spans, s.Holds pc → ∀ e ∈ s.handlers, ¬h.Catches e ty) ∧
    (∀ r ∈ (of h.isSubtype spans).ranges, r.start < r.stop) ∧
    (of h.isSubtype spans).ranges.Pairwise
      fun a b => a.stop ≤ b.start ∧ (a.stop = b.start → a.handlers ≠ b.handlers) := by
  have hranges : RangesFrom 0 (of h.isSubtype spans).ranges := rangesFrom_of hapart
  exact ⟨fun _ _ _ => find?_eq_some_iff hapart, fun _ _ => find?_eq_none_iff hapart,
    fun r hr => (le_start_of_mem hranges r hr).2, pairwise_of_merged hranges (merged_merge _)⟩

/-- Types with a cycle, and one listed with two parents. -/
def cyclicTypes : TypeHierarchy := ⟨[(2, 1), (2, 9), (1, 3), (3, 1)]⟩

/-- Spans out of order that touch, with handlers that nothing is left to, an empty span inside another and one whose end
lies in front of its start. -/
def nestedSpans : List HandlerRange :=
  [⟨16, 24, [⟨some 9, 100⟩, ⟨some 3, 200⟩, ⟨some 2, 300⟩, ⟨none, 400⟩]⟩, ⟨12, 12, [⟨none, 500⟩]⟩,
    ⟨8, 16, [⟨some 9, 100⟩, ⟨some 3, 200⟩, ⟨none, 400⟩, ⟨some 5, 600⟩]⟩, ⟨20, 4, [⟨none, 700⟩]⟩]

theorem dispatch_preserved_nestedSpans : SpansApart nestedSpans ∧
    (of cyclicTypes.isSubtype nestedSpans).find? cyclicTypes.isSubtype 16 2 = some 200 ∧
    (of cyclicTypes.isSubtype nestedSpans).find? cyclicTypes.isSubtype 12 7 = some 400 ∧
    (of cyclicTypes.isSubtype nestedSpans).find? cyclicTypes.isSubtype 24 2 = none := by
  have hapart : SpansApart nestedSpans := by simp [SpansApart, nestedSpans]
  obtain ⟨hsome, hnone, -⟩ := dispatch_preserved cyclicTypes hapart
  refine ⟨hapart, (hsome 16 2 200).2 ⟨_, List.mem_cons_self, by decide, ?_⟩, (hsome 12 7 400).2
    ⟨_, List.mem_of_getElem? (i := 2) rfl, by decide, ?_⟩, (hnone 24 2).2 ?_⟩
  · refine ⟨[⟨some 9, 100⟩], ⟨some 3, 200⟩, [⟨some 2, 300⟩, ⟨none, 400⟩], rfl, ?_, ?_, rfl⟩ <;>
      simp only [← TypeHierarchy.takes_iff] <;> decide
  · refine ⟨[⟨some 9, 100⟩, ⟨some 3, 200⟩], ⟨none, 400⟩, [⟨some 5, 600⟩], rfl, ?_, ?_, rfl⟩ <;>
      simp only [← TypeHierarchy.takes_iff] <;> decide
  · have hgap : ∀ s ∈ nestedSpans, ¬s.Holds 24 := by decide
    exact fun s hs hpc => absurd hpc (hgap s hs)

end HandlerTable

end CodeImage
