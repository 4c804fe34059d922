import CodeImage.Proofs.Schedule.Rows
/-!
# Merging — merging slots is joining their runs

Every search among slots finds what the same search among their runs finds, and the shortcuts that it tightens stay in order:
one lemma for each pattern, up to `tells_nextMerge?`.  A merge joins the two runs (`Fits.rows_compound`).  So merging slots
until no pattern applies leaves the runs that joining leaves (`rows_mergeAll`).
-/
namespace CodeImage

namespace SlotForest

/-- **What a search among slots finds**, read as runs: all of it is at the top, and it stands for what was to be found. -/
def Shows {α β : Type} (read : α → β) (valid : α → Prop) (x : Option α) (y : Option β) : Prop :=
  (∀ a ∈ x, valid a) ∧ x.map read = y

/-- A slot at the top, read as a run. -/
abbrev AsRun (f : SlotForest) : Option Nat → Option Run → Prop := Shows f.row (· ∈ f.tops)

/-- Two slots at the top, read as runs. -/
abbrev AsRuns (f : SlotForest) : Option (Nat × Nat) → Option (Run × Run) → Prop :=
  Shows (fun p => (f.row p.1, f.row p.2)) fun p => p.1 ∈ f.tops ∧ p.2 ∈ f.tops

section Shows

variable {α β γ δ : Type} {slots : Array Slot} {read : α → β} {valid : α → Prop}

theorem shows_none : Shows read valid none none := ⟨fun _ ha => (Option.not_mem_none _ ha).elim, rfl⟩

theorem shows_some {a : α} (ha : valid a) : Shows read valid (some a) (some (read a)) :=
  ⟨fun _ hb => Option.some.inj hb ▸ ha, rfl⟩

theorem tells_orElse {m n : StateM Leaders (Option α)} {x y : Option β} (hm : Tells slots m (Shows read valid · x))
    (hn : Tells slots n (Shows read valid · y)) : Tells slots (orElse m n) (Shows read valid · (x <|> y)) := by
  refine hm.bind ?_
  rintro a ⟨ha, rfl⟩
  cases a with
  | none => exact hn
  | some a => exact tells_pure ⟨ha, rfl⟩

/-- **A search along a list** finds what the search along the list read otherwise finds. -/
theorem tells_findSomeM? (read' : γ → δ) {k : γ → StateM Leaders (Option α)} {k' : δ → Option β} : ∀ l : List γ,
    (∀ c ∈ l, Tells slots (k c) (Shows read valid · (k' (read' c)))) →
    Tells slots (l.findSomeM? k) (Shows read valid · ((l.map read').findSome? k'))
  | [], _ => tells_pure shows_none
  | c :: l, h => by
    rw [List.map_cons, List.findSome?_cons]
    refine (h c List.mem_cons_self).bind ?_
    rintro a ⟨ha, heq⟩
    rw [← heq]
    cases a with
    | none => exact tells_findSomeM? read' l fun d hd => h d (List.mem_cons_of_mem _ hd)
    | some a => exact tells_pure ⟨ha, rfl⟩

theorem tells_search {k : γ → StateM Leaders (Option α)} {k' : γ → Option β} (l : List γ)
    (h : ∀ c ∈ l, Tells slots (k c) (Shows read valid · (k' c))) :
    Tells slots (l.findSomeM? k) (Shows read valid · (l.findSome? k')) := by
  have htells := tells_findSomeM? id l h
  rwa [List.map_id] at htells

theorem asRuns_ite {f : SlotForest} {a b : Nat} (ha : a ∈ f.tops) (hb : b ∈ f.tops) (c : Bool) :
    AsRuns f (if c then some (a, b) else none) (if c then some (f.row a, f.row b) else none) := by
  cases c with
  | true => exact ⟨fun _ hp => Option.some.inj hp ▸ ⟨ha, hb⟩, rfl⟩
  | false => exact shows_none

end Shows

/-! ## Slots by weight -/

section ByWeight

variable {g : SlotGraph} {f : SlotForest}

theorem heavier_total (f : SlotForest) {a b : Nat} (h : f.heavier a b = false) : f.heavier b a = true := by
  simp only [heavier, Bool.or_eq_false_iff, Bool.and_eq_false_iff, decide_eq_false_iff_not, beq_eq_false_iff_ne,
    Bool.or_eq_true, Bool.and_eq_true, decide_eq_true_eq, beq_iff_eq] at h ⊢
  omega

theorem heavier_trans (f : SlotForest) {a b c : Nat} (hab : f.heavier a b = true) (hbc : f.heavier b c = true) :
    f.heavier a c = true := by
  simp only [heavier, Bool.or_eq_true, Bool.and_eq_true, decide_eq_true_eq, beq_iff_eq] at hab hbc ⊢
  omega

theorem heavier_antisymm (f : SlotForest) {a b : Nat} (hab : f.heavier a b = true) (hba : f.heavier b a = true) : a = b := by
  simp only [heavier, Bool.or_eq_true, Bool.and_eq_true, decide_eq_true_eq, beq_iff_eq] at hab hba
  omega

theorem map_sortBy_heavier (h : Standing g f) {l : List Nat} (hl : l ⊆ f.tops) (hsorted : l.Pairwise (· < ·)) :
    (sortBy f.heavier l).map f.row = sortBy (fun r s => g.runWeight s ≤ g.runWeight r) (l.map f.row) := by
  refine map_sortBy _ (hsorted.imp_of_mem fun {a b} ha hb hlt => ?_)
  rw [Bool.eq_iff_iff]
  simp only [heavier, Bool.or_eq_true, Bool.and_eq_true, decide_eq_true_eq, beq_iff_eq, h.weightOf_eq (hl ha),
    h.weightOf_eq (hl hb)]
  omega

end ByWeight

/-! ## Single searches -/

theorem byWeight_subset {f : SlotForest} {set : List Nat} (hset : set ⊆ f.tops) : f.byWeight set ⊆ f.tops := fun _ ht =>
  hset (List.mem_filter.1 ((mem_sortBy _).1 ht)).1

section Searches

variable {g : SlotGraph} {f : SlotForest} (h : Mirrored g f) {set : List Nat} (hset : set ⊆ f.tops) {a b c t : Nat}

include h

theorem Mirrored.isTop (ht : t ∈ f.tops) : f.isTop t = true := by
  obtain ⟨x, hx, hnone⟩ := h.standing.exists_slot ht
  simp [SlotForest.isTop, hx, hnone]

theorem Mirrored.canMerge_eq (ha : a ∈ f.tops) (hb : b ∈ f.tops) : f.canMerge a b = g.joinable (f.row a) (f.row b) := by
  rw [canMerge, SlotGraph.joinable, h.isTop ha, h.isTop hb, h.standing.runCold_row ha, h.standing.runCold_row hb,
    h.standing.bne_row h.tidy.owners ha hb, Bool.and_true, Bool.and_true]

theorem Mirrored.map_row_eq_iff {x y : Option Nat} (hx : ∀ t ∈ x, t ∈ f.tops) (hy : ∀ t ∈ y, t ∈ f.tops) :
    x.map f.row = y.map f.row ↔ x = y := by
  refine ⟨fun heq => ?_, fun heq => heq ▸ rfl⟩
  cases x with
  | none => exact (Option.map_eq_none_iff.1 heq.symm).symm
  | some t =>
    cases y with
    | none => cases heq
    | some u => exact congrArg some ((h.standing.row_inj h.tidy.owners (hx t rfl) (hy u rfl)).1 (Option.some.inj heq))

theorem Mirrored.beq_row {x y : Option Nat} (hx : ∀ t ∈ x, t ∈ f.tops) (hy : ∀ t ∈ y, t ∈ f.tops) :
    (x.map f.row == y.map f.row) = (x == y) := by
  rw [Bool.eq_iff_iff, beq_iff_eq, beq_iff_eq, h.map_row_eq_iff hx hy]

theorem Mirrored.beq_some_row {x : Option Nat} (hx : ∀ t ∈ x, t ∈ f.tops) (ha : a ∈ f.tops) :
    (x.map f.row == some (f.row a)) = (x == some a) :=
  h.beq_row hx fun _ ht => Option.some.inj ht ▸ ha

theorem Mirrored.contains_row (hset : set ⊆ f.tops) (ht : t ∈ f.tops) : (set.map f.row).contains (f.row t) = set.contains t := by
  rw [Bool.eq_iff_iff, List.contains_iff_mem, List.contains_iff_mem, List.mem_map]
  constructor
  · rintro ⟨u, hu, heq⟩
    exact (h.standing.row_inj h.tidy.owners (hset hu) ht).1 heq ▸ hu
  · exact fun hmem => ⟨t, hmem, rfl⟩

/-- **The slots of a working set by weight** are its runs by weight. -/
theorem Mirrored.map_byWeight (hset : set ⊆ f.tops) (hnd : set.Nodup) :
    (f.byWeight set).map f.row = g.byWeight f.rows (set.map f.row) := by
  have hperm : set.Perm (f.tops.filter set.contains) := by
    refine (List.perm_ext_iff_of_nodup hnd (h.standing.nodup_tops.filter _)).2 fun t => ?_
    rw [List.mem_filter, List.contains_iff_mem]
    exact ⟨fun ht => ⟨hset ht, ht⟩, fun ht => ht.2⟩
  have hruns : f.rows.filter (set.map f.row).contains = (f.tops.filter set.contains).map f.row := by
    rw [rows, List.filter_map]
    exact congrArg _ (List.filter_congr fun t ht => h.contains_row hset ht)
  have hsame : sortBy f.heavier set = sortBy f.heavier (f.tops.filter set.contains) :=
    sortBy_congr f.heavier (fun _ _ => f.heavier_total) (fun _ _ _ => f.heavier_trans) (fun _ _ => f.heavier_antisymm) hperm
  rw [byWeight, List.filter_eq_self.2 fun t ht => h.isTop (hset ht), hsame,
    map_sortBy_heavier h.standing (List.filter_subset_self _) (h.standing.sorted.filter _), SlotGraph.byWeight, hruns]

/-- The other end of an edge lies in a slot at the top, whose run is found there. -/
theorem Mirrored.tells_far {outward : Bool} (ht : t ∈ f.tops) {e : SlotEdge} (he : e ∈ f.edgesOf t outward) :
    Tells f.slots (Leaders.top e.far) fun u => u ∈ f.tops ∧ e.far ∈ f.enumerate u ∧
      runOf f.rows ((f.link (e.source, e.target)).far outward) = some (f.row u) := by
  obtain ⟨u, hu, hmem⟩ := h.standing.exists_top (h.far_lt_of_mem ht he)
  refine (h.standing.tells_top hu hmem).mono ?_
  rintro _ rfl
  exact ⟨hu, hmem, by rw [h.far_link ht he]; exact h.standing.runOf_rows h.tidy.owners hu hmem⟩

theorem Mirrored.map_filter_edgesOf (ht : t ∈ f.tops) (outward : Bool) (p : SlotEdge → Bool) (q : Link → Bool)
    (hpq : ∀ e ∈ f.edgesOf t outward, p e = q (f.link (e.source, e.target))) :
    (g.linksOf outward (f.row t)).filter q = ((f.edgesOf t outward).filter p).map fun e => f.link (e.source, e.target) := by
  rw [← h.map_edgesOf ht, List.filter_map]
  exact congrArg _ (List.filter_congr fun e he => (hpq e he).symm)

theorem Mirrored.isCold_far {outward : Bool} (ht : t ∈ f.tops) {e : SlotEdge} (he : e ∈ f.edgesOf t outward) :
    f.isCold e.far = g.isCold ((f.link (e.source, e.target)).far outward) := by
  rw [h.far_link ht he, isCold_blockOf h.standing.grown (h.far_lt_of_mem ht he)]

/-- The edges of a slot into a working set are the links of its run into the set. -/
theorem Mirrored.map_edgesInto (hset : set ⊆ f.tops) (ht : t ∈ f.tops) (outward cold : Bool) :
    (g.linksOf outward (f.row t)).filter (fun l => g.isCold (l.far outward) == cold &&
      (set.map f.row).any (·.has (l.far outward))) =
    (f.edgesInto set outward cold t).map fun e => f.link (e.source, e.target) := by
  refine h.map_filter_edgesOf ht outward _ _ fun e he => ?_
  rw [← h.isCold_far ht he, h.far_link ht he, h.inSet_eq hset (h.far_lt_of_mem ht he)]

include hset

theorem Mirrored.tells_sole (ht : t ∈ f.tops) (outward ends : Bool) :
    Tells f.slots (f.sole? set outward ends t) (AsRun f ·
      (match (g.linksOf outward (f.row t)).filter fun l => g.isCold (l.far outward) == g.runCold (f.row t) &&
          (set.map f.row).any (·.has (l.far outward)) with
        | [l] => if ends && !l.meetsEnds f.rows then none else runOf f.rows (l.far outward)
        | _ => none)) := by
  rw [h.standing.runCold_row ht, h.map_edgesInto hset ht outward, sole?]
  have hmem : ∀ e ∈ f.edgesInto set outward (f.isCold t) t, e ∈ f.edgesOf t outward := fun e he => (List.mem_filter.1 he).1
  rcases hes : f.edgesInto set outward (f.isCold t) t with _ | ⟨e, _ | ⟨e', es⟩⟩
  · exact tells_pure shows_none
  · have he := hmem e (hes ▸ List.mem_cons_self)
    simp only [List.map_cons, List.map_nil, ← h.isBoundary_eq ht he]
    split
    · exact tells_pure shows_none
    · refine (h.tells_far ht he).bind fun u hu => ?_
      rw [hu.2.2]
      exact tells_pure (shows_some hu.1)
  · exact tells_pure shows_none

theorem Mirrored.tells_soleTarget (ht : t ∈ f.tops) (ends : Bool) :
    Tells f.slots (f.sole? set true ends t) (AsRun f · (g.soleTarget? f.rows (set.map f.row) ends (f.row t))) :=
  h.tells_sole hset ht true ends

theorem Mirrored.tells_soleSource (ht : t ∈ f.tops) (ends : Bool) :
    Tells f.slots (f.sole? set false ends t) (AsRun f · (g.soleSource? f.rows (set.map f.row) ends (f.row t))) :=
  h.tells_sole hset ht false ends

theorem Mirrored.tells_straight : Tells f.slots (f.straight? set) (AsRuns f · (g.straight? f.rows (set.map f.row))) := by
  refine tells_findSomeM? f.row set fun a ha => ?_
  rw [if_pos (h.isTop (hset ha))]
  refine (h.tells_soleTarget hset (hset ha) true).bind ?_
  rintro x ⟨hx, heq⟩
  rw [← heq]
  cases x with
  | none => exact tells_pure shows_none
  | some b =>
    refine (h.tells_soleSource hset (hx b rfl) true).bind ?_
    rintro y ⟨hy, heq⟩
    simp only [Option.map_some]
    rw [← heq, h.beq_some_row hy (hset ha), ← h.canMerge_eq (hset ha) (hx b rfl)]
    exact tells_pure (asRuns_ite (hset ha) (hx b rfl) _)

omit hset in
theorem Mirrored.tells_two (ht : t ∈ f.tops) (outward cold : Bool) :
    Tells f.slots (f.two? outward cold t) (AsRuns f ·
      (match (g.linksOf outward (f.row t)).filter fun l => g.isCold (l.far outward) == cold with
        | [l, m] => match runOf f.rows (l.far outward), runOf f.rows (m.far outward) with
          | some a, some b => some (a, b)
          | _, _ => none
        | _ => none)) := by
  have hmem : ∀ e ∈ (f.edgesOf t outward).filter fun e => f.isCold e.far == cold, e ∈ f.edgesOf t outward :=
    fun e he => (List.mem_filter.1 he).1
  rw [h.map_filter_edgesOf ht outward (fun e => f.isCold e.far == cold) _ fun e he => by rw [h.isCold_far ht he], two?]
  generalize (f.edgesOf t outward).filter (fun e => f.isCold e.far == cold) = edges at hmem ⊢
  rcases edges with _ | ⟨d, _ | ⟨e, _ | ⟨e', edges⟩⟩⟩
  · exact tells_pure shows_none
  · exact tells_pure shows_none
  · have hd := hmem d List.mem_cons_self
    have he := hmem e (List.mem_cons_of_mem _ List.mem_cons_self)
    refine (h.tells_far ht hd).bind fun u hu => (h.tells_far ht he).bind fun v hv => ?_
    simp only [List.map_cons, List.map_nil]
    rw [hu.2.2, hv.2.2]
    exact tells_pure ⟨fun _ hp => Option.some.inj hp ▸ ⟨hu.1, hv.1⟩, rfl⟩
  · exact tells_pure shows_none

omit hset in
theorem Mirrored.beq_rows {x : Option (Nat × Nat)} (hx : ∀ p ∈ x, p.1 ∈ f.tops ∧ p.2 ∈ f.tops) (ha : a ∈ f.tops)
    (hb : b ∈ f.tops) : (x.map (fun p => (f.row p.1, f.row p.2)) == some (f.row a, f.row b)) = (x == some (a, b)) := by
  rw [Bool.eq_iff_iff, beq_iff_eq, beq_iff_eq]
  cases x with
  | none => simp
  | some p =>
    obtain ⟨h₁, h₂⟩ := hx p rfl
    simp only [Option.map_some, Option.some.injEq, Prod.ext_iff, h.standing.row_inj h.tidy.owners h₁ ha,
      h.standing.row_inj h.tidy.owners h₂ hb]

/-! ## Patterns -/

theorem Mirrored.tells_ifThen (ha : a ∈ f.tops) (hb : b ∈ f.tops) (hc : c ∈ f.tops) :
    Tells f.slots (f.ifThen? set a b c)
      (AsRuns f · (g.ifThen? f.rows (set.map f.row) (f.row a) (f.row b) (f.row c))) := by
  have hnd := h.tidy.owners
  rw [SlotGraph.ifThen?, h.standing.bne_row hnd ha hc, h.standing.bne_row hnd hb hc, ← h.canMerge_eq ha hb, ifThen?]
  by_cases hskip : (a == b || b == c || a == c || !f.canMerge a b) = true
  · have hfalse : (a != c && b != c && f.canMerge a b) = false := by
      simp only [Bool.or_eq_true, beq_iff_eq, Bool.not_eq_true'] at hskip
      rcases hskip with ((rfl | rfl) | rfl) | hcan
      · simp [canMerge]
      · simp
      · simp
      · simp [hcan]
    rw [if_pos hskip, hfalse]
    exact tells_pure shows_none
  · have htrue : (a != c && b != c && f.canMerge a b) = true := by
      simp only [Bool.or_eq_true, beq_iff_eq, Bool.not_eq_true', not_or, Bool.not_eq_false] at hskip
      simp [hskip.1.1.2, hskip.1.2, hskip.2]
    rw [if_neg hskip, htrue, Bool.true_and, h.standing.runCold_row ha]
    refine (h.tells_two hc false (f.isCold a)).bind ?_
    rintro x ⟨hx, heq⟩
    have hsources : g.twoSources? f.rows (f.isCold a) (f.row c) = x.map fun p => (f.row p.1, f.row p.2) := heq.symm
    rw [hsources, h.beq_rows hx ha hb, h.beq_rows hx hb ha]
    split
    · rename_i hpair
      refine (h.tells_soleSource hset hb false).bind ?_
      rintro y ⟨hy, heq⟩
      rw [hpair, Bool.true_and, ← heq, h.beq_some_row hy ha]
      exact tells_pure (asRuns_ite ha hb _)
    · rename_i hpair
      rw [Bool.not_eq_true] at hpair
      rw [hpair]
      exact tells_pure shows_none

theorem Mirrored.tells_ifThenElse (ha : a ∈ f.tops) (hb : b ∈ f.tops) (hc : c ∈ f.tops) :
    Tells f.slots (f.ifThenElse? set a b c)
      (AsRuns f · (g.ifThenElse? f.rows (set.map f.row) (f.row a) (f.row b) (f.row c))) := by
  refine (h.tells_soleTarget hset hb false).bind ?_
  rintro x ⟨hx, heqx⟩
  refine (h.tells_soleTarget hset hc false).bind ?_
  rintro y ⟨hy, heqy⟩
  rw [SlotGraph.ifThenElse?, ← heqx, ← heqy]
  refine tells_pure ?_
  cases x with
  | none => exact shows_none
  | some u =>
    cases y with
    | none =>
      have hnone : (some u == (none : Option Nat)) = false := rfl
      rw [hnone]
      exact shows_none
    | some v =>
      have huv : (f.row u == f.row v) = (some u == some v) := by
        rw [Bool.eq_iff_iff, beq_iff_eq, beq_iff_eq, Option.some_inj,
          h.standing.row_inj h.tidy.owners (hx u rfl) (hy v rfl)]
      simp only [Option.map_some, Option.isSome_some, Bool.true_and, huv, ← h.standing.weightOf_eq hb,
        ← h.standing.weightOf_eq hc, h.standing.head_row hb, h.standing.head_row hc]
      split
      · rw [← h.canMerge_eq ha hb]
        exact asRuns_ite ha hb _
      · rw [← h.canMerge_eq ha hc]
        exact asRuns_ite ha hc _

theorem Mirrored.tells_branch (hnd : set.Nodup) :
    Tells f.slots (f.branch? set) (AsRuns f · (g.branch? f.rows (set.map f.row))) := by
  rw [SlotGraph.branch?, ← h.map_byWeight hset hnd]
  refine tells_search _ fun cold _ => tells_findSomeM? f.row _ fun a ha => ?_
  have ha := byWeight_subset hset ha
  rw [h.isTop ha, Bool.and_true, h.standing.runCold_row ha]
  split
  · refine (h.tells_two ha true cold).bind ?_
    rintro x ⟨hx, heq⟩
    have htargets : g.twoTargets? f.rows cold (f.row a) = x.map fun p => (f.row p.1, f.row p.2) := heq.symm
    rw [htargets]
    cases x with
    | none => exact tells_pure shows_none
    | some p =>
      obtain ⟨b, c⟩ := p
      obtain ⟨hb, hc⟩ := hx (b, c) rfl
      simp only [Option.map_some, h.contains_row hset hb, h.contains_row hset hc]
      split
      · exact tells_orElse (h.tells_ifThen hset ha hb hc)
          (tells_orElse (h.tells_ifThen hset ha hc hb) (h.tells_ifThenElse hset ha hb hc))
      · exact tells_pure shows_none
  · exact tells_pure shows_none

omit hset in
/-- The slots at the top over atomic slots stand for the runs of their blocks. -/
theorem Mirrored.tells_topsOf : ∀ atoms : List Nat, (∀ i ∈ atoms, i < g.owners.length) →
    Tells f.slots (Leaders.topsOf atoms) fun tops => (∀ t ∈ tops, t ∈ f.tops ∧ ∃ i ∈ atoms, i ∈ f.enumerate t) ∧
      tops.map f.row = atoms.filterMap fun i => runOf f.rows (f.blockOf i)
  | [], _ => tells_pure ⟨fun _ ht => absurd ht List.not_mem_nil, rfl⟩
  | i :: atoms, hatoms => by
    obtain ⟨t, ht, hi⟩ := h.standing.exists_top (hatoms i List.mem_cons_self)
    refine (h.standing.tells_top ht hi).bind ?_
    rintro _ rfl
    refine (tells_topsOf atoms fun j hj => hatoms j (List.mem_cons_of_mem _ hj)).bind fun tops htops => tells_pure ⟨?_, ?_⟩
    · intro u hu
      rcases List.mem_cons.1 hu with rfl | hu
      · exact ⟨ht, i, List.mem_cons_self, hi⟩
      · obtain ⟨hu, j, hj, hmem⟩ := htops.1 u hu
        exact ⟨hu, j, List.mem_cons_of_mem _ hj, hmem⟩
    · rw [List.map_cons, htops.2, List.filterMap_cons, h.standing.runOf_rows h.tidy.owners ht hi]

omit hset in
theorem Mirrored.eraseDups_rows {tops : List Nat} (htops : ∀ t ∈ tops, t ∈ f.tops) :
    (tops.map f.row).eraseDups = tops.eraseDups.map f.row :=
  eraseDups_map f.row tops fun t ht u hu => (h.standing.row_inj h.tidy.owners (htops t ht) (htops u hu)).1

theorem Mirrored.tells_exit (hnd : set.Nodup) :
    Tells f.slots (g.exitMerge? f set) (AsRuns f · (g.loopExit? f.rows (set.map f.row))) := by
  rw [SlotGraph.loopExit?, ← h.map_byWeight hset hnd]
  refine tells_search _ fun cold _ => tells_findSomeM? f.row _ fun s hs => ?_
  have hs := byWeight_subset hset hs
  rw [h.standing.runCold_row hs, h.standing.last_row hs]
  split
  · have hmem : ∀ e ∈ f.edgesInto set false cold s, e ∈ f.edgesOf s false := fun e he => (List.mem_filter.1 he).1
    have hfar : ∀ i ∈ (f.edgesInto set false cold s).map (·.far), i < g.owners.length ∧ i ∉ f.enumerate s := by
      intro i hi
      obtain ⟨e, he, rfl⟩ := List.mem_map.1 hi
      exact ⟨h.far_lt_of_mem hs (hmem e he), (h.exists_border hs (hmem e he)).2.2.1⟩
    have hfeeders : ((g.inbound (f.row s)).filter fun l => g.isCold l.source == cold &&
        (set.map f.row).any (·.has l.source)).filterMap (fun l => runOf f.rows l.source) =
        ((f.edgesInto set false cold s).map (·.far)).filterMap fun i => runOf f.rows (f.blockOf i) := by
      have hlinks : (g.inbound (f.row s)).filter (fun l => g.isCold l.source == cold && (set.map f.row).any (·.has l.source)) =
          _ := h.map_edgesInto hset hs false cold
      rw [hlinks, List.filterMap_map, List.filterMap_map]
      refine List.filterMap_congr fun e he => ?_
      rw [Function.comp_apply, Function.comp_apply, ← h.far_link hs (hmem e he)]
      rfl
    refine (h.tells_topsOf _ fun i hi => (hfar i hi).1).bind fun tops htops => tells_pure ?_
    have hself : tops.filter (· != s) = tops := List.filter_eq_self.2 fun t ht => by
      obtain ⟨-, i, hi, hit⟩ := htops.1 t ht
      rw [bne_iff_ne]
      rintro rfl
      exact (hfar i hi).2 hit
    dsimp only
    rw [hfeeders, ← htops.2, h.eraseDups_rows fun t ht => (htops.1 t ht).1, hself]
    rcases hdups : tops.eraseDups with _ | ⟨p, _ | ⟨q, rest⟩⟩
    · exact shows_none
    · have hp : p ∈ f.tops := (htops.1 p (List.mem_eraseDups.1 (hdups ▸ List.mem_cons_self))).1
      simp only [List.map_cons, List.map_nil, ← h.canMerge_eq hp hs]
      exact asRuns_ite hp hs _
    · exact shows_none
  · exact tells_pure shows_none

theorem Mirrored.tells_mergeIn (hnd : set.Nodup) :
    Tells f.slots (g.mergeIn? f set) (AsRuns f · (g.joinIn? f.rows (set.map f.row))) := by
  rw [SlotGraph.mergeIn?, SlotGraph.joinIn?, List.length_map]
  split
  · exact tells_pure shows_none
  · exact tells_orElse (h.tells_exit hset hnd) (tells_orElse (h.tells_branch hset hnd) (h.tells_straight hset))

omit hset in
theorem Mirrored.tells_loopTops (loop : List Nat) (cold : Bool) : Tells f.slots (g.loopTops f loop cold) fun set =>
    set ⊆ f.tops ∧ set.Nodup ∧ set.map f.row = g.loopRuns f.rows loop cold := by
  have hslot : ∀ {b i}, g.slotOf b = some i → i < g.owners.length ∧ f.blockOf i = b := by
    intro b i hi
    obtain ⟨hlt, heq, -⟩ := List.idxOf?_eq_some_iff.1 hi
    exact ⟨hlt, by rw [blockOf_atom h.standing.grown (List.getElem?_eq_getElem hlt), heq]⟩
  -- a member that owns no slot is in no run
  have hruns : ((loop.filterMap g.slotOf).filter (f.isCold · == cold)).filterMap (fun i => runOf f.rows (f.blockOf i)) =
      (loop.filter fun b => g.isCold b == cold).filterMap (runOf f.rows) := by
    induction loop with
    | nil => rfl
    | cons b loop ih =>
      cases hb : g.slotOf b with
      | none =>
        have hnone : runOf f.rows b = none := by
          rw [runOf, List.find?_eq_none]
          intro r hr hhas
          have howner : b ∈ g.owners := h.standing.divided_rows.perm.mem_iff.1
            (List.mem_flatMap.2 ⟨r, hr, by simpa [Run.has] using hhas⟩)
          have := List.isSome_idxOf?.2 howner
          rw [show g.owners.idxOf? b = none from hb] at this
          cases this
        rw [List.filterMap_cons_none hb, ih, List.filter_cons]
        split
        · rw [List.filterMap_cons_none hnone]
        · rfl
      | some i =>
        obtain ⟨hlt, heq⟩ := hslot hb
        rw [List.filterMap_cons_some hb, List.filter_cons, List.filter_cons, ← isCold_blockOf h.standing.grown hlt, heq]
        split
        · rw [List.filterMap_cons, List.filterMap_cons, heq, ih]
        · exact ih
  have hatoms : ∀ i ∈ (loop.filterMap g.slotOf).filter (f.isCold · == cold), i < g.owners.length := by
    intro i hi
    obtain ⟨b, -, hb⟩ := List.mem_filterMap.1 (List.mem_filter.1 hi).1
    exact (hslot hb).1
  refine (h.tells_topsOf _ hatoms).bind fun tops htops => tells_pure ⟨?_, nodup_eraseDups _, ?_⟩
  · exact fun t ht => (htops.1 t (List.mem_eraseDups.1 ht)).1
  · rw [← h.eraseDups_rows fun t ht => (htops.1 t ht).1, htops.2, hruns]
    rfl

omit hset in
/-- **The next merge of all is the next join of all.** -/
theorem Mirrored.tells_nextMerge : Tells f.slots (g.nextMerge? f) (AsRuns f · (g.nextJoin? f.rows)) := by
  refine tells_orElse (h.tells_straight (List.Subset.refl _)) (tells_orElse ?_
    (h.tells_mergeIn (List.Subset.refl _) h.standing.nodup_tops))
  refine tells_search _ fun loop _ => tells_search _ fun cold _ => (h.tells_loopTops loop cold).bind fun set hset => ?_
  rw [← hset.2.2]
  exact h.tells_mergeIn hset.1 hset.2.1

end Searches

/-! ## Runs of merges -/

section Runs

variable {g : SlotGraph} {f : SlotForest}

theorem Fits.row_old {a b : Nat} {xa xb : Slot} (hf : Fits f a xa b xb) (hg : Grown g f.slots) {s : Nat} {x : Slot}
    (hx : f.slots[s]? = some x) : (f.compound a b).row s = f.row s := by
  have hlt := (Array.getElem?_eq_some_iff.1 hx).1
  have hnew : (f.compound a b).slots[s]? = some _ := (hf.getElem?_old (Nat.ne_of_lt hlt)).trans (by rw [hx]; rfl)
  refine Run.eq_of_blocks ?_
  rw [blocks_row_of_slot (hg.compound hf) hnew, blocks_row_of_slot hg hx, hf.enumerate_old hg hx]
  refine List.map_congr_left fun i hi => ?_
  have hi := lt_of_mem_enumerate hg hx hi
  rw [blockOf_atom (hg.compound hf) (List.getElem?_eq_getElem hi), blockOf_atom hg (List.getElem?_eq_getElem hi)]

/-- **A merge joins the two runs.** -/
theorem Fits.rows_compound {a b : Nat} {xa xb : Slot} (hf : Fits f a xa b xb) (h : Standing g f) (hnd : g.owners.Nodup) :
    (f.compound a b).rows = SlotGraph.join f.rows (f.row a) (f.row b) := by
  have ha : a ∈ f.tops := (h.tops a).2 ⟨xa, hf.left, hf.left_top⟩
  have hb : b ∈ f.tops := (h.tops b).2 ⟨xb, hf.right, hf.right_top⟩
  have hnew : (f.compound a b).row f.slots.size = (f.row a).append (f.row b) := by
    rw [row_made (h.grown.compound hf) hf.getElem?_new hf.made_new, hf.row_old h.grown hf.left, hf.row_old h.grown hf.right]
  have hrest : (f.tops.filter fun s => s != a && s != b).map (f.compound a b).row =
      f.rows.filter fun r => r != f.row a && r != f.row b := by
    have hfilter : f.tops.filter ((fun r => r != f.row a && r != f.row b) ∘ f.row) = f.tops.filter fun s => s != a && s != b :=
      List.filter_congr fun t ht => by
        rw [Function.comp_apply, h.bne_row hnd ht ha, h.bne_row hnd ht hb]
    rw [rows, List.filter_map, hfilter]
    refine List.map_congr_left fun t ht => ?_
    obtain ⟨x, hx, -⟩ := h.exists_slot (List.mem_filter.1 ht).1
    exact hf.row_old h.grown hx
  rw [SlotGraph.join, ← hrest, ← hnew, rows]
  simp only [SlotForest.compound, List.map_append, List.map_singleton]

theorem mergeTimes_of_none {fuel : Nat} {leaders leaders' : Leaders}
    (h : (g.nextMerge? f).run leaders = (none, leaders')) : (g.mergeTimes (fuel + 1) f).run leaders = (f, leaders') := by
  rw [SlotGraph.mergeTimes, StateT.run_bind, h]
  rfl

theorem mergeTimes_of_some {fuel a b : Nat} {leaders leaders' : Leaders}
    (h : (g.nextMerge? f).run leaders = (some (a, b), leaders')) : (g.mergeTimes (fuel + 1) f).run leaders =
      (g.mergeTimes fuel ((f.merge a b).run leaders').1).run ((f.merge a b).run leaders').2 := by
  rw [SlotGraph.mergeTimes, StateT.run_bind, h]
  rfl

/-- **A merge that the search proposes** can be made, keeps the forest in order, and joins what the search among the runs
proposes. -/
theorem Mirrored.merge (h : Mirrored g f) {leaders leaders' : Leaders} (hl : Leads f.slots leaders) {a b : Nat}
    (hnext : (g.nextMerge? f).run leaders = (some (a, b), leaders')) :
    f.canMerge a b = true ∧ g.nextJoin? f.rows = some (f.row a, f.row b) ∧ Mirrored g ((f.merge a b).run leaders').1 ∧
    Leads ((f.merge a b).run leaders').1.slots ((f.merge a b).run leaders').2 ∧
    ((f.merge a b).run leaders').1.rows = SlotGraph.join f.rows (f.row a) (f.row b) ∧
    ((f.merge a b).run leaders').1.merges = f.merges + 1 := by
  obtain ⟨⟨htops, heq⟩, hl'⟩ := h.tells_nextMerge leaders hl
  rw [hnext] at htops heq hl'
  obtain ⟨ha, hb⟩ := htops (a, b) rfl
  have hcan : f.canMerge a b = true := by
    rw [h.canMerge_eq ha hb]
    exact (SlotGraph.joins_of_nextJoin? heq.symm).2.2
  obtain ⟨xa, xb, hf⟩ := exists_fits hcan
  obtain ⟨edges, hrun, hbordered, hleads⟩ := h.bordered.merge h.standing hf hl'
  rw [hrun]
  exact ⟨hcan, heq.symm, ⟨h.tidy, (h.standing.compound hf).withEdges edges, hbordered⟩, hleads,
    hf.rows_compound h.standing h.tidy.owners, rfl⟩

/-- **Merging so many times** keeps the forest in order and joins the runs as often. -/
theorem Mirrored.mergeTimes : ∀ (fuel : Nat) {f : SlotForest} {leaders : Leaders}, Mirrored g f → Leads f.slots leaders →
    Mirrored g ((g.mergeTimes fuel f).run leaders).1 ∧
    Leads ((g.mergeTimes fuel f).run leaders).1.slots ((g.mergeTimes fuel f).run leaders).2 ∧
    ((g.mergeTimes fuel f).run leaders).1.rows = g.joinTimes fuel f.rows
  | 0, _, _, h, hl => ⟨h, hl, rfl⟩
  | fuel + 1, f, leaders, h, hl => by
    obtain ⟨⟨-, heq⟩, hl'⟩ := h.tells_nextMerge leaders hl
    cases hnext : (g.nextMerge? f).run leaders with
    | mk found leaders' =>
      rw [hnext] at heq hl'
      cases found with
      | none =>
        rw [mergeTimes_of_none hnext, SlotGraph.joinTimes, ← heq]
        exact ⟨h, hl', rfl⟩
      | some p =>
        obtain ⟨a, b⟩ := p
        obtain ⟨-, hjoin, hmerged, hleads, hrows, -⟩ := h.merge hl hnext
        rw [mergeTimes_of_some hnext, SlotGraph.joinTimes, hjoin]
        dsimp only
        rw [← hrows]
        exact Mirrored.mergeTimes fuel hmerged hleads

theorem leads_range (g : SlotGraph) : Leads g.atoms.slots (Array.range g.owners.length) := by
  have hsize : g.atoms.slots.size = g.owners.length := by simp [SlotGraph.atoms]
  refine ⟨by rw [hsize, Array.size_range], fun {s l} hl => ?_, fun {s} hl => ?_⟩
  · simp only [Array.getElem?_range, Option.ite_none_right_eq_some, Option.some.injEq] at hl
    rw [hl.2]
  · have hlt := (Array.getElem?_eq_some_iff.1 hl).1
    rw [Array.size_range] at hlt
    exact ((standing_atoms g).tops s).1 (List.mem_range.2 hlt)

/-- **The forest after so many merges** is in order, and its runs are those after so many joins. -/
theorem mirrored_grow (hg : g.Tidy) (fuel : Nat) : Mirrored g (g.grow fuel).1 ∧ Leads (g.grow fuel).1.slots (g.grow fuel).2 ∧
    (g.grow fuel).1.rows = g.joinTimes fuel (g.owners.map Run.single) := by
  obtain ⟨⟨hslots, hrows, -, hstanding, hbordered⟩, hleads⟩ := tells_plant g _ (leads_range g)
  have hatoms : g.atoms.rows = g.owners.map Run.single := by
    have hgrown := (standing_atoms g).grown
    refine List.ext_getElem? fun i => ?_
    by_cases hi : i < g.owners.length
    · obtain ⟨parent, hx⟩ := hgrown.atom (List.getElem?_eq_getElem hi)
      have hrow : g.atoms.row i = Run.single g.owners[i] := Run.eq_of_blocks (by
        rw [blocks_row_of_slot hgrown hx, enumerate_atom hgrown hi, List.map_singleton,
          blockOf_atom hgrown (List.getElem?_eq_getElem hi)]
        rfl)
      rw [rows, List.getElem?_map, List.getElem?_map, List.getElem?_eq_getElem hi,
        show g.atoms.tops = List.range g.owners.length from rfl, List.getElem?_range hi, Option.map_some, hrow]
      rfl
    · rw [List.getElem?_eq_none, List.getElem?_eq_none]
      · simpa using hi
      · simpa [rows, SlotGraph.atoms] using hi
  rw [← hatoms, ← hrows]
  exact Mirrored.mergeTimes fuel ⟨hg, hstanding, hbordered⟩ (hslots ▸ hleads)

/-- **Merging slots until no pattern applies leaves the runs that joining leaves.** -/
theorem rows_mergeAll (hg : g.Tidy) : g.mergeAll.rows = g.joinAll := (mirrored_grow hg g.owners.length).2.2

end Runs

end SlotForest

end CodeImage
