import CodeImage.Proofs.Schedule.StraightLines
/-!
# Growth — the forest from the first slot to the last merge

`Orderly` is what holds of the forest and its shortcuts before the first merge and after each one.  The top of every slot is
the root of its parents; the slots at the top divide the atomic slots; a slot starts with its first atomic slot, ends with
its last, and is all hot or all cold; and a slot at the top holds, once each, the edges that lead out of it and into it, with
marks that tell where they meet its ends.  Every merge is one that may be made, and leaves one slot less at the top
(`Grows.step`); and when the merges end, there is none left to make (`Grows.ends`).
-/
namespace CodeImage

namespace SlotForest

/-- **An edge that a slot at the top holds**: control passes between two atomic slots whose roots differ, one of them being
the slot; the source is marked where it is not the last of its root, the target where it is not the first of its. -/
def Holds (g : SlotGraph) (f : SlotForest) (t : Nat) (e : SlotEdge) : Prop :=
  (e.source, e.target) ∈ g.connections ∧ ∃ v w, Root f.slots e.source v ∧ Root f.slots e.target w ∧ v ≠ w ∧
    t = (if e.outward then v else w) ∧ e.sourceInternal = (e.source != f.lastOf v) ∧
    e.targetInternal = (e.target != f.firstOf w)

/-- **The forest in order.** -/
structure Orderly (g : SlotGraph) (f : SlotForest) (leaders : Leaders) : Prop where
  /-- Looking for the top of a slot finds the root of its parents. -/
  top : ∀ s < f.slots.size, Root f.slots s ((Leaders.top s).run leaders).1
  nodup_tops : f.tops.Nodup
  /-- The slots at the top are those without a parent. -/
  tops : ∀ t, t ∈ f.tops ↔ AtTop f.slots t
  /-- The atomic slots are those of the owners. -/
  atomic : ∀ (i b : Nat), (∃ x : Slot, f.slots[i]? = some x ∧ x.kind = .atomic b) ↔ g.owners[i]? = some b
  /-- Each of them lies in one slot at the top. -/
  parts : (f.tops.flatMap f.enumerate).Perm (List.range g.owners.length)
  /-- Every slot starts with its first atomic slot and ends with its last. -/
  ends : ∀ s x, f.slots[s]? = some x → (f.enumerate s).head? = some x.first ∧ (f.enumerate s).getLast? = some x.last
  /-- The atomic slots of a slot at the top are as cold as that. -/
  cold : ∀ t ∈ f.tops, ∀ i ∈ f.enumerate t, f.isCold i = f.isCold t
  /-- A slot at the top holds its edges, in each direction once. -/
  edges : ∀ t ∈ f.tops, ∃ edges, f.edges[t]? = some edges ∧
    (edges.map fun e => (e.source, e.target, e.outward)).Nodup ∧ ∀ e, e ∈ edges ↔ Holds g f t e
  /-- Each merge has left one slot less at the top. -/
  count : f.tops.length + f.merges = g.owners.length

section Orderly

variable {g : SlotGraph} {f : SlotForest} {leaders : Leaders}

theorem Standing.holds_of_mem_borders (h : Standing g f) {marks : Nat × Nat → Bool × Bool}
    (hmarks : ∀ p ∈ g.pairs, Marks f marks p) {t : Nat} (ht : t ∈ f.tops) {x : Border}
    (hx : x ∈ Border.borders g.pairs (f.enumerate t)) : Holds g f t (x.marked marks) := by
  obtain ⟨hpair, hnear, hfar⟩ := Border.mem_borders.1 hx
  obtain ⟨hs, hd⟩ := lt_of_mem_pairs hpair
  obtain ⟨v, hv, hsv⟩ := h.exists_top hs
  obtain ⟨w, hw, hdw⟩ := h.exists_top hd
  -- the slot is the root of the near end, and the far end lies elsewhere
  have hside : t = (if x.outward then v else w) ∧ v ≠ w := by
    obtain ⟨s, d, outward⟩ := x
    cases outward with
    | true =>
      have htv := h.eq_of_mem ht hv hnear hsv
      exact ⟨htv, fun hvw => hfar (htv.trans hvw ▸ hdw)⟩
    | false =>
      have htw := h.eq_of_mem ht hw hnear hdw
      exact ⟨htw, fun hvw => hfar (htw.trans hvw.symm ▸ hsv)⟩
  have hright := hmarks _ hpair v hv w hw hsv hdw hside.2
  exact ⟨(mem_distinctPairs.1 hpair).1, v, w, h.root_of_mem hv hsv, h.root_of_mem hw hdw, hside.2, hside.1,
    congrArg Prod.fst hright, congrArg Prod.snd hright⟩

theorem Standing.exists_border_of_holds (h : Standing g f) {marks : Nat × Nat → Bool × Bool}
    (hmarks : ∀ p ∈ g.pairs, Marks f marks p) {t : Nat} {e : SlotEdge} (he : Holds g f t e) :
    ∃ x ∈ Border.borders g.pairs (f.enumerate t), x.marked marks = e := by
  obtain ⟨s, d, outward, sourceInternal, targetInternal⟩ := e
  obtain ⟨hconnected, v, w, hs, hd, hne, hside, hsource, htarget⟩ := he
  obtain ⟨hslt, hdlt⟩ := SlotGraph.lt_of_mem_connections hconnected
  obtain ⟨hv, hsv⟩ := h.mem_enumerate_of_root hslt hs
  obtain ⟨hw, hdw⟩ := h.mem_enumerate_of_root hdlt hd
  have hsd : s ≠ d := by
    rintro rfl
    exact hne (hs.unique hd)
  have hpair : (s, d) ∈ g.pairs := mem_distinctPairs.2 ⟨hconnected, hsd⟩
  refine ⟨⟨s, d, outward⟩, Border.mem_borders.2 ⟨hpair, ?_⟩, ?_⟩
  · cases outward with
    | true =>
      have htv : t = v := hside
      exact htv ▸ ⟨hsv, fun hmem => hne (h.eq_of_mem hv hw hmem hdw)⟩
    | false =>
      have htw : t = w := hside
      exact htw ▸ ⟨hdw, fun hmem => hne (h.eq_of_mem hv hw hsv hmem)⟩
  · rw [Border.marked, Border.pair, hmarks _ hpair v hv w hw hsv hdw hne]
    exact congr (congrArg (SlotEdge.mk s d outward) hsource.symm) htarget.symm

theorem Mirrored.orderly (h : Mirrored g f) (hl : Leads f.slots leaders) : Orderly g f leaders := by
  have hgrown := h.standing.grown
  refine ⟨fun s hs => (tells_top hgrown hs leaders hl).1, h.standing.nodup_tops, h.standing.tops, fun i b => ⟨?_, fun hi => ?_⟩,
    h.standing.perm, fun s x => ends_enumerate hgrown, fun t ht i hi => ?_, fun t ht => ?_, h.standing.count⟩
  · rintro ⟨x, hx, hkind⟩
    by_cases hi : i < g.owners.length
    · obtain ⟨parent, hatom⟩ := hgrown.atom (List.getElem?_eq_getElem hi)
      cases hx.symm.trans hatom
      rw [List.getElem?_eq_getElem hi]
      exact congrArg some (SlotKind.atomic.inj hkind)
    · obtain ⟨a, xa, c, xc, hmade⟩ := hgrown.made hx (Nat.le_of_not_lt hi)
      rw [hmade.eq] at hkind
      cases hkind
  · obtain ⟨parent, hatom⟩ := hgrown.atom hi
    exact ⟨_, hatom, rfl⟩
  · obtain ⟨x, hx, -⟩ := h.standing.exists_slot ht
    exact isCold_of_mem_enumerate hgrown hx hi
  · obtain ⟨marks, hlists, hmarks⟩ := h.bordered
    refine ⟨_, hlists.edges t ht, ?_, fun e => ⟨fun he => ?_, fun he => ?_⟩⟩
    · rw [List.map_map]
      refine List.Nodup.map_on (fun x _ y _ heq => ?_) (hlists.nodup t ht)
      obtain ⟨s, d, outward⟩ := x
      obtain ⟨s', d', outward'⟩ := y
      simpa [Border.marked] using heq
    · obtain ⟨x, hx, rfl⟩ := List.mem_map.1 he
      exact h.standing.holds_of_mem_borders hmarks ht hx
    · exact List.mem_map.2 (h.standing.exists_border_of_holds hmarks he)

/-! ## The merges one after the other -/

/-- A search that found nothing finds nothing with the shortcuts it leaves. -/
theorem Mirrored.nextMerge_again (h : Mirrored g f) {leaders leaders' : Leaders} (hl : Leads f.slots leaders)
    (hnone : (g.nextMerge? f).run leaders = (none, leaders')) : ((g.nextMerge? f).run leaders').1 = none := by
  obtain ⟨⟨-, hjoin⟩, hl'⟩ := h.tells_nextMerge leaders hl
  rw [hnone] at hjoin hl'
  -- either search shows the next join of the rows, which do not change
  exact Option.map_eq_none_iff.1 ((h.tells_nextMerge leaders' hl').1.2.trans hjoin.symm)

/-- One merge more is the merge that the search proposes next. -/
theorem Mirrored.mergeTimes_succ : ∀ (fuel : Nat) {f : SlotForest} {leaders leaders' : Leaders} {a b : Nat}, Mirrored g f →
    Leads f.slots leaders →
    (g.nextMerge? ((g.mergeTimes fuel f).run leaders).1).run ((g.mergeTimes fuel f).run leaders).2 = (some (a, b), leaders') →
    (g.mergeTimes (fuel + 1) f).run leaders = (((g.mergeTimes fuel f).run leaders).1.merge a b).run leaders'
  | 0, f, leaders, leaders', a, b, _, _, hnext => by
    change (g.nextMerge? f).run leaders = (some (a, b), leaders') at hnext
    rw [mergeTimes_of_some hnext]
    rfl
  | fuel + 1, f, leaders, leaders', a, b, h, hl, hnext => by
    cases hfirst : (g.nextMerge? f).run leaders with
    | mk found leaders₁ =>
      cases found with
      | none =>
        have hnone := h.nextMerge_again hl hfirst
        rw [mergeTimes_of_none hfirst] at hnext
        rw [hnext] at hnone
        cases hnone
      | some p =>
        obtain ⟨-, -, hmerged, hleads, -⟩ := h.merge hl hfirst
        rw [mergeTimes_of_some hfirst] at hnext ⊢
        rw [mergeTimes_of_some hfirst]
        exact Mirrored.mergeTimes_succ fuel hmerged hleads hnext

/-- When merging ends before its bound, no merge is left to make. -/
theorem Mirrored.mergeTimes_ends : ∀ (fuel : Nat) {f : SlotForest} {leaders : Leaders}, Mirrored g f → Leads f.slots leaders →
    ((g.nextMerge? ((g.mergeTimes fuel f).run leaders).1).run ((g.mergeTimes fuel f).run leaders).2).1 = none ∨
      ((g.mergeTimes fuel f).run leaders).1.merges = f.merges + fuel
  | 0, _, _, _, _ => .inr rfl
  | fuel + 1, f, leaders, h, hl => by
    cases hfirst : (g.nextMerge? f).run leaders with
    | mk found leaders₁ =>
      cases found with
      | none =>
        rw [mergeTimes_of_none hfirst]
        exact .inl (h.nextMerge_again hl hfirst)
      | some p =>
        obtain ⟨-, -, hmerged, hleads, -, hmerges⟩ := h.merge hl hfirst
        rw [mergeTimes_of_some hfirst]
        exact (Mirrored.mergeTimes_ends fuel hmerged hleads).imp_right fun hcount => by omega

end Orderly

end SlotForest

namespace SlotGraph

open SlotForest

/-- **How the forest of a method grows.** -/
structure Grows (g : SlotGraph) : Prop where
  /-- Before the first merge and after each one the forest is in order. -/
  orderly : ∀ k, Orderly g (g.grow k).1 (g.grow k).2
  /-- What the search proposes can be merged; the merge is made, and leaves one slot less at the top. -/
  step : ∀ k a b leaders, (g.nextMerge? (g.grow k).1).run (g.grow k).2 = (some (a, b), leaders) →
    (g.grow k).1.canMerge a b = true ∧ g.grow (k + 1) = ((g.grow k).1.merge a b).run leaders ∧
    (g.grow (k + 1)).1.merges = (g.grow k).1.merges + 1 ∧ (g.grow (k + 1)).1.tops.length + 1 = (g.grow k).1.tops.length
  /-- When the merges end, the search proposes none. -/
  ends : ((g.nextMerge? g.mergeAll).run (g.grow g.owners.length).2).1 = none

theorem grows {g : SlotGraph} (hg : g.Tidy) : g.Grows := by
  have horderly : ∀ k, Orderly g (g.grow k).1 (g.grow k).2 := fun k =>
    (mirrored_grow hg k).1.orderly (mirrored_grow hg k).2.1
  obtain ⟨⟨hslots, -, hmerges, hstanding, hbordered⟩, hleads⟩ := tells_plant g _ (leads_range g)
  have hplant : Mirrored g (g.plant.run (Array.range g.owners.length)).1 := ⟨hg, hstanding, hbordered⟩
  rw [← hslots] at hleads
  refine ⟨horderly, fun k a b leaders hnext => ?_, ?_⟩
  · obtain ⟨hmirrored, hl, -⟩ := mirrored_grow hg k
    obtain ⟨hcan, -, -, -, -, hmerges⟩ := hmirrored.merge hl hnext
    have hstep : g.grow (k + 1) = ((g.grow k).1.merge a b).run leaders := hplant.mergeTimes_succ k hleads hnext
    have hcount := (horderly k).count
    have hcount' := (horderly (k + 1)).count
    rw [← hstep] at hmerges
    exact ⟨hcan, hstep, hmerges, by omega⟩
  · refine (hplant.mergeTimes_ends g.owners.length hleads).elim id fun hcount => ?_
    -- all slots are merged away, which leaves nothing to be found
    have hempty : g.mergeAll.tops = [] := by
      have hall := (horderly g.owners.length).count
      have hmerged : (g.grow g.owners.length).1.merges = g.owners.length := by
        rw [hmerges] at hcount
        exact hcount.trans (Nat.zero_add _)
      exact List.eq_nil_of_length_eq_zero (by show (g.grow g.owners.length).1.tops.length = 0; omega)
    cases hnext : ((g.nextMerge? g.mergeAll).run (g.grow g.owners.length).2).1 with
    | none => rfl
    | some p =>
      obtain ⟨hmirrored, hl, -⟩ := mirrored_grow hg g.owners.length
      have htops := ((hmirrored.tells_nextMerge _ hl).1.1 p hnext).1
      rw [show (g.grow g.owners.length).1.tops = [] from hempty] at htops
      cases htops

end SlotGraph

namespace Schedule

section Of

variable {o : Outline} {g : FlowGraph} (ho : FlowGraph.ofOutline o = .ok g) {forest : LoopForest} (sizes : Array Nat)

include ho

/-- **Control never passes to the slot of a handler**: a normal edge leads to no handler, and neither does falling on from
where it leads. -/
theorem isHandler_target {l : Link} (hl : l ∈ (SlotGraph.of g forest (g.ownership sizes)).passages) :
    o.isHandler l.target = false := by
  obtain ⟨b, -, hl⟩ := List.mem_flatMap.1 hl
  obtain ⟨s, hs, rfl⟩ := List.mem_map.1 hl
  have hnormal := ((FlowGraph.mem_normalSuccs_ofOutline ho b s).1 hs).2
  dsimp only
  cases howner : (g.ownership sizes).ownerOf s with
  | none => exact hnormal
  | some t =>
    rw [Option.getD_some]
    cases (g.traced_ownership sizes).leads howner with
    | refl => exact hnormal
    | @tail c _ _ hfall =>
      have hmem : t ∈ g.normalSuccs c := by
        rw [((FlowGraph.fallThrough_eq_some_iff g sizes c t).1 hfall).2]
        exact List.mem_singleton_self t
      exact ((FlowGraph.mem_normalSuccs_ofOutline ho c t).1 hmem).2

/-- The connections between different atomic slots are the links of the schedule. -/
theorem connections_iff {s d u v : Nat} (hs : (SlotGraph.of g forest (g.ownership sizes)).owners[s]? = some u)
    (hd : (SlotGraph.of g forest (g.ownership sizes)).owners[d]? = some v) (hsd : s ≠ d) :
    (s, d) ∈ (SlotGraph.of g forest (g.ownership sizes)).connections ↔ (byRuns g forest sizes).Links o u v := by
  have htidy := tidy_of ho forest sizes
  have hgrown := (SlotForest.standing_atoms (SlotGraph.of g forest (g.ownership sizes))).grown
  have hlink : (SlotGraph.of g forest (g.ownership sizes)).atoms.link (s, d) = ⟨u, v⟩ := by
    rw [SlotForest.link, SlotForest.blockOf_atom hgrown hs, SlotForest.blockOf_atom hgrown hd]
  rw [links_iff ho, SlotForest.links_eq htidy hgrown, ← hlink]
  constructor
  · exact fun hmem => List.mem_map_of_mem (mem_distinctPairs.2 ⟨hmem, hsd⟩)
  · intro hmem
    obtain ⟨p, hp, heq⟩ := List.mem_map.1 hmem
    obtain ⟨hps, hpd⟩ := SlotForest.lt_of_mem_pairs hp
    obtain ⟨hsource, htarget⟩ := Link.mk.inj heq
    have hslt := (List.getElem?_eq_some_iff.1 hs).1
    have hdlt := (List.getElem?_eq_some_iff.1 hd).1
    have hpair : p = (s, d) := Prod.ext ((SlotForest.blockOf_inj hgrown htidy.owners hps hslt).1 hsource)
      ((SlotForest.blockOf_inj hgrown htidy.owners hpd hdlt).1 htarget)
    exact hpair ▸ (mem_distinctPairs.1 hp).1

end Of

/-- **The slot forest is in order at any time**, for every outline and whatever the sizes of its blocks; and control
passes between two atomic slots exactly where an edge of the outline leads from a block of the one to a block of the
other, which is never to the slot of a handler. -/
theorem forest_orderly (o : Outline) (sizes : Array Nat) (h : o.InRange) : ∃ g forest s, FlowGraph.ofOutline o = .ok g ∧
    g.loopForest = .ok forest ∧ Schedule.of g sizes = .ok s ∧ (SlotGraph.of g forest (g.ownership sizes)).Grows ∧
    (∀ l ∈ (SlotGraph.of g forest (g.ownership sizes)).passages, o.isHandler l.target = false) ∧
    ∀ i j u v, (SlotGraph.of g forest (g.ownership sizes)).owners[i]? = some u →
      (SlotGraph.of g forest (g.ownership sizes)).owners[j]? = some v → i ≠ j →
      ((i, j) ∈ (SlotGraph.of g forest (g.ownership sizes)).connections ↔ s.Links o u v) := by
  obtain ⟨g, hg⟩ := FlowGraph.exists_ofOutline h
  obtain ⟨-, forest, -, -, hforest, -, hof⟩ := exists_of hg sizes
  exact ⟨g, forest, _, hg, hforest, hof, SlotGraph.grows (tidy_of hg forest sizes), fun l => isHandler_target hg sizes,
    fun i j u v hi hj => connections_iff hg sizes hi hj⟩

/-- A branch whose arms meet again, where one of them may also end in a block that never returns. -/
def branching : Outline :=
  ⟨0, [⟨[1, 2], false, false, false, []⟩, ⟨[3], false, false, false, []⟩, ⟨[3, 5], false, false, false, []⟩,
    ⟨[4], false, false, false, []⟩, ⟨[], false, false, false, []⟩, ⟨[], false, true, true, []⟩]⟩

/-- Three merges leave the cold block, the code after the branch, and the branch with its arms. -/
theorem forest_orderly_branching : branching.InRange ∧ ∃ g forest s, FlowGraph.ofOutline branching = .ok g ∧
    g.loopForest = .ok forest ∧ Schedule.of g #[4, 4, 4, 4, 4, 4] = .ok s ∧
    (SlotGraph.of g forest (g.ownership #[4, 4, 4, 4, 4, 4])).Grows ∧
    (SlotGraph.of g forest (g.ownership #[4, 4, 4, 4, 4, 4])).mergeAll.merges = 3 ∧
    (SlotGraph.of g forest (g.ownership #[4, 4, 4, 4, 4, 4])).mergeAll.tops = [5, 6, 8] ∧ s.Links branching 2 5 := by
  have h : branching.InRange := ⟨by decide, by decide⟩
  obtain ⟨g, forest, s, hg, hforest, hs, hgrows, -, hlinks⟩ := forest_orderly branching #[4, 4, 4, 4, 4, 4] h
  have heval : (FlowGraph.ofOutline branching).toOption.map (fun g => g.loopForest.toOption.map fun forest =>
      let slots := SlotGraph.of g forest (g.ownership #[4, 4, 4, 4, 4, 4])
      (slots.owners, slots.mergeAll.merges, slots.mergeAll.tops, slots.connections.contains (2, 5))) =
      some (some ([0, 1, 2, 3, 4, 5], 3, [5, 6, 8], true)) := by decide +kernel
  have hparts := Outcome.eq_of_eval hforest (Outcome.eq_of_eval hg heval)
  simp only [Prod.mk.injEq] at hparts
  obtain ⟨howners, hmerges, htops, hconnected⟩ := hparts
  refine ⟨h, g, forest, s, hg, hforest, hs, hgrows, hmerges, htops,
    (hlinks 2 5 2 5 ?_ ?_ (by decide)).1 (List.contains_iff_mem.1 hconnected)⟩
  · rw [howners]; rfl
  · rw [howners]; rfl

end Schedule

end CodeImage
