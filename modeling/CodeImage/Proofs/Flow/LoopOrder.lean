import CodeImage.Proofs.Flow.Loops
import CodeImage.Proofs.Sorting
/-!
# LoopOrder — which of two nested loops comes first

Loops are taken by depth and then in the order of discovery (`LoopForest.before_iff`).  Of two nested loops with one header,
which have one depth, the inner one is discovered first: an edge whose source is in an earlier loop of its header adds
none (`Fresh`).  Where the headers differ, so do the depths, by the loops that hold one header and not the other
(`Listed.depth_add`).  Those that hold only the outer header have it as their own and go round the inner one, and enough of
them put the outer loop first.
-/
namespace CodeImage

theorem pair_sublist_of_getElem? {α : Type} {l : List α} {i j : Nat} {a b : α} (hij : i < j) (hi : l[i]? = some a)
    (hj : l[j]? = some b) : [a, b].Sublist l := by
  obtain ⟨hlt, rfl⟩ := List.getElem?_eq_some_iff.1 hi
  have hb : b ∈ l.drop (i + 1) := by
    refine List.mem_of_getElem? (i := j - (i + 1)) ?_
    rw [List.getElem?_drop, ← hj]
    congr 1
    omega
  have hdrop : [l[i], b].Sublist (l.drop i) := by
    rw [List.drop_eq_getElem_cons hlt]
    exact (List.singleton_sublist.2 hb).cons_cons _
  exact hdrop.trans (List.drop_sublist i l)

/-- What two counts share does not tell them apart. -/
theorem countP_add_countP_not {α : Type} (p q : α → Bool) (l : List α) :
    l.countP p + l.countP (fun a => q a && !p a) = l.countP q + l.countP (fun a => p a && !q a) := by
  rw [List.countP_eq_countP_filter_add l p q, List.countP_eq_countP_filter_add l q p]
  simp only [List.countP_filter]
  rw [List.countP_congr (p := fun a => p a && q a) (q := fun a => q a && p a) fun a _ => by rw [Bool.and_comm]]
  omega

/-! ## Positions -/

namespace LoopForest

/-- Loop number `i` is taken before loop number `j`. -/
def Before (f : LoopForest) (i j : Nat) : Prop := f.deepestFirst.idxOf i < f.deepestFirst.idxOf j

theorem perm_deepestFirst (f : LoopForest) : f.deepestFirst.Perm (List.range f.loops.length) := by
  have hperm := (sortBy_perm (fun a b => b.1.depth ≤ a.1.depth) f.loops.zipIdx).map Prod.snd
  rwa [List.zipIdx_map_snd, ← List.range_eq_range'] at hperm

section

variable {f : LoopForest} {i j : Nat} {x y : Loop}

/-- **A deeper loop is taken first, and of two equally deep ones that discovered first.** -/
theorem sublist_deepestFirst (hx : f.loops[i]? = some x) (hy : f.loops[j]? = some y)
    (h : y.depth < x.depth ∨ y.depth = x.depth ∧ i < j) : [i, j].Sublist f.deepestFirst := by
  have htotal : ∀ a b : Loop × Nat, decide (b.1.depth ≤ a.1.depth) = false → decide (a.1.depth ≤ b.1.depth) = true := by
    simp only [decide_eq_true_iff, decide_eq_false_iff_not]
    omega
  have htrans : ∀ a b c : Loop × Nat, decide (b.1.depth ≤ a.1.depth) = true → decide (c.1.depth ≤ b.1.depth) = true →
      decide (c.1.depth ≤ a.1.depth) = true := by
    simp only [decide_eq_true_iff]
    omega
  suffices hpair : [(x, i), (y, j)].Sublist (sortBy (fun a b => b.1.depth ≤ a.1.depth) f.loops.zipIdx) from
    hpair.map Prod.snd
  rcases h with hlt | ⟨heq, hij⟩
  · -- in a sorted list they cannot stand the other way round
    have hmem : ∀ {i x}, f.loops[i]? = some x → (x, i) ∈ sortBy (fun a b => b.1.depth ≤ a.1.depth) f.loops.zipIdx :=
      fun h => (mem_sortBy _).2 (List.mk_mem_zipIdx_iff_getElem?.2 h)
    obtain ⟨k, hk⟩ := List.mem_iff_getElem?.1 (hmem hx)
    obtain ⟨n, hn⟩ := List.mem_iff_getElem?.1 (hmem hy)
    rcases Nat.lt_trichotomy k n with hkn | rfl | hnk
    · exact pair_sublist_of_getElem? hkn hk hn
    · rw [hk, Option.some.injEq, Prod.mk.injEq] at hn
      rw [hn.1] at hlt
      exact absurd hlt (Nat.lt_irrefl _)
    · have hle := List.pairwise_iff_forall_sublist.1 (pairwise_sortBy _ htotal htrans f.loops.zipIdx)
        (pair_sublist_of_getElem? hnk hn hk)
      exact absurd hlt (Nat.not_lt.2 (of_decide_eq_true hle))
  · refine pair_sublist_sortBy _ htotal htrans (decide_eq_true (Nat.le_of_eq heq)) (pair_sublist_of_getElem? hij ?_ ?_)
    · rw [List.getElem?_zipIdx, hx, Option.map_some, Nat.zero_add]
    · rw [List.getElem?_zipIdx, hy, Option.map_some, Nat.zero_add]

theorem before_iff (hx : f.loops[i]? = some x) (hy : f.loops[j]? = some y) :
    f.Before i j ↔ y.depth < x.depth ∨ y.depth = x.depth ∧ i < j := by
  have hnodup := f.perm_deepestFirst.nodup_iff.2 List.nodup_range
  refine ⟨fun h => ?_, fun h => idxOf_lt_of_sublist hnodup (sublist_deepestFirst hx hy h)⟩
  by_contra hnot
  have hne : i ≠ j := by
    rintro rfl
    exact Nat.lt_irrefl _ h
  have hback := idxOf_lt_of_sublist hnodup (sublist_deepestFirst hy hx (by omega))
  exact Nat.lt_asymm h hback

end

/-- The loops that hold the header of `x` and not that of `y`. -/
def between (f : LoopForest) (x y : Loop) : Nat :=
  f.loops.countP fun z => z.members.contains x.header && !z.members.contains y.header

/-- The loops with the header of `y` that go round the header of `x`. -/
def bypassing (f : LoopForest) (x y : Loop) : Nat :=
  f.loops.countP fun z => z.header == y.header && !z.members.contains x.header

end LoopForest

/-! ## The order of discovery -/

namespace FlowGraph

variable {g : FlowGraph}

/-- **No loop is listed after one of its header that holds it.** -/
def Fresh (found : List (Nat × BitSet)) : Prop :=
  found.Pairwise fun x y => x.1 = y.1 → ∃ m, y.2.contains m = true ∧ x.2.contains m = false

theorem addLoop_cases {reach : BitSet} {dom : Dominance} {found found' : List (Nat × BitSet)} {b head : Nat}
    (h : g.addLoop reach dom found (b, head) = .ok found') : found' = found ∨
      found' = found ++ [(head, g.loopBody reach b head)] ∧ ∀ body ∈ found, body.1 = head → body.2.contains b = false := by
  simp only [addLoop] at h
  split at h
  · exact .inl (Except.ok.inj h).symm
  · rename_i hany
    split at h
    · cases h
    · rw [Except.ok.injEq] at h
      split at h
      · exact .inl h.symm
      · refine .inr ⟨h.symm, fun body hbody hheader => ?_⟩
        by_contra hcontains
        exact hany (List.any_eq_true.2 ⟨body, hbody, by simpa [hheader] using hcontains⟩)

theorem fresh_loopBodies (hg : g.Checked) {dom : Dominance} (hdom : Dominance.ReadOff g dom) {bodies : List (Nat × BitSet)}
    (h : g.loopBodies g.spanningTree dom = .ok bodies) : Fresh bodies := by
  rw [loopBodies_eq hg] at h
  refine (Outcome.foldlM_keeps (P := fun rest found => (∀ edge ∈ rest, g.Closes edge.1 edge.2) ∧ Fresh found) ?_
    ⟨fun edge hedge => (mem_closingEdges hg hdom edge.1 edge.2).1 hedge, List.Pairwise.nil⟩ h).2
  rintro ⟨b, head⟩ rest found found' ⟨hcloses, hfresh⟩ hadd
  refine ⟨fun edge hedge => hcloses edge (List.mem_cons_of_mem _ hedge), ?_⟩
  rcases addLoop_cases hadd with rfl | ⟨rfl, huncovered⟩
  · exact hfresh
  · have hc : g.Closes b head := hcloses (b, head) List.mem_cons_self
    refine List.pairwise_append.2 ⟨hfresh, List.pairwise_singleton _ _, fun x hx y hy => ?_⟩
    rw [List.mem_singleton.1 hy]
    exact fun hheader => ⟨b, ((contains_loopBody hg hc).2 b).2 hc.enclosed, huncovered x hx hheader⟩

/-! ## Depths of nested loops -/

section

variable {bodies : List (Nat × BitSet)} {x y z : Loop}

theorem depth_forestOf (hx : x ∈ (g.forestOf bodies).loops) :
    x.depth = (g.forestOf bodies).loops.countP (·.members.contains x.header) := by
  obtain ⟨body, -, rfl⟩ := List.mem_map.1 hx
  simp [forestOf, List.countP_map, Function.comp_def]

theorem getElem?_forestOf {i : Nat} (hx : (g.forestOf bodies).loops[i]? = some x) :
    bodies[i]? = some (x.header, x.members) := by
  rw [forestOf, List.getElem?_map, Option.map_eq_some_iff] at hx
  obtain ⟨body, hbody, rfl⟩ := hx
  exact hbody

/-- **Of nested loops with one header the inner one is discovered first.** -/
theorem Fresh.index_lt (h : Fresh bodies) {i j : Nat} (hx : (g.forestOf bodies).loops[i]? = some x)
    (hy : (g.forestOf bodies).loops[j]? = some y) (hheader : x.header = y.header) (hwithin : x.Within y)
    (hstrict : ¬ y.Within x) : i < j := by
  rcases Nat.lt_trichotomy i j with hij | rfl | hji
  · exact hij
  · rw [hx, Option.some.injEq] at hy
    exact absurd (hy ▸ hwithin) hstrict
  · obtain ⟨m, hm, hm'⟩ := List.pairwise_iff_forall_sublist.1 h
      (pair_sublist_of_getElem? hji (getElem?_forestOf hy) (getElem?_forestOf hx)) hheader.symm
    exact absurd (hwithin m hm) (by simp [hm'])

variable {done : List (Nat × Nat)} (h : g.Listed done bodies)

include h

theorem Listed.contains_header (hx : x ∈ (g.forestOf bodies).loops) : x.members.contains x.header = true := by
  obtain ⟨b, -, -, hcontains⟩ := h.loop hx
  exact (hcontains x.header).2 (.inl rfl)

/-- Two loops that hold each other's headers have one. -/
theorem Listed.header_eq (hx : x ∈ (g.forestOf bodies).loops) (hy : y ∈ (g.forestOf bodies).loops)
    (hxy : y.members.contains x.header = true) (hyx : x.members.contains y.header = true) : x.header = y.header := by
  obtain ⟨b, hc, -, hcontains⟩ := h.loop hx
  obtain ⟨b', hc', -, hcontains'⟩ := h.loop hy
  have hyx := (hcontains _).1 hyx
  exact (hyx.dominates hc).antisymm (((hcontains' _).1 hxy).dominates hc') (hyx.reaches hc)

/-- **A loop that holds the header of another one holds all of it**, unless they share the header. -/
theorem Listed.within_of_header (hg : g.Checked) (hy : y ∈ (g.forestOf bodies).loops) (hz : z ∈ (g.forestOf bodies).loops)
    (hne : y.header ≠ z.header) (hcontains : z.members.contains y.header = true) : y.Within z := by
  rcases h.nested hg hy hz hne with hapart | hwithin | hwithin
  · exact absurd (hapart y.header (h.contains_header hy)) (by simp [hcontains])
  · exact hwithin
  · exact absurd (h.header_eq hy hz hcontains (hwithin z.header (h.contains_header hz))) hne

/-- **Depths of nested loops** differ by the loops between them and those of the outer header that go round the inner one. -/
theorem Listed.depth_add (hg : g.Checked) (hx : x ∈ (g.forestOf bodies).loops) (hy : y ∈ (g.forestOf bodies).loops)
    (hwithin : x.Within y) :
    x.depth + (g.forestOf bodies).bypassing x y = y.depth + (g.forestOf bodies).between x y := by
  have hbypassing : (g.forestOf bodies).bypassing x y = (g.forestOf bodies).loops.countP fun z =>
      z.members.contains y.header && !z.members.contains x.header := by
    refine List.countP_congr fun z hz => ?_
    simp only [Bool.and_eq_true, beq_iff_eq, Bool.not_eq_true']
    refine and_congr_left fun hmiss => ⟨fun hheader => hheader ▸ h.contains_header hz, fun hcontains => ?_⟩
    by_contra hne
    have hall := h.within_of_header hg hy hz (Ne.symm hne) hcontains
    exact absurd (hall _ (hwithin _ (h.contains_header hx))) (by simp [hmiss])
  rw [hbypassing, depth_forestOf hx, depth_forestOf hy]
  exact countP_add_countP_not _ _ _

theorem Listed.between_pos (hx : x ∈ (g.forestOf bodies).loops) (hy : y ∈ (g.forestOf bodies).loops) (hwithin : x.Within y)
    (hne : x.header ≠ y.header) : 0 < (g.forestOf bodies).between x y := by
  refine List.countP_pos_iff.2 ⟨x, hx, ?_⟩
  have hself := h.contains_header hx
  have hmiss : x.members.contains y.header = false := by
    by_contra hcontains
    exact hne (h.header_eq hx hy (hwithin _ hself) (by simpa using hcontains))
  simp [hself, hmiss]

end

/-- **When an inner loop is taken before the one around it.**  With one header it always is.  With two headers it is unless
as many loops of the outer header go round the inner header as loops lie between: then the order of discovery decides, and if
there are more the outer loop comes first. -/
theorem inner_before_outer_iff {o : Outline} {g : FlowGraph} (h : ofOutline o = .ok g) :
    ∃ dom forest, Dominance.of g = .ok dom ∧ g.findLoops g.spanningTree dom = .ok forest ∧ g.loopForest = .ok forest ∧
      forest.deepestFirst.Perm (List.range forest.loops.length) ∧
      ∀ i j x y, forest.loops[i]? = some x → forest.loops[j]? = some y → x.Within y → ¬ y.Within x →
        (x.header = y.header → forest.Before i j) ∧
        (x.header ≠ y.header → 0 < forest.between x y ∧
          (forest.Before i j ↔ forest.bypassing x y < forest.between x y ∨
            forest.bypassing x y = forest.between x y ∧ i < j)) := by
  have hg := checked_ofOutline h
  obtain ⟨dom, bodies, hdom, hreadOff, hbodies, hlisted, hfind, hforest⟩ := exists_loopForest hg
  refine ⟨dom, g.forestOf bodies, hdom, hfind, hforest, LoopForest.perm_deepestFirst _,
    fun i j x y hx hy hwithin hstrict => ⟨fun hheader => ?_, fun hne => ?_⟩⟩
  · have hij := (fresh_loopBodies hg hreadOff hbodies).index_lt hx hy hheader hwithin hstrict
    have hdepth : y.depth = x.depth := by
      rw [depth_forestOf (List.mem_of_getElem? hx), depth_forestOf (List.mem_of_getElem? hy), hheader]
    exact (LoopForest.before_iff hx hy).2 (.inr ⟨hdepth, hij⟩)
  · have hdepth := hlisted.depth_add hg (List.mem_of_getElem? hx) (List.mem_of_getElem? hy) hwithin
    refine ⟨hlisted.between_pos (List.mem_of_getElem? hx) (List.mem_of_getElem? hy) hwithin hne, ?_⟩
    rw [LoopForest.before_iff hx hy]
    omega

/-- Block one heads the loop that block two closes, and two more that go round block two, which follows itself. -/
def roundabouts : Outline :=
  ⟨0, [⟨[1], false, false, false, [0]⟩, ⟨[2, 3, 4], false, false, false, [1]⟩, ⟨[2, 1], false, false, false, [2]⟩,
    ⟨[1], false, false, false, [3]⟩, ⟨[1], false, false, false, [4]⟩]⟩

/-- The loop of block two alone is taken after the loop of blocks one and two. -/
theorem inner_before_outer_iff_roundabouts : ∃ g forest x y, ofOutline roundabouts = .ok g ∧ g.loopForest = .ok forest ∧
    forest.loops[0]? = some x ∧ forest.loops[1]? = some y ∧ (x.header, x.members.toList, x.depth) = (2, [2], 2) ∧
    (y.header, y.members.toList, y.depth) = (1, [1, 2], 3) ∧ x.Within y ∧ ¬ y.Within x ∧
    forest.bypassing x y = 2 ∧ forest.between x y = 1 ∧ ¬ forest.Before 0 1 := by
  obtain ⟨g, hg⟩ : ∃ g, ofOutline roundabouts = .ok g := ⟨_, rfl⟩
  obtain ⟨-, forest, -, -, hforest, -, horder⟩ := inner_before_outer_iff hg
  let x : Loop := ⟨2, .singleton 5 2, .singleton 5 2, 2⟩
  let y : Loop := ⟨1, (BitSet.singleton 5 1).insert 2, .singleton 5 1, 3⟩
  have hloops : forest.loops = [x, y, ⟨1, (BitSet.singleton 5 1).insert 3, .singleton 5 1, 3⟩,
      ⟨1, (BitSet.singleton 5 1).insert 4, .singleton 5 1, 3⟩] := by
    have heval : (ofOutline roundabouts).toOption.map (fun g => g.loopForest.toOption.map LoopForest.loops) =
        some (some [x, y, ⟨1, (BitSet.singleton 5 1).insert 3, .singleton 5 1, 3⟩,
          ⟨1, (BitSet.singleton 5 1).insert 4, .singleton 5 1, 3⟩]) := by decide +kernel
    exact Outcome.eq_of_eval hforest (Outcome.eq_of_eval hg heval)
  have hx : forest.loops[0]? = some x := by rw [hloops]; rfl
  have hy : forest.loops[1]? = some y := by rw [hloops]; rfl
  have hwithin : x.Within y := fun m hm => by
    rw [BitSet.contains_singleton (by decide), decide_eq_true_iff] at hm
    rw [← hm]
    decide
  have hstrict : ¬ y.Within x := fun h => absurd (h 1 (by decide)) (by decide)
  have hbypassing : forest.bypassing x y = 2 := by
    rw [LoopForest.bypassing, hloops]
    decide
  have hbetween : forest.between x y = 1 := by
    rw [LoopForest.between, hloops]
    decide
  refine ⟨g, forest, x, y, hg, hforest, hx, hy, by decide +kernel, by decide +kernel, hwithin, hstrict, hbypassing, hbetween, ?_⟩
  rw [((horder 0 1 x y hx hy hwithin hstrict).2 (by decide)).2, hbypassing, hbetween]
  decide

end FlowGraph

end CodeImage
