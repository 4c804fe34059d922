import CodeImage.Flow.Loops
import CodeImage.Proofs.Flow.Closure
import CodeImage.Proofs.Flow.Dominance
/-!
# Loops — what a closing edge encloses

An edge to a dominator of its source closes a loop (`FlowGraph.Closes`), which holds the header and every reachable block that
leads to the source without passing the header (`FlowGraph.Enclosed`).  A header dominates what its loop holds
(`Enclosed.dominates`), so no member is stray, loops with the same members have the same header (`Enclosed.eq_header`), and of
two loops with different headers that share a block the one holds the other (`Enclosed.nested`).  The list of loops keeps
one entry for each set of members and misses no closing edge (`Listed`).
-/
namespace CodeImage

namespace FlowGraph

variable {g : FlowGraph} {b head m : Nat}

/-- **The edge from `b` to `head` closes a loop**: control comes to `b` only through `head`. -/
structure Closes (g : FlowGraph) (b head : Nat) : Prop where
  edge : head ∈ g.succs b
  reaches : g.Reaches b
  dominates : g.Dominates head b

/-- **The loop that the edge from `b` to `head` closes holds `m`**: it is the header, or reachable with a path to `b` that
avoids the header. -/
def Enclosed (g : FlowGraph) (b head m : Nat) : Prop := m = head ∨ g.Reaches m ∧ ∃ l, g.Path m b l ∧ head ∉ l

/-! ## Dominance along paths -/

/-- **The dominators of a block are ordered**, as the climb from it is. -/
theorem Dominates.total (hg : g.Checked) {d e : Nat} (hd : g.Dominates d b) (he : g.Dominates e b) (hb : g.Reaches b) :
    g.Dominates d e ∨ g.Dominates e d := by
  obtain ⟨idoms, -, -, hexact⟩ := Dominance.exists_settle hg (ranked_postOrder hg.toClosed)
  have hdreach := hd.reaches hb
  have hereach := he.reaches hb
  rw [← hexact.above b _ hb] at hd he
  rcases Nat.le_total (g.postOrder.idxOf d) (g.postOrder.idxOf e) with hle | hle
  · exact .inr ((hexact.above d e hdreach).1 (hexact.tree.linear hd he hle))
  · exact .inl ((hexact.above e d hereach).1 (hexact.tree.linear he hd hle))

/-- Behind a block on a way without repeats lie none of its strict dominators. -/
theorem Dominates.exists_avoiding {d e : Nat} (hde : g.Dominates d e) (hne : d ≠ e) (heb : g.Dominates e b)
    (hb : g.Reaches b) : ∃ l, g.Path e b l ∧ d ∉ l := by
  obtain ⟨l, hl⟩ := reaches_iff_path.1 hb
  obtain ⟨m, hm, hnodup, -⟩ := hl.exists_nodup
  obtain ⟨front, back, rfl, hfront, hback⟩ := hm.split (heb m hm)
  have hmem : d ∈ front := by simpa [hne] using hde _ hfront
  exact ⟨e :: back, hback, fun h => (List.nodup_append.1 hnodup).2.2 d hmem d h rfl⟩

/-! ## One loop -/

theorem Enclosed.reaches (h : g.Enclosed b head m) (hc : g.Closes b head) : g.Reaches m := by
  rcases h with rfl | ⟨hm, -⟩
  · exact hc.reaches.step hc.edge
  · exact hm

theorem Closes.enclosed (h : g.Closes b head) : g.Enclosed b head b := by
  by_cases hb : b = head
  · exact .inl hb
  · exact .inr ⟨h.reaches, [b], .stay b, by simpa using Ne.symm hb⟩

/-- **A header dominates what its loop holds**: whatever way avoids it would come to the source of the edge. -/
theorem Enclosed.dominates (h : g.Enclosed b head m) (hc : g.Closes b head) : g.Dominates head m := by
  rcases h with rfl | ⟨-, l, hl, havoid⟩
  · exact fun _ h => h.last_mem
  · intro k hk
    rcases List.mem_append.1 (hc.dominates _ (hk.append hl)) with hmem | hmem
    · exact hmem
    · exact absurd (List.mem_of_mem_tail hmem) havoid

theorem Enclosed.eq_header {b' head' : Nat} (hc : g.Closes b head) (hc' : g.Closes b' head')
    (h : ∀ m, g.Enclosed b head m ↔ g.Enclosed b' head' m) : head = head' := by
  have h1 : g.Dominates head' head := ((h head).1 (.inl rfl)).dominates hc'
  have h2 : g.Dominates head head' := ((h head').2 (.inl rfl)).dominates hc
  exact h2.antisymm h1 (hc'.reaches.step hc'.edge)

/-- **A loop holds the loops of headers that its header dominates**, if they share a block. -/
theorem Enclosed.nested {b' head' x : Nat} (hc : g.Closes b head) (hc' : g.Closes b' head') (hne : head ≠ head')
    (hdom : g.Dominates head head') (hx : g.Enclosed b head x) (hx' : g.Enclosed b' head' x) {y : Nat}
    (hy : g.Enclosed b' head' y) : g.Enclosed b head y := by
  have hreach' : g.Reaches head' := hc'.reaches.step hc'.edge
  have hback : ¬ g.Dominates head' head := fun h => hne (hdom.antisymm h hreach')
  -- from the inner header the way goes through the shared block to the source of the outer edge
  obtain ⟨l, hl, havoid⟩ : ∃ l, g.Path head' b l ∧ head ∉ l := by
    rcases hx with rfl | ⟨hxreach, l, hl, havoid⟩
    · exact absurd (hx'.dominates hc') hback
    · obtain ⟨k, hk, havoid'⟩ := hdom.exists_avoiding hne (hx'.dominates hc') hxreach
      refine ⟨_, hk.append hl, fun h => ?_⟩
      rcases List.mem_append.1 h with h | h
      · exact havoid' h
      · exact havoid (List.mem_of_mem_tail h)
  rcases hy with rfl | ⟨hyreach, k, hk, havoid'⟩
  · exact .inr ⟨hreach', l, hl, havoid⟩
  · refine .inr ⟨hyreach, _, (hk.snoc hc'.edge).append hl, fun h => ?_⟩
    rw [List.mem_append, List.mem_append, List.mem_singleton] at h
    rcases h with (h | h) | h
    · -- past the outer header the source of the inner edge could be come to without the inner header
      obtain ⟨front, back, rfl, -, hout⟩ := hk.split h
      refine hback fun j hj => ?_
      rcases List.mem_append.1 (hc'.dominates _ (hj.append hout)) with hmem | hmem
      · exact hmem
      · exact absurd (List.mem_append_right front (List.mem_of_mem_tail hmem)) havoid'
    · exact hne h
    · exact havoid (List.mem_of_mem_tail h)

/-- The blocks that a search backwards from the source of a closing edge goes on to. -/
def behind (g : FlowGraph) (head m : Nat) : List Nat :=
  if m == head then [] else (g.preds m).filter g.reachable.contains

theorem mem_behind (hg : g.Checked) (a c : Nat) : c ∈ g.behind head a ↔ a ≠ head ∧ a ∈ g.succs c ∧ g.Reaches c := by
  unfold behind
  by_cases ha : a = head
  · simp [ha]
  · simp [ha, List.mem_filter, hg.mem_preds, contains_reachable hg.toClosed]

/-- Going back ends at the header, so what was come to from another block avoids it. -/
theorem enclosed_of_behind (hg : g.Checked) (hc : g.Closes b head)
    (h : Relation.ReflTransGen (fun a c => c ∈ g.behind head a) b m) : g.Enclosed b head m := by
  induction h with
  | refl => exact hc.enclosed
  | @tail a c _ hstep ih =>
    obtain ⟨ha, edge, hreach⟩ := (mem_behind hg a c).1 hstep
    obtain ⟨-, l, hl, havoid⟩ := ih.resolve_left ha
    by_cases hch : c = head
    · exact .inl hch
    · exact .inr ⟨hreach, c :: l, .step edge hl, by simpa [Ne.symm hch] using havoid⟩

theorem behind_of_path (hg : g.Checked) {l : List Nat} (hl : g.Path m b l) (hm : g.Reaches m) (havoid : head ∉ l) :
    Relation.ReflTransGen (fun a c => c ∈ g.behind head a) b m := by
  induction hl with
  | stay => exact .refl
  | @step a s _ l edge rest ih =>
    rw [List.mem_cons, not_or] at havoid
    have hs : s ≠ head := fun h => havoid.2 (h ▸ rest.first_mem)
    exact (ih (hm.step edge) havoid.2).tail ((mem_behind hg s a).2 ⟨hs, edge, hm⟩)

/-- **The members of a loop are what it encloses.** -/
theorem contains_loopBody (hg : g.Checked) (hc : g.Closes b head) : (g.loopBody g.reachable b head).bound = g.size ∧
    ∀ m, (g.loopBody g.reachable b head).contains m = true ↔ g.Enclosed b head m := by
  have hseeds : ∀ s ∈ [b], s < g.size := by simpa using hg.lt_of_reaches hc.reaches
  have hnext : ∀ a, ∀ c ∈ g.behind head a, c < g.size := fun a c h => hg.lt_of_reaches ((mem_behind hg a c).1 h).2.2
  have hbound := bound_reachableFrom hseeds hnext
  have hhead : head < (reachableFrom g.size (g.behind head) [b]).bound := by
    rw [hbound]
    exact hg.lt_of_reaches (hc.reaches.step hc.edge)
  have hbody : g.loopBody g.reachable b head = (reachableFrom g.size (g.behind head) [b]).insert head := rfl
  rw [hbody]
  refine ⟨(BitSet.bound_insert _ _).trans hbound, fun m => ?_⟩
  rw [BitSet.contains_insert _ hhead, Bool.or_eq_true, decide_eq_true_iff, contains_reachableFrom hseeds hnext]
  simp only [List.mem_singleton, exists_eq_left]
  constructor
  · rintro (h | rfl)
    · exact enclosed_of_behind hg hc h
    · exact .inl rfl
  · rintro (rfl | ⟨hm, l, hl, havoid⟩)
    · exact .inr rfl
    · exact .inl (behind_of_path hg hl hm havoid)

/-! ## The list of loops -/

/-- **The loops that some closing edges gave**: each entry comes from a closing edge, each edge of `done` is in an entry of
its header, and no two entries have the same members. -/
structure Listed (g : FlowGraph) (done : List (Nat × Nat)) (found : List (Nat × BitSet)) : Prop where
  entry : ∀ body ∈ found, ∃ b, g.Closes b body.1 ∧ body.2.bound = g.size ∧
    ∀ m, body.2.contains m = true ↔ g.Enclosed b body.1 m
  covers : ∀ edge ∈ done, ∃ body ∈ found, body.1 = edge.2 ∧ body.2.contains edge.1 = true
  distinct : found.Pairwise fun x y => x.2 ≠ y.2

theorem Listed.keep {done : List (Nat × Nat)} {found : List (Nat × BitSet)} (h : g.Listed done found)
    (hcovered : ∃ body ∈ found, body.1 = head ∧ body.2.contains b = true) : g.Listed (done ++ [(b, head)]) found := by
  refine ⟨h.entry, fun edge hedge => ?_, h.distinct⟩
  rcases List.mem_append.1 hedge with hedge | hedge
  · exact h.covers edge hedge
  · rw [List.mem_singleton.1 hedge]
    exact hcovered

theorem Listed.add (hg : g.Checked) {done : List (Nat × Nat)} {found : List (Nat × BitSet)} (h : g.Listed done found)
    (hc : g.Closes b head) (hnew : ∀ body ∈ found, body.2 ≠ g.loopBody g.reachable b head) :
    g.Listed (done ++ [(b, head)]) (found ++ [(head, g.loopBody g.reachable b head)]) := by
  obtain ⟨hbound, hcontains⟩ := contains_loopBody hg hc
  refine ⟨fun body hbody => ?_, fun edge hedge => ?_, ?_⟩
  · rcases List.mem_append.1 hbody with hbody | hbody
    · exact h.entry body hbody
    · rw [List.mem_singleton.1 hbody]
      exact ⟨b, hc, hbound, hcontains⟩
  · rcases List.mem_append.1 hedge with hedge | hedge
    · obtain ⟨body, hbody, hcovers⟩ := h.covers edge hedge
      exact ⟨body, List.mem_append_left _ hbody, hcovers⟩
    · rw [List.mem_singleton.1 hedge]
      exact ⟨_, List.mem_append_right _ (List.mem_singleton_self _), rfl, (hcontains b).2 hc.enclosed⟩
  · rw [List.pairwise_append]
    refine ⟨h.distinct, List.pairwise_singleton _ _, fun x hx y hy => ?_⟩
    rw [List.mem_singleton.1 hy]
    exact hnew x hx

/-- **A closing edge never meets a stray member**, and its loop is listed. -/
theorem exists_addLoop (hg : g.Checked) {dom : Dominance} (hdom : Dominance.ReadOff g dom) {done : List (Nat × Nat)}
    {found : List (Nat × BitSet)} (h : g.Listed done found) (hc : g.Closes b head) :
    ∃ found', g.addLoop g.reachable dom found (b, head) = .ok found' ∧ g.Listed (done ++ [(b, head)]) found' := by
  obtain ⟨hbound, hcontains⟩ := contains_loopBody hg hc
  have hstray : (g.loopBody g.reachable b head).toList.find? (!dom.dominates head ·) = none := by
    rw [List.find?_eq_none]
    intro m hm
    have hm' := (hcontains m).1 (BitSet.mem_toList.1 hm).2
    simpa using (hdom.dominates m (hm'.reaches hc) head).2 (hm'.dominates hc)
  simp only [addLoop, hstray]
  split
  · rename_i hany
    obtain ⟨body, hbody, hcovers⟩ := List.any_eq_true.1 hany
    rw [Bool.and_eq_true, beq_iff_eq] at hcovers
    exact ⟨found, rfl, h.keep ⟨body, hbody, hcovers⟩⟩
  · by_cases hsame : found.any (·.2 == g.loopBody g.reachable b head) = true
    · rw [if_pos hsame]
      obtain ⟨body, hbody, heq⟩ := List.any_eq_true.1 hsame
      rw [beq_iff_eq] at heq
      obtain ⟨b', hc', -, hcontains'⟩ := h.entry body hbody
      have hheader : body.1 = head := Enclosed.eq_header hc' hc fun m => by rw [← hcontains', heq, hcontains]
      refine ⟨found, rfl, h.keep ⟨body, hbody, hheader, ?_⟩⟩
      rw [heq, hcontains]
      exact hc.enclosed
    · rw [if_neg hsame]
      refine ⟨_, rfl, h.add hg hc fun body hbody heq => hsame ?_⟩
      exact List.any_eq_true.2 ⟨body, hbody, beq_iff_eq.2 heq⟩

theorem mem_closingEdges (hg : g.Checked) {dom : Dominance} (hdom : Dominance.ReadOff g dom) (b head : Nat) :
    (b, head) ∈ g.closingEdges g.spanningTree dom ↔ g.Closes b head := by
  simp only [closingEdges, List.mem_flatMap, List.mem_map, List.mem_filter, mem_order hg.toClosed, Prod.mk.injEq]
  constructor
  · rintro ⟨b', hb, head', ⟨hedge, hdominates⟩, rfl, rfl⟩
    exact ⟨hedge, hb, (hdom.dominates b' hb head').1 hdominates⟩
  · intro h
    exact ⟨b, h.reaches, head, ⟨h.edge, (hdom.dominates b h.reaches head).2 h.dominates⟩, rfl, rfl⟩

/-- The blocks that the walk discovers are those that are reached. -/
theorem loopBodies_eq (hg : g.Checked) (dom : Dominance) : g.loopBodies g.spanningTree dom =
    (g.closingEdges g.spanningTree dom).foldlM (g.addLoop g.reachable dom) [] := by
  have hreach : BitSet.ofPred g.size g.spanningTree.reaches = g.reachable := by
    refine ofPred_eq_reachable hg.toClosed fun b => ?_
    rw [SpanningTree.reaches, List.contains_iff_mem, mem_order hg.toClosed]
  rw [loopBodies, hreach]

theorem exists_loopBodies (hg : g.Checked) {dom : Dominance} (hdom : Dominance.ReadOff g dom) :
    ∃ bodies, g.loopBodies g.spanningTree dom = .ok bodies ∧ g.Listed (g.closingEdges g.spanningTree dom) bodies := by
  rw [loopBodies_eq hg]
  refine Outcome.exists_foldlM ⟨by simp, by simp, List.Pairwise.nil⟩ ?_
  rintro done ⟨b, head⟩ rest found horder hfound
  refine exists_addLoop hg hdom hfound ((mem_closingEdges hg hdom b head).1 ?_)
  rw [horder]
  simp

end FlowGraph

/-! ## The forest -/

namespace Loop

/-- Every member of `x` is one of `y`. -/
def Within (x y : Loop) : Prop := ∀ m, x.members.contains m = true → y.members.contains m = true

/-- No member of `x` is one of `y`. -/
def Apart (x y : Loop) : Prop := ∀ m, x.members.contains m = true → y.members.contains m = false

end Loop

namespace FlowGraph

variable {g : FlowGraph} {bodies : List (Nat × BitSet)}

theorem mem_loops_forestOf {loop : Loop} (h : loop ∈ (g.forestOf bodies).loops) : (loop.header, loop.members) ∈ bodies ∧
    loop.exits = BitSet.ofPred g.size fun b => loop.members.contains b && g.leaves loop.members b := by
  obtain ⟨body, hbody, rfl⟩ := List.mem_map.1 h
  exact ⟨hbody, rfl⟩

theorem exists_loop_of_mem {body : Nat × BitSet} (h : body ∈ bodies) :
    ∃ loop ∈ (g.forestOf bodies).loops, loop.header = body.1 ∧ loop.members = body.2 :=
  ⟨_, List.mem_map_of_mem h, rfl, rfl⟩

theorem depthOf_forestOf {b : Nat} (hb : b < g.size) :
    (g.forestOf bodies).depthOf b = (g.forestOf bodies).loops.countP (·.members.contains b) := by
  simp [LoopForest.depthOf, forestOf, hb, List.countP_map, Function.comp_def]

theorem leaves_iff {members : BitSet} {b : Nat} : g.leaves members b = true ↔
    ∃ e ∈ g.edgesOut b, e.kind = .normal ∧ members.contains e.target = false := by
  simp [leaves, normalSuccs]

section

variable {done : List (Nat × Nat)} (h : g.Listed done bodies)

include h

theorem Listed.loop {loop : Loop} (hloop : loop ∈ (g.forestOf bodies).loops) :
    ∃ b, g.Closes b loop.header ∧ loop.members.bound = g.size ∧
      ∀ m, loop.members.contains m = true ↔ g.Enclosed b loop.header m :=
  h.entry _ (mem_loops_forestOf hloop).1

theorem Listed.distinct_loops :
    (g.forestOf bodies).loops.Pairwise fun x y => ¬ ∀ m, x.members.contains m = y.members.contains m := by
  refine List.pairwise_map.2 (h.distinct.imp_of_mem fun {x y} hx hy hne heq => hne ?_)
  obtain ⟨-, -, hxbound, -⟩ := h.entry x hx
  obtain ⟨-, -, hybound, -⟩ := h.entry y hy
  exact BitSet.ext_contains (hxbound.trans hybound.symm) fun m => by rw [heq m]

/-- **Loops with different headers are apart or nested.** -/
theorem Listed.nested (hg : g.Checked) {x y : Loop} (hx : x ∈ (g.forestOf bodies).loops)
    (hy : y ∈ (g.forestOf bodies).loops) (hne : x.header ≠ y.header) : x.Apart y ∨ x.Within y ∨ y.Within x := by
  obtain ⟨b, hc, -, hcontains⟩ := h.loop hx
  obtain ⟨b', hc', -, hcontains'⟩ := h.loop hy
  by_cases hapart : x.Apart y
  · exact .inl hapart
  · simp only [Loop.Apart, not_forall, Bool.not_eq_false] at hapart
    obtain ⟨m, hm, hm'⟩ := hapart
    rw [hcontains] at hm
    rw [hcontains'] at hm'
    rcases (hm.dominates hc).total hg (hm'.dominates hc') (hm.reaches hc) with hdom | hdom
    · exact .inr (.inr fun k hk => (hcontains k).2 (Enclosed.nested hc hc' hne hdom hm hm' ((hcontains' k).1 hk)))
    · refine .inr (.inl fun k hk => (hcontains' k).2 ?_)
      exact Enclosed.nested hc' hc (Ne.symm hne) hdom hm' hm ((hcontains k).1 hk)

theorem Listed.exits (hg : g.Checked) {loop : Loop} (hloop : loop ∈ (g.forestOf bodies).loops) (b : Nat) :
    loop.exits.contains b = true ↔ loop.members.contains b = true ∧
      ∃ e ∈ g.edgesOut b, e.kind = .normal ∧ loop.members.contains e.target = false := by
  obtain ⟨b', hc, -, hcontains⟩ := h.loop hloop
  rw [(mem_loops_forestOf hloop).2, BitSet.contains_ofPred, Bool.and_eq_true, Bool.and_eq_true, decide_eq_true_iff,
    leaves_iff]
  exact and_iff_right_of_imp fun hb => hg.lt_of_reaches (((hcontains b).1 hb.1).reaches hc)

end

/-- **Loops are found without a fault**, from dominators that are read off the paths. -/
theorem exists_loopForest (hg : g.Checked) : ∃ dom bodies, Dominance.of g = .ok dom ∧ Dominance.ReadOff g dom ∧
    g.loopBodies g.spanningTree dom = .ok bodies ∧ g.Listed (g.closingEdges g.spanningTree dom) bodies ∧
    g.findLoops g.spanningTree dom = .ok (g.forestOf bodies) ∧ g.loopForest = .ok (g.forestOf bodies) := by
  obtain ⟨dom, hdom, hreadOff⟩ := Dominance.exists_of hg
  obtain ⟨bodies, hbodies, hlisted⟩ := exists_loopBodies hg hreadOff
  have hfind : g.findLoops g.spanningTree dom = .ok (g.forestOf bodies) := Outcome.bind_eq_ok.2 ⟨bodies, hbodies, rfl⟩
  exact ⟨dom, bodies, hdom, hreadOff, hbodies, hlisted, hfind, Outcome.bind_eq_ok.2 ⟨dom, hdom, hfind⟩⟩

/-- **The loops of every checked graph are what its closing edges enclose**, each set of members once, apart or nested
where the headers differ, and no stray member is met in finding them. -/
theorem findLoops_well_nested {o : Outline} {g : FlowGraph} (h : ofOutline o = .ok g) :
    ∃ dom forest, Dominance.of g = .ok dom ∧ g.findLoops g.spanningTree dom = .ok forest ∧ g.loopForest = .ok forest ∧
      (∀ loop ∈ forest.loops, ∃ b, g.Closes b loop.header ∧
        ∀ m, loop.members.contains m = true ↔ g.Enclosed b loop.header m) ∧
      (∀ b head, g.Closes b head → ∃ loop ∈ forest.loops, loop.header = head ∧ loop.members.contains b = true) ∧
      (forest.loops.Pairwise fun x y => ¬ ∀ m, x.members.contains m = y.members.contains m) ∧
      (∀ x ∈ forest.loops, ∀ y ∈ forest.loops, x.header ≠ y.header → x.Apart y ∨ x.Within y ∨ y.Within x) ∧
      (∀ loop ∈ forest.loops, ∀ b, loop.exits.contains b = true ↔ loop.members.contains b = true ∧
        ∃ e ∈ g.edgesOut b, e.kind = .normal ∧ loop.members.contains e.target = false) ∧
      ∀ b, g.Reaches b → forest.depthOf b = forest.loops.countP (·.members.contains b) := by
  have hg := checked_ofOutline h
  obtain ⟨dom, bodies, hdom, hreadOff, -, hlisted, hfind, hforest⟩ := exists_loopForest hg
  refine ⟨dom, g.forestOf bodies, hdom, hfind, hforest, fun loop hloop => ?_, fun b head hc => ?_,
    hlisted.distinct_loops, fun x hx y hy => hlisted.nested hg hx hy, fun loop hloop => hlisted.exits hg hloop,
    fun b hb => ?_⟩
  · obtain ⟨b, hc, -, hcontains⟩ := hlisted.loop hloop
    exact ⟨b, hc, hcontains⟩
  · obtain ⟨body, hbody, hheader, hcovers⟩ := hlisted.covers _ ((mem_closingEdges hg hreadOff b head).2 hc)
    obtain ⟨loop, hloop, hheader', hmembers⟩ := exists_loop_of_mem (g := g) hbody
    exact ⟨loop, hloop, hheader'.trans hheader, hmembers ▸ hcovers⟩
  · exact depthOf_forestOf (hg.lt_of_reaches hb)

/-- Block one heads a loop that blocks four and two close, and holds the loop of blocks two and three; block four follows
itself, and block six is a handler of block two. -/
def nestedLoops : Outline :=
  ⟨0, [⟨[1], false, false, false, [0]⟩, ⟨[2, 5], false, false, false, [1]⟩, ⟨[3, 6, 1], false, false, false, [2]⟩,
    ⟨[2, 4], false, false, false, [3]⟩, ⟨[1, 4], false, false, false, [4]⟩, ⟨[], false, false, false, [5]⟩,
    ⟨[5], true, false, false, [6]⟩]⟩

theorem findLoops_well_nested_nestedLoops : ∃ g dom forest, ofOutline nestedLoops = .ok g ∧ Dominance.of g = .ok dom ∧
    g.findLoops g.spanningTree dom = .ok forest ∧
    forest.loops.map (fun loop => (loop.header, loop.members.toList, loop.exits.toList, loop.depth)) =
      [(1, [1, 2, 3], [1, 3], 2), (2, [2, 3], [2, 3], 3), (1, [1, 2, 3, 4], [1], 2), (4, [4], [4], 2)] ∧
    ∀ x ∈ forest.loops, ∀ y ∈ forest.loops, x.header ≠ y.header → x.Apart y ∨ x.Within y ∨ y.Within x := by
  obtain ⟨g, hg⟩ : ∃ g, ofOutline nestedLoops = .ok g := ⟨_, rfl⟩
  obtain ⟨dom, forest, hdom, hfind, hforest, -, -, -, hnested, -⟩ := findLoops_well_nested hg
  have heval : (ofOutline nestedLoops).toOption.map (fun g => g.loopForest.toOption.map fun forest =>
      forest.loops.map fun loop => (loop.header, loop.members.toList, loop.exits.toList, loop.depth)) =
      some (some [(1, [1, 2, 3], [1, 3], 2), (2, [2, 3], [2, 3], 3), (1, [1, 2, 3, 4], [1], 2), (4, [4], [4], 2)]) := by
    decide +kernel
  exact ⟨g, dom, forest, hg, hdom, hfind, Outcome.eq_of_eval hforest (Outcome.eq_of_eval hg heval), hnested⟩

end FlowGraph

end CodeImage
