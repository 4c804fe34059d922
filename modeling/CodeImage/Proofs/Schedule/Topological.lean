import Mathlib.Data.Finset.Card
import CodeImage.Proofs.Flow.Loops
import CodeImage.Proofs.Schedule.Layers
import CodeImage.Proofs.Schedule.Readiness
import CodeImage.Proofs.Schedule.StraightLines
/-!
# Topological — which edges of acyclic code ascend

In acyclic code the joins make no cycle: an edge within a group ascends, and the groups can be put in an order in which all
edges between equally cold blocks do (`sortable_of`).  The numbering need not find that order.  It numbers a group when all
that lead to it have been met, also where these have not been numbered, so that a group can be overtaken by one that it leads
to: an edge between two groups ascends exactly when the first becomes ready before the second (`ascends_iff_ready`).
-/
namespace CodeImage

namespace Outline

/-- **No block that control reaches leads back to itself.** -/
def Acyclic (o : Outline) : Prop := ∀ b, o.Reaches b → ¬Relation.TransGen o.Steps b b

theorem acyclic_of_level {o : Outline} (level : Nat → Nat) (h : ∀ a b, o.Steps a b → level a < level b) : o.Acyclic := by
  have hup : ∀ a b, Relation.TransGen o.Steps a b → level a < level b := by
    intro a b hab
    induction hab with
    | single hstep => exact h _ _ hstep
    | tail _ hstep ih => exact Nat.lt_trans ih (h _ _ hstep)
  exact fun b _ hb => Nat.lt_irrefl _ (hup b b hb)

open scoped Classical in
/-- How many blocks lead to a block. -/
noncomputable def rank (o : Outline) (b : Nat) : Nat :=
  ((Finset.range o.size).filter fun a => Relation.TransGen o.Steps a b).card

theorem lt_size_of_leads {o : Outline} {a b : Nat} (h : Relation.TransGen o.Steps a b) : a < o.size := by
  obtain ⟨c, ⟨block, hblock, -⟩, -⟩ := Relation.TransGen.head'_iff.1 h
  exact (List.getElem?_eq_some_iff.1 hblock).1

theorem Acyclic.rank_lt {o : Outline} (h : o.Acyclic) {a b : Nat} (ha : o.Reaches a) (hab : Relation.TransGen o.Steps a b) :
    o.rank a < o.rank b := by
  classical
  refine Finset.card_lt_card (Finset.ssubset_iff_of_subset ?_ |>.2 ⟨a, ?_, ?_⟩)
  · intro x hx
    rw [Finset.mem_filter] at hx ⊢
    exact ⟨hx.1, hx.2.trans hab⟩
  · rw [Finset.mem_filter, Finset.mem_range]
    exact ⟨lt_size_of_leads hab, hab⟩
  · rw [Finset.mem_filter]
    exact fun hself => h a ha hself.2

end Outline

namespace FlowGraph

variable {o : Outline} {g : FlowGraph}

theorem Path.leads {a b : Nat} {l : List Nat} (h : g.Path a b l) : Relation.ReflTransGen (fun a s => s ∈ g.succs a) a b := by
  induction h with
  | stay => exact .refl
  | step edge _ ih => exact .head edge ih

/-- **Acyclic code has no loops.** -/
theorem loopForest_of_acyclic (ho : ofOutline o = .ok g) (h : o.Acyclic) : g.loopForest = .ok (g.forestOf []) := by
  have hg := checked_ofOutline ho
  obtain ⟨dom, hdom, hreadOff⟩ := Dominance.exists_of hg
  have hclosing : g.closingEdges g.spanningTree dom = [] := by
    refine List.eq_nil_iff_forall_not_mem.2 fun ⟨b, head⟩ hmem => ?_
    have hcloses := (mem_closingEdges hg hreadOff b head).1 hmem
    have hstep := (mem_succs_ofOutline ho b head).1 hcloses.edge
    have hreach := (reaches_ofOutline ho b).1 hcloses.reaches
    -- control comes to `b` through the header, and from there back to it
    obtain ⟨l, hl⟩ := reaches_iff_path.1 hcloses.reaches
    obtain ⟨front, back, rfl⟩ := List.append_of_mem (hcloses.dominates l hl)
    have hleads := (hl.split_append).2.leads
    have hleads : Relation.ReflTransGen o.Steps head b :=
      Relation.ReflTransGen.mono (fun a s => (mem_succs_ofOutline ho a s).1) _ _ hleads
    exact h head (hreach.tail hstep) (Relation.TransGen.tail' hleads hstep)
  have hbodies : g.loopBodies g.spanningTree dom = .ok [] := by
    rw [loopBodies, hclosing]
    rfl
  exact Outcome.bind_eq_ok.2 ⟨dom, hdom, Outcome.bind_eq_ok.2 ⟨[], hbodies, rfl⟩⟩

end FlowGraph

namespace Schedule

/-- **What the schedule of acyclic code keeps of its direction.** -/
structure Directed (o : Outline) (sizes : Array Nat) (slots : SlotGraph) (s : Schedule) : Prop where
  /-- A block with bytes owns its slot. -/
  solid : ∀ b, o.Reaches b → sizes[b]?.getD 0 ≠ 0 → s.slotOwner b = b
  /-- The groups are the rows of the slots that the merges left. -/
  groups : s.groups.Perm (slots.mergeAll.rows.map Run.blocks)
  /-- Some order of the groups is topological. -/
  sortable : ∃ groups : List (List Nat), groups.Perm s.groups ∧ groups.flatten.Pairwise fun x y =>
    s.isCold x = s.isCold y → ¬s.Links o y x
  /-- An edge ascends within a group, or else when its source becomes ready before its target; so it does when the source
  is ready as soon as it is met. -/
  edges : ∀ a b, o.Reaches a → o.Steps a b → o.isHandler b = false → s.slotOwner a ≠ s.slotOwner b →
    s.isCold a = s.isCold b →
    ∃ i j, s.indexOf a = some i ∧ s.indexOf b = some j ∧
      ∃ r ∈ slots.mergeAll.rows, ∃ q ∈ slots.mergeAll.rows, s.slotOwner a ∈ r.blocks ∧ s.slotOwner b ∈ q.blocks ∧
        (i < j ↔ r = q ∨ slots.ReadyBefore (slots.meetings slots.mergeAll.rows) r q) ∧
        ((∃ k, slots.Ready (slots.meetings slots.mergeAll.rows) k r ∧ r ∉ (slots.meetings slots.mergeAll.rows).take k) → i < j)

section Of

variable {o : Outline} {g : FlowGraph} (ho : FlowGraph.ofOutline o = .ok g) {forest : LoopForest} (sizes : Array Nat)

include ho

/-- Where control passes from slot to slot it leads from the owner of the one to the owner of the other. -/
theorem leads_of_links {u v : Nat} (h : (byRuns g forest sizes).Links o u v) :
    o.Reaches u ∧ Relation.TransGen o.Steps u v := by
  have hg := FlowGraph.closed_ofOutline ho
  obtain ⟨hne, x, y, hx, hy, hstep, hnormal, rfl, rfl⟩ := h
  have hown : ∀ {z}, o.Reaches z → (g.ownership sizes).ownerOf z = some ((byRuns g forest sizes).slotOwner z) := by
    intro z hz
    rw [← FlowGraph.reaches_ofOutline ho, ← FlowGraph.ownerOf_isSome_iff hg sizes, Option.isSome_iff_exists] at hz
    obtain ⟨t, ht⟩ := hz
    rw [slotOwner_of sizes hg, ht, Option.getD_some]
  -- a hollow block leads into its own slot only
  have hsolid : (byRuns g forest sizes).slotOwner x = x := by
    by_contra hhollow
    obtain ⟨n, hn, howner⟩ := (FlowGraph.settled_ownership hg sizes).falls x _ (hown hx) (Ne.symm hhollow)
    have hsucc := ((FlowGraph.fallThrough_eq_some_iff g sizes x n).1 hn).2
    have hyn : y = n := by
      have := (FlowGraph.mem_normalSuccs_ofOutline ho x y).2 ⟨hstep, hnormal⟩
      rwa [hsucc, List.mem_singleton] at this
    rw [← hyn, hown hy] at howner
    exact hne (Option.some.inj howner).symm
  rw [hsolid]
  refine ⟨hx, Relation.TransGen.head' hstep ?_⟩
  refine Relation.ReflTransGen.mono (fun a n hn => ?_) _ _ ((g.traced_ownership sizes).leads (hown hy))
  exact (FlowGraph.mem_succs_ofOutline ho a n).1 (FlowGraph.mem_succs_of_fallThrough hn)

/-- **The runs of acyclic code are layered.** -/
theorem layered_of (hforest : g.loopForest = .ok forest) (h : o.Acyclic) :
    let slots := SlotGraph.of g forest (g.ownership sizes)
    slots.Layered slots.joinAll := by
  cases hforest.symm.trans (FlowGraph.loopForest_of_acyclic ho h)
  refine SlotGraph.layered_joinAll (tidy_of ho _ sizes) ?_ (fun b => ?_) o.rank fun l hl => ?_
  · simp [SlotGraph.of, FlowGraph.forestOf]
  · exact BitSet.contains_empty _ _
  · obtain ⟨hreach, hleads⟩ := leads_of_links ho sizes ((links_iff ho sizes l.source l.target).2 hl)
    exact h.rank_lt hreach hleads

theorem groups_perm : (byRuns g forest sizes).groups.Perm
    ((SlotGraph.of g forest (g.ownership sizes)).joinAll.map Run.blocks) := by
  rw [groups_of]
  exact (numberRuns_of (FlowGraph.closed_ofOutline ho) forest sizes).2.1.map _

/-- **Some order of the groups is topological**: by their levels. -/
theorem sortable_of (hforest : g.loopForest = .ok forest) (h : o.Acyclic) :
    ∃ groups : List (List Nat), groups.Perm (byRuns g forest sizes).groups ∧ groups.flatten.Pairwise fun x y =>
      (byRuns g forest sizes).isCold x = (byRuns g forest sizes).isCold y → ¬(byRuns g forest sizes).Links o y x := by
  have hlayers := layered_of ho sizes hforest h
  obtain ⟨level, hlevel⟩ := hlayers.level
  have htidy := tidy_of ho forest sizes
  have hdiv := (numberRuns_of (FlowGraph.closed_ofOutline ho) forest sizes).1
  have hperm := List.mergeSort_perm (SlotGraph.of g forest (g.ownership sizes)).joinAll
    fun a b => decide (level a ≤ level b)
  have hsorted := @List.pairwise_mergeSort _ (fun a b : Run => decide (level a ≤ level b))
    (fun a b c hab hbc => by simp only [decide_eq_true_eq] at hab hbc ⊢; omega)
    (fun a b => by simp only [Bool.or_eq_true, decide_eq_true_eq]; omega)
    (SlotGraph.of g forest (g.ownership sizes)).joinAll
  have hnodup := hperm.nodup_iff.2 (hdiv.nodup htidy.owners)
  refine ⟨_, (hperm.map Run.blocks).trans (groups_perm ho sizes).symm, List.pairwise_flatten.2 ⟨fun group hgroup => ?_, ?_⟩⟩
  · obtain ⟨r, hr, rfl⟩ := List.mem_map.1 hgroup
    refine (hlayers.row r (hperm.mem_iff.1 hr)).imp fun {x y} hnone _ hlink => ?_
    exact hnone ((links_iff ho sizes y x).1 hlink)
  · refine List.pairwise_map.2 ((hsorted.and hnodup).imp_of_mem fun {a b} ha hb hab x hx y hy hcold hlink => ?_)
    have ha := hperm.mem_iff.1 ha
    have hb := hperm.mem_iff.1 hb
    obtain ⟨hv, hu⟩ := mem_order_of_links ho sizes hlink
    rw [isCold_eq ho sizes hu, isCold_eq ho sizes hv] at hcold
    have hleads : (SlotGraph.of g forest (g.ownership sizes)).Leads b a :=
      ⟨⟨y, x⟩, ⟨(links_iff ho sizes y x).1 hlink, hy, hdiv.not_mem htidy.owners ha hb hab.2 hx, hcold.symm⟩, hx⟩
    have hle := of_decide_eq_true hab.1
    exact absurd (hlevel b a ⟨hb, ha, hleads⟩) (Nat.not_lt.2 hle)

/-- **How two blocks of the order stand to each other.** -/
theorem pairwise_order (hforest : g.loopForest = .ok forest) (h : o.Acyclic) :
    let slots := SlotGraph.of g forest (g.ownership sizes)
    (byRuns g forest sizes).order.Pairwise fun x y => ∀ r ∈ slots.joinAll, ∀ q ∈ slots.joinAll,
      x ∈ r.blocks → y ∈ q.blocks → r = q ∧ ⟨y, x⟩ ∉ slots.links ∨
        r ≠ q ∧ (slots.runCold r = slots.runCold q → slots.ReadyBefore (slots.meetings slots.joinAll) r q) := by
  intro slots
  have htidy := tidy_of ho forest sizes
  obtain ⟨hdiv, hperm, -⟩ := numberRuns_of (FlowGraph.closed_ofOutline ho) forest sizes
  have hsame : ∀ {r q : Run} {x : Nat}, r ∈ slots.joinAll → q ∈ slots.joinAll → x ∈ r.blocks → x ∈ q.blocks → r = q :=
    fun hr hq => hdiv.eq_of_mem htidy.owners hr hq
  have hnodup := hperm.nodup_iff.2 (hdiv.nodup htidy.owners)
  rw [order_of, groups_of]
  refine List.pairwise_flatten.2 ⟨fun group hgroup => ?_, ?_⟩
  · obtain ⟨s, hs, rfl⟩ := List.mem_map.1 hgroup
    have hs := hperm.mem_iff.1 hs
    refine ((layered_of ho sizes hforest h).row s hs).imp_of_mem fun {x y} hx hy hnone r hr q hq hxr hyq => .inl ⟨?_, hnone⟩
    exact (hsame hr hs hxr hx).trans (hsame hs hq hy hyq)
  · refine List.pairwise_map.2 (((SlotGraph.pairwise_numberRuns htidy hdiv).and hnodup).imp_of_mem
      fun {s t} hs ht hst x hx y hy r hr q hq hxr hyq => .inr ?_)
    cases hsame hr (hperm.mem_iff.1 hs) hxr hx
    cases hsame hq (hperm.mem_iff.1 ht) hyq hy
    exact ⟨hst.2, hst.1⟩

/-- **A link ascends** within a run, or else when its source becomes ready before its target. -/
theorem link_ascends_iff (hforest : g.loopForest = .ok forest) (h : o.Acyclic) {u v i j : Nat}
    (hlink : (byRuns g forest sizes).Links o u v)
    (hcold : (byRuns g forest sizes).isCold u = (byRuns g forest sizes).isCold v)
    (hi : (byRuns g forest sizes).order[i]? = some u) (hj : (byRuns g forest sizes).order[j]? = some v) {r q : Run}
    (hr : r ∈ (SlotGraph.of g forest (g.ownership sizes)).joinAll)
    (hq : q ∈ (SlotGraph.of g forest (g.ownership sizes)).joinAll)
    (hu : u ∈ r.blocks) (hv : v ∈ q.blocks) :
    let slots := SlotGraph.of g forest (g.ownership sizes)
    i < j ↔ r = q ∨ slots.ReadyBefore (slots.meetings slots.joinAll) r q := by
  intro slots
  obtain ⟨hdiv, -⟩ := numberRuns_of (FlowGraph.closed_ofOutline ho) forest sizes
  have hpairs := List.pairwise_iff_getElem.1 (pairwise_order ho sizes hforest h)
  obtain ⟨hilt, hi⟩ := List.getElem?_eq_some_iff.1 hi
  obtain ⟨hjlt, hj⟩ := List.getElem?_eq_some_iff.1 hj
  obtain ⟨huo, hvo⟩ := mem_order_of_links ho sizes hlink
  have hruns : slots.runCold r = slots.runCold q := by
    rw [isCold_eq ho sizes huo, isCold_eq ho sizes hvo, hdiv.cold r hr u hu, hdiv.cold q hq v hv] at hcold
    exact hcold
  constructor
  · intro hlt
    rcases hpairs i j hilt hjlt hlt r hr q hq (hi ▸ hu) (hj ▸ hv) with ⟨heq, -⟩ | ⟨-, hready⟩
    · exact .inl heq
    · exact .inr (hready hruns)
  · intro hready
    by_contra hge
    have hne : j ≠ i := by
      rintro rfl
      exact hlink.1 (hi.symm.trans hj)
    -- the other way round the link would lead back, or the target be ready first
    rcases hpairs j i hjlt hilt (by omega) q hq r hr (hj ▸ hv) (hi ▸ hu) with ⟨-, hnone⟩ | ⟨hqr, hlate⟩
    · rw [hi, hj] at hnone
      exact hnone ((links_iff ho sizes u v).1 hlink)
    · rcases hready with rfl | hready
      · exact hqr rfl
      · exact hready.asymm (hlate hruns.symm)

/-- A run that is ready when it is first met is ready before those that it leads to. -/
theorem readyBefore_of_prompt {u v k : Nat} (hlink : (byRuns g forest sizes).Links o u v) {r q : Run}
    (hr : r ∈ (SlotGraph.of g forest (g.ownership sizes)).joinAll)
    (hq : q ∈ (SlotGraph.of g forest (g.ownership sizes)).joinAll)
    (hu : u ∈ r.blocks) (hv : v ∈ q.blocks) (hne : r ≠ q) :
    let slots := SlotGraph.of g forest (g.ownership sizes)
    slots.Ready (slots.meetings slots.joinAll) k r → r ∉ (slots.meetings slots.joinAll).take k →
      slots.ReadyBefore (slots.meetings slots.joinAll) r q := by
  intro slots hready hfirst
  obtain ⟨hdiv, -⟩ := numberRuns_of (FlowGraph.closed_ofOutline ho) forest sizes
  refine ⟨k, hready, fun j hj ⟨_, hmet⟩ => ?_⟩
  obtain ⟨p, hp, hup⟩ := hmet ⟨u, v⟩ ((SlotGraph.mem_across Link.target Link.source q ⟨u, v⟩).2
    ⟨(links_iff ho sizes u v).1 hlink, hv, hdiv.not_mem (tidy_of ho forest sizes).owners hr hq hne hu⟩)
  have hpr : p = r :=
    hdiv.eq_of_mem (tidy_of ho forest sizes).owners (SlotGraph.meetings_subset (List.mem_of_mem_take hp)) hr hup hu
  exact hfirst (hpr ▸ List.take_subset_take_left _ hj hp)

/-- A block with bytes owns its slot. -/
theorem slotOwner_of_bytes {b : Nat} (hb : o.Reaches b) (hsize : sizes[b]?.getD 0 ≠ 0) :
    (byRuns g forest sizes).slotOwner b = b := by
  have hg := FlowGraph.closed_ofOutline ho
  by_contra hhollow
  rw [slotOwner_of sizes hg] at hhollow
  rw [← FlowGraph.reaches_ofOutline ho, ← FlowGraph.ownerOf_isSome_iff hg sizes, Option.isSome_iff_exists] at hb
  obtain ⟨t, ht⟩ := hb
  rw [ht, Option.getD_some] at hhollow
  obtain ⟨n, hn, -⟩ := (FlowGraph.settled_ownership hg sizes).falls b t ht (Ne.symm hhollow)
  exact hsize ((FlowGraph.fallThrough_eq_some_iff g sizes b n).1 hn).1

theorem edges_of (hforest : g.loopForest = .ok forest) (h : o.Acyclic) {a b : Nat} (ha : o.Reaches a)
    (hstep : o.Steps a b) (hnormal : o.isHandler b = false)
    (hslots : (byRuns g forest sizes).slotOwner a ≠ (byRuns g forest sizes).slotOwner b)
    (hcold : (byRuns g forest sizes).isCold a = (byRuns g forest sizes).isCold b) :
    ∃ i j, (byRuns g forest sizes).indexOf a = some i ∧ (byRuns g forest sizes).indexOf b = some j ∧
      ∃ r ∈ (SlotGraph.of g forest (g.ownership sizes)).joinAll, ∃ q ∈ (SlotGraph.of g forest (g.ownership sizes)).joinAll,
        (byRuns g forest sizes).slotOwner a ∈ r.blocks ∧ (byRuns g forest sizes).slotOwner b ∈ q.blocks ∧
        let slots := SlotGraph.of g forest (g.ownership sizes)
        (i < j ↔ r = q ∨ slots.ReadyBefore (slots.meetings slots.joinAll) r q) ∧
        ((∃ k, slots.Ready (slots.meetings slots.joinAll) k r ∧ r ∉ (slots.meetings slots.joinAll).take k) → i < j) := by
  have hcomplete := complete_byRuns ho forest sizes
  have hb := ha.tail hstep
  have hlink : (byRuns g forest sizes).Links o _ _ := ⟨hslots, a, b, ha, hb, hstep, hnormal, rfl, rfl⟩
  obtain ⟨i, hi⟩ := List.mem_iff_getElem?.1 (hcomplete.slotOwner_mem ha)
  obtain ⟨j, hj⟩ := List.mem_iff_getElem?.1 (hcomplete.slotOwner_mem hb)
  obtain ⟨hindexA, hcoldA⟩ := hcomplete.shared_slotOwner ha
  obtain ⟨hindexB, hcoldB⟩ := hcomplete.shared_slotOwner hb
  rw [hcoldA, hcoldB] at hcold
  obtain ⟨hdiv, -⟩ := numberRuns_of (FlowGraph.closed_ofOutline ho) forest sizes
  have hslot := (links_iff ho sizes _ _).1 hlink
  obtain ⟨r, hr, har⟩ := hdiv.exists_run ((tidy_of ho forest sizes).source _ hslot)
  obtain ⟨q, hq, hbq⟩ := hdiv.exists_run ((tidy_of ho forest sizes).target _ hslot)
  have hiff := link_ascends_iff ho sizes hforest h hlink hcold hi hj hr hq har hbq
  refine ⟨i, j, hindexA.trans (hcomplete.index _ _ hi), hindexB.trans (hcomplete.index _ _ hj), r, hr, q, hq, har, hbq, hiff, ?_⟩
  rintro ⟨k, hready, hfirst⟩
  by_cases hrq : r = q
  · exact hiff.2 (.inl hrq)
  · exact hiff.2 (.inr (readyBefore_of_prompt ho sizes hlink hr hq har hbq hrq hready hfirst))

end Of

/-- **Which edges of acyclic code ascend.**  Whatever the sizes of the blocks, an edge within a group ascends and so does
every edge between equally cold groups of which the first becomes ready before the second; no other edge between equally
cold slots does.  The joins are not to blame: some order of the groups is topological. -/
theorem ascends_iff_ready (o : Outline) (sizes : Array Nat) (h : o.InRange) (hacyclic : o.Acyclic) :
    ∃ g forest s, FlowGraph.ofOutline o = .ok g ∧ g.loopForest = .ok forest ∧ Schedule.of g sizes = .ok s ∧
      Directed o sizes (SlotGraph.of g forest (g.ownership sizes)) s := by
  obtain ⟨g, hg⟩ := FlowGraph.exists_ofOutline h
  obtain ⟨-, forest, -, -, hforest, -, hof⟩ := exists_of hg sizes
  have hrows := SlotForest.rows_mergeAll (tidy_of hg forest sizes)
  refine ⟨g, forest, _, hg, hforest, hof, fun b => slotOwner_of_bytes hg sizes, ?_,
    sortable_of hg sizes hforest hacyclic, ?_⟩
  · rw [hrows]
    exact groups_perm hg sizes
  · intro a b ha hstep hnormal hslots hcold
    simpa only [hrows] using edges_of hg sizes hforest hacyclic ha hstep hnormal hslots hcold

/-- Block one waits for block five when it is met first; by the time it is met again, the blocks that it leads to have
been numbered. -/
def overtaken : Outline :=
  ⟨0, [⟨[1, 2], false, false, false, []⟩, ⟨[3, 4], false, false, false, []⟩, ⟨[5, 6], false, false, false, []⟩,
    ⟨[], false, false, false, []⟩, ⟨[], false, false, false, []⟩, ⟨[1], false, false, false, []⟩,
    ⟨[], false, false, false, []⟩]⟩

theorem overtaken_acyclic : overtaken.Acyclic := by
  refine Outline.acyclic_of_level (fun b => [0, 3, 1, 4, 4, 2, 2].getD b 0) ?_
  rintro a b ⟨block, hblock, hb⟩
  have hall : ∀ n < 7, ∀ block ∈ overtaken.blocks[n]?, ∀ s ∈ block.succs,
      [0, 3, 1, 4, 4, 2, 2].getD n 0 < [0, 3, 1, 4, 4, 2, 2].getD s 0 := by decide
  exact hall a (List.getElem?_eq_some_iff.1 hblock).1 block hblock b hb

theorem ascends_iff_ready_overtaken : overtaken.InRange ∧ overtaken.Acyclic ∧
    ∃ g forest s, FlowGraph.ofOutline overtaken = .ok g ∧ g.loopForest = .ok forest ∧
      Schedule.of g #[4, 4, 4, 4, 4, 4, 4] = .ok s ∧
      Directed overtaken #[4, 4, 4, 4, 4, 4, 4] (SlotGraph.of g forest (g.ownership #[4, 4, 4, 4, 4, 4, 4])) s ∧
      overtaken.Reaches 1 ∧ overtaken.Steps 1 3 ∧ s.cold = [false, false, false, false, false, false, false] ∧
      s.index = [some 0, some 5, some 3, some 1, some 2, some 4, some 6] := by
  have h : overtaken.InRange := ⟨by decide, by decide⟩
  obtain ⟨g, forest, s, hg, hforest, hs, hdirected⟩ :=
    ascends_iff_ready overtaken #[4, 4, 4, 4, 4, 4, 4] h overtaken_acyclic
  have heval : (FlowGraph.ofOutline overtaken).toOption.map (fun g =>
      (Schedule.of g #[4, 4, 4, 4, 4, 4, 4]).toOption.map fun s => (s.cold, s.index)) =
        some (some ([false, false, false, false, false, false, false],
          [some 0, some 5, some 3, some 1, some 2, some 4, some 6])) := by decide +kernel
  have hvalue := Outcome.eq_of_eval hs (Outcome.eq_of_eval hg heval)
  obtain ⟨hcold, hindex⟩ := Prod.mk.inj hvalue
  exact ⟨h, overtaken_acyclic, g, forest, s, hg, hforest, hs, hdirected, .single ⟨_, rfl, by decide⟩, ⟨_, rfl, by decide⟩,
    hcold, hindex⟩

end Schedule

end CodeImage
