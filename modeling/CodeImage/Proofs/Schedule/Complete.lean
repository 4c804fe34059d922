import CodeImage.Proofs.Flow.Loops
import CodeImage.Proofs.Schedule.Reading
/-!
# Complete — a schedule places every reachable block once

`Schedule.Complete` says what a schedule owes to the method it was made for.  Every outline whose entry and successors
exist has a complete schedule, whatever the sizes of its blocks (`exists_complete_schedule`).
-/
namespace CodeImage

namespace Schedule

/-- **A schedule that places every reachable block of an outline once.** -/
structure Complete (o : Outline) (g : FlowGraph) (s : Schedule) : Prop where
  /-- Exactly the reachable blocks have an index. -/
  scheduled : ∀ b, s.isScheduled b = true ↔ o.Reaches b
  /-- No block stands in the order twice. -/
  nodup : s.order.Nodup
  /-- The order lists the reachable blocks that own their slots. -/
  mem_order : ∀ b, b ∈ s.order ↔ o.Reaches b ∧ s.alias? b = none
  /-- The index of a block is its place in the order. -/
  index : ∀ n b, s.order[n]? = some b → s.indexOf b = some n
  /-- Every other reachable block shares place and coldness of the block that it falls into. -/
  shared : ∀ b, o.Reaches b → b ∉ s.order →
    ∃ t ∈ s.order, s.alias? b = some t ∧ s.indexOf b = s.indexOf t ∧ s.isCold b = s.isCold t
  /-- Hot code stands in front of cold code. -/
  hotFirst : s.order.Pairwise fun a b => s.isCold a = true → s.isCold b = true
  /-- A block that owns its slot is cold when control cannot come to it through hot code. -/
  cold : ∀ b ∈ s.order, s.isCold b = g.cold.contains b
  /-- The groups in their order are the order. -/
  flatten_groups : s.groups.flatten = s.order
  /-- A group is all hot or all cold. -/
  groupCold : ∀ group ∈ s.groups, ∀ a ∈ group, ∀ b ∈ group, s.isCold a = s.isCold b

/-- A list with one item per block, read at a block. -/
theorem getD_map_range {α : Type} (f : Nat → α) {n b : Nat} {d : α} (h : n ≤ b → f b = d) :
    ((List.range n).map f)[b]?.getD d = f b := by
  rw [List.getElem?_map]
  by_cases hb : b < n
  · rw [List.getElem?_range hb]; rfl
  · rw [List.getElem?_eq_none (by simpa using hb), h (by omega)]; rfl

theorem join_map_range {α : Type} (f : Nat → Option α) {n b : Nat} (h : n ≤ b → f b = none) :
    (((List.range n).map f)[b]?).join = f b := by
  have := getD_map_range f h
  cases hx : ((List.range n).map f)[b]? with
  | none => rw [hx] at this; exact this
  | some x => rw [hx] at this; exact this

section Of

variable {g : FlowGraph} (hg : g.Closed) {forest : LoopForest} (sizes : Array Nat)

-- Each part of a schedule as a rewrite rule: comparing whole schedules would unfold the search behind them.
theorem order_of : (byRuns g forest sizes).order = (byRuns g forest sizes).groups.flatten := by
  rw [byRuns, ofRuns]

theorem index_of : (byRuns g forest sizes).index =
    (List.range g.size).map fun b => ((g.ownership sizes).ownerOf b).bind (byRuns g forest sizes).order.idxOf? := by
  rw [byRuns, ofRuns]

theorem cold_of : (byRuns g forest sizes).cold =
    (List.range g.size).map fun b => ((g.ownership sizes).ownerOf b).any g.cold.contains := by
  rw [byRuns, ofRuns]

theorem aliasOf_of : (byRuns g forest sizes).aliasOf = (List.range g.size).map (g.ownership sizes).aliasOf := by
  rw [byRuns, ofRuns]

theorem aliases_of : (byRuns g forest sizes).aliases = (List.range g.size).map (g.ownership sizes).aliasesOf := by
  rw [byRuns, ofRuns]

/-- **The groups are the runs that joining leaves**, in the order of their numbers. -/
theorem groups_of : (byRuns g forest sizes).groups = ((SlotGraph.of g forest (g.ownership sizes)).numberRuns
    (SlotGraph.of g forest (g.ownership sizes)).joinAll).map Run.blocks := by
  rw [byRuns, ofRuns]

include hg

theorem ownerOf_eq_none_of_le {b : Nat} (hb : g.size ≤ b) : (g.ownership sizes).ownerOf b = none := by
  rw [← Option.not_isSome_iff_eq_none, FlowGraph.ownerOf_isSome_iff hg]
  intro h
  have := hg.lt_of_reaches h
  omega

theorem indexOf_of (b : Nat) : (byRuns g forest sizes).indexOf b =
    ((g.ownership sizes).ownerOf b).bind (byRuns g forest sizes).order.idxOf? := by
  rw [indexOf, index_of]
  exact join_map_range _ fun h => by rw [ownerOf_eq_none_of_le hg sizes h]; rfl

theorem isCold_of (b : Nat) : (byRuns g forest sizes).isCold b =
    ((g.ownership sizes).ownerOf b).any g.cold.contains := by
  rw [isCold, cold_of]
  exact getD_map_range _ fun h => by rw [ownerOf_eq_none_of_le hg sizes h]; rfl

theorem alias?_of (b : Nat) : (byRuns g forest sizes).alias? b = (g.ownership sizes).aliasOf b := by
  rw [alias?, aliasOf_of]
  exact join_map_range _ fun h => by rw [Ownership.aliasOf, ownerOf_eq_none_of_le hg sizes h]; rfl

theorem mem_aliasesOf_of (b z : Nat) :
    z ∈ (byRuns g forest sizes).aliasesOf b ↔ (byRuns g forest sizes).alias? z = some b := by
  have hset := FlowGraph.settled_ownership hg sizes
  rw [alias?_of hg, ← Ownership.mem_aliasesOf hset]
  have : (byRuns g forest sizes).aliasesOf b = (g.ownership sizes).aliasesOf b := by
    rw [aliasesOf, aliases_of]
    refine getD_map_range _ fun h => List.eq_nil_iff_forall_not_mem.2 fun z hz => ?_
    have halias := (Ownership.mem_aliasesOf hset b z).1 hz
    have hown := hset.owner z b (Option.filter_eq_some_iff.1 halias).1
    rw [ownerOf_eq_none_of_le hg sizes h] at hown
    cases hown
  rw [this]

variable (forest) in
theorem numberRuns_of : let slots := SlotGraph.of g forest (g.ownership sizes)
    slots.Divided slots.joinAll ∧ (slots.numberRuns slots.joinAll).Perm slots.joinAll ∧
      ∃ hot cold, slots.numberRuns slots.joinAll = hot ++ cold ∧ (∀ r ∈ hot, slots.runCold r = false) ∧
        ∀ r ∈ cold, slots.runCold r = true := by
  have hnd : (SlotGraph.of g forest (g.ownership sizes)).owners.Nodup :=
    Ownership.nodup_owners (FlowGraph.settled_ownership hg sizes)
  exact ⟨SlotGraph.divided_joinAll hnd, SlotGraph.numberRuns_spec (SlotGraph.divided_joinAll hnd) hnd⟩

theorem order_perm : (byRuns g forest sizes).order.Perm (g.ownership sizes).owners := by
  obtain ⟨hdiv, hperm, -⟩ := numberRuns_of hg forest sizes
  have horder : (byRuns g forest sizes).order = ((SlotGraph.of g forest (g.ownership sizes)).numberRuns
      (SlotGraph.of g forest (g.ownership sizes)).joinAll).flatMap Run.blocks := by
    rw [order_of, groups_of, List.flatMap_def]
  rw [horder]
  exact (hperm.flatMap_right Run.blocks).trans hdiv.perm

theorem nodup_order_of : (byRuns g forest sizes).order.Nodup :=
  (order_perm hg sizes).nodup_iff.2 (Ownership.nodup_owners (FlowGraph.settled_ownership hg sizes))

theorem mem_order_of (b : Nat) : b ∈ (byRuns g forest sizes).order ↔ (g.ownership sizes).ownerOf b = some b := by
  rw [(order_perm hg sizes).mem_iff, Ownership.mem_owners (FlowGraph.settled_ownership hg sizes)]

theorem isCold_of_mem {b : Nat} (hb : b ∈ (byRuns g forest sizes).order) :
    (byRuns g forest sizes).isCold b = g.cold.contains b := by
  rw [isCold_of hg, (mem_order_of hg sizes b).1 hb]; rfl

theorem indexOf_of_getElem? {n b : Nat} (h : (byRuns g forest sizes).order[n]? = some b) :
    (byRuns g forest sizes).indexOf b = some n := by
  rw [indexOf_of hg, (mem_order_of hg sizes b).1 (List.mem_of_getElem? h), Option.bind_some,
    List.idxOf?_eq_some_iff]
  obtain ⟨hn, hb⟩ := List.getElem?_eq_some_iff.1 h
  refine ⟨hn, hb, fun j hj heq => ?_⟩
  have := (List.Nodup.getElem_inj_iff (nodup_order_of hg sizes)).1 (heq.trans hb.symm)
  omega

theorem scheduled_of (b : Nat) : (byRuns g forest sizes).isScheduled b = true ↔ g.Reaches b := by
  rw [isScheduled, indexOf_of hg, ← FlowGraph.ownerOf_isSome_iff hg sizes]
  cases ho : (g.ownership sizes).ownerOf b with
  | none => simp
  | some o =>
    have hmem : o ∈ (byRuns g forest sizes).order :=
      (mem_order_of hg sizes o).2 ((FlowGraph.settled_ownership hg sizes).owner b o ho)
    simp [List.isSome_idxOf?, hmem]

/-- **A block that does not own its slot shares place and coldness of its owner.** -/
theorem shared_of {b t : Nat} (h : (byRuns g forest sizes).alias? b = some t) :
    t ∈ (byRuns g forest sizes).order ∧ (byRuns g forest sizes).indexOf b = (byRuns g forest sizes).indexOf t ∧
      (byRuns g forest sizes).isCold b = (byRuns g forest sizes).isCold t := by
  rw [alias?_of hg] at h
  have hb := (Option.filter_eq_some_iff.1 h).1
  have ht := (FlowGraph.settled_ownership hg sizes).owner b t hb
  refine ⟨(mem_order_of hg sizes t).2 ht, ?_, ?_⟩
  · rw [indexOf_of hg, indexOf_of hg, hb, ht]
  · rw [isCold_of hg, isCold_of hg, hb, ht]

/-- **A block that shares a slot falls into another block of that slot.** -/
theorem falls_of {b t : Nat} (h : (byRuns g forest sizes).alias? b = some t) :
    ∃ n, g.fallThrough sizes b = some n ∧ (byRuns g forest sizes).slotOwner n = t := by
  rw [alias?_of hg, Ownership.aliasOf, Option.filter_eq_some_iff, bne_iff_ne] at h
  obtain ⟨n, hn, howner⟩ := (FlowGraph.settled_ownership hg sizes).falls b t h.1 h.2.symm
  refine ⟨n, hn, ?_⟩
  rw [slotOwner, alias?_of hg, Ownership.aliasOf, howner, Option.filter_some]
  split
  · rfl
  · rename_i heq
    have : t = n := by simpa using heq
    exact this.symm

theorem mem_order_iff (b : Nat) :
    b ∈ (byRuns g forest sizes).order ↔ g.Reaches b ∧ (byRuns g forest sizes).alias? b = none := by
  rw [mem_order_of hg, alias?_of hg, ← FlowGraph.ownerOf_isSome_iff hg sizes, Ownership.aliasOf]
  cases ho : (g.ownership sizes).ownerOf b with
  | none => simp
  | some o => simp [Option.filter, bne_iff_ne]

theorem isCold_of_run {r : Run} {b : Nat} (hr : r ∈ (SlotGraph.of g forest (g.ownership sizes)).numberRuns
    (SlotGraph.of g forest (g.ownership sizes)).joinAll) (hb : b ∈ r.blocks) :
    (byRuns g forest sizes).isCold b = (SlotGraph.of g forest (g.ownership sizes)).runCold r := by
  obtain ⟨hdiv, hperm, -⟩ := numberRuns_of hg forest sizes
  have horder : b ∈ (byRuns g forest sizes).order := by
    rw [order_of, groups_of]
    exact List.mem_flatten.2 ⟨r.blocks, List.mem_map_of_mem hr, hb⟩
  rw [isCold_of_mem hg sizes horder]
  exact hdiv.cold r (hperm.mem_iff.1 hr) b hb

theorem hotFirst_of : (byRuns g forest sizes).order.Pairwise fun a b =>
    (byRuns g forest sizes).isCold a = true → (byRuns g forest sizes).isCold b = true := by
  obtain ⟨-, -, hot, cold, heq, hhot, hcold⟩ := numberRuns_of hg forest sizes
  have hrun := fun {r b} => @isCold_of_run g hg forest sizes r b
  rw [heq] at hrun
  have horder : (byRuns g forest sizes).order = (hot.map Run.blocks).flatten ++ (cold.map Run.blocks).flatten := by
    rw [order_of, groups_of, heq, List.map_append, List.flatten_append]
  have hfront : ∀ a ∈ (hot.map Run.blocks).flatten, (byRuns g forest sizes).isCold a = false := by
    intro a ha
    obtain ⟨l, hl, ha⟩ := List.mem_flatten.1 ha
    obtain ⟨r, hr, rfl⟩ := List.mem_map.1 hl
    rw [hrun (List.mem_append_left _ hr) ha, hhot r hr]
  have hback : ∀ b ∈ (cold.map Run.blocks).flatten, (byRuns g forest sizes).isCold b = true := by
    intro b hb
    obtain ⟨l, hl, hb⟩ := List.mem_flatten.1 hb
    obtain ⟨r, hr, rfl⟩ := List.mem_map.1 hl
    rw [hrun (List.mem_append_right _ hr) hb, hcold r hr]
  rw [horder, List.pairwise_append]
  refine ⟨List.pairwise_of_forall_mem_list ?_, List.pairwise_of_forall_mem_list ?_, ?_⟩
  · intro a ha b _ h
    rw [hfront a ha] at h; cases h
  · intro a _ b hb _
    exact hback b hb
  · intro a ha b _ h
    rw [hfront a ha] at h; cases h

end Of

/-- **No fault is met in scheduling a checked graph**, neither in finding its dominators and loops nor in reading the
schedule off the slots. -/
theorem exists_of {o : Outline} {g : FlowGraph} (ho : FlowGraph.ofOutline o = .ok g) (sizes : Array Nat) :
    ∃ dom forest, Dominance.of g = .ok dom ∧ g.findLoops g.spanningTree dom = .ok forest ∧ g.loopForest = .ok forest ∧
      Schedule.arrange g forest sizes = .ok (byRuns g forest sizes) ∧
      Schedule.of g sizes = .ok (byRuns g forest sizes) := by
  have hg := FlowGraph.checked_ofOutline ho
  obtain ⟨dom, bodies, hdom, -, -, -, hfind, hforest⟩ := FlowGraph.exists_loopForest hg
  have harrange := arrange_eq hg.toClosed (g.forestOf bodies) sizes
  exact ⟨dom, _, hdom, hfind, hforest, harrange, Outcome.bind_eq_ok.2 ⟨_, hforest, harrange⟩⟩

theorem eq_byRuns {o : Outline} {g : FlowGraph} (ho : FlowGraph.ofOutline o = .ok g) {sizes : Array Nat} {s : Schedule}
    (hs : Schedule.of g sizes = .ok s) : ∃ forest, g.loopForest = .ok forest ∧ s = byRuns g forest sizes := by
  obtain ⟨-, forest, -, -, hforest, -, hof⟩ := exists_of ho sizes
  exact ⟨forest, hforest, Except.ok.inj (hs.symm.trans hof)⟩

/-- **Every schedule is complete.** -/
theorem complete_byRuns {o : Outline} {g : FlowGraph} (ho : FlowGraph.ofOutline o = .ok g) (forest : LoopForest)
    (sizes : Array Nat) : Complete o g (byRuns g forest sizes) := by
  have hg := FlowGraph.closed_ofOutline ho
  have hreach := FlowGraph.reaches_ofOutline ho
  refine ⟨fun b => (scheduled_of hg sizes b).trans (hreach b), nodup_order_of hg sizes,
    fun b => (mem_order_iff hg sizes b).trans (and_congr_left' (hreach b)), fun n b => indexOf_of_getElem? hg sizes,
    fun b hb hnot => ?_, hotFirst_of hg sizes, fun b hb => isCold_of_mem hg sizes hb,
    (order_of sizes).symm, fun group hgroup a ha b hb => ?_⟩
  · rw [mem_order_iff hg] at hnot
    cases halias : (byRuns g forest sizes).alias? b with
    | none => exact absurd ⟨(hreach b).2 hb, halias⟩ hnot
    | some t =>
      obtain ⟨ht, hindex, hcold⟩ := shared_of hg sizes halias
      exact ⟨t, ht, rfl, hindex, hcold⟩
  · rw [groups_of] at hgroup
    obtain ⟨r, hr, rfl⟩ := List.mem_map.1 hgroup
    rw [isCold_of_run hg sizes hr ha, isCold_of_run hg sizes hr hb]

theorem complete_of {o : Outline} {g : FlowGraph} (ho : FlowGraph.ofOutline o = .ok g) {sizes : Array Nat} {s : Schedule}
    (hs : Schedule.of g sizes = .ok s) : Complete o g s := by
  obtain ⟨forest, -, rfl⟩ := eq_byRuns ho hs
  exact complete_byRuns ho forest sizes

section Shared

variable {o : Outline} {g : FlowGraph} (ho : FlowGraph.ofOutline o = .ok g) {sizes : Array Nat} {s : Schedule}
  (hs : Schedule.of g sizes = .ok s)

include ho hs

theorem mem_aliasesOf_iff (b z : Nat) : z ∈ s.aliasesOf b ↔ s.alias? z = some b := by
  obtain ⟨_, -, rfl⟩ := eq_byRuns ho hs
  exact mem_aliasesOf_of (FlowGraph.closed_ofOutline ho) sizes b z

theorem indexOf_alias {b t : Nat} (h : s.alias? b = some t) : s.indexOf b = s.indexOf t := by
  obtain ⟨_, -, rfl⟩ := eq_byRuns ho hs
  exact (shared_of (FlowGraph.closed_ofOutline ho) sizes h).2.1

end Shared

namespace Complete

variable {o : Outline} {g : FlowGraph} {s : Schedule} (h : Complete o g s)

include h

theorem slotOwner_mem {b : Nat} (hb : o.Reaches b) : s.slotOwner b ∈ s.order := by
  by_cases hmem : b ∈ s.order
  · rw [slotOwner, ((h.mem_order b).1 hmem).2]
    exact hmem
  · obtain ⟨t, ht, halias, -⟩ := h.shared b hb hmem
    rw [slotOwner, halias]
    exact ht

theorem shared_slotOwner {b : Nat} (hb : o.Reaches b) :
    s.indexOf b = s.indexOf (s.slotOwner b) ∧ s.isCold b = s.isCold (s.slotOwner b) := by
  by_cases hmem : b ∈ s.order
  · rw [slotOwner, ((h.mem_order b).1 hmem).2]
    exact ⟨rfl, rfl⟩
  · obtain ⟨t, -, halias, hindex, hcold⟩ := h.shared b hb hmem
    rw [slotOwner, halias]
    exact ⟨hindex, hcold⟩

/-- **Where control falls from an owner**: into the owner that follows in the order, of the same coldness. -/
theorem adjacent_of_mem {b t : Nat} (hb : b ∈ s.order) (ht : o.Reaches t) (hadj : s.adjacent b t = true) :
    ∃ n, s.order[n]? = some b ∧ s.order[n + 1]? = some (s.slotOwner t) ∧ s.isCold b = s.isCold (s.slotOwner t) := by
  obtain ⟨n, hn⟩ := List.mem_iff_getElem?.1 hb
  obtain ⟨k, hk⟩ := List.mem_iff_getElem?.1 (h.slotOwner_mem ht)
  rw [adjacent, ((h.mem_order b).1 hb).2] at hadj
  dsimp only at hadj
  rw [h.index n b hn, h.index k _ hk] at hadj
  simp only [Bool.and_eq_true, beq_iff_eq] at hadj
  exact ⟨n, hn, hadj.1 ▸ hk, hadj.2⟩

end Complete

/-- **Scheduling is total.**  Every outline whose entry and successors exist has a complete schedule, whatever the sizes
of its blocks, and no fault is met on the way to it. -/
theorem exists_complete_schedule (o : Outline) (sizes : Array Nat) (h : o.InRange) :
    ∃ g dom forest s, FlowGraph.ofOutline o = .ok g ∧ Dominance.of g = .ok dom ∧
      g.findLoops g.spanningTree dom = .ok forest ∧ Schedule.arrange g forest sizes = .ok s ∧ Schedule.of g sizes = .ok s ∧
      Complete o g s := by
  obtain ⟨g, hg⟩ := FlowGraph.exists_ofOutline h
  obtain ⟨dom, forest, hdom, hfind, -, harrange, hof⟩ := exists_of hg sizes
  exact ⟨g, dom, forest, _, hg, hdom, hfind, harrange, hof, complete_byRuns hg forest sizes⟩

/-- Blocks two and three are hollow and fall into each other, block four is a handler of block one that leads back to
the entry, and nothing leads to block five. -/
def hollowCycle : Outline :=
  ⟨0, [⟨[1, 2], false, false, false, [0]⟩, ⟨[1, 4], false, false, false, [1]⟩, ⟨[3], false, false, false, [2]⟩,
    ⟨[2], false, false, false, [3]⟩, ⟨[0], true, false, false, [4]⟩, ⟨[2], false, true, true, [5]⟩]⟩

theorem exists_complete_schedule_hollowCycle : hollowCycle.InRange ∧
    ∃ g s, FlowGraph.ofOutline hollowCycle = .ok g ∧ Schedule.of g #[4, 4, 0, 0, 4, 4] = .ok s ∧
      Complete hollowCycle g s := by
  have h : hollowCycle.InRange := ⟨by decide, by decide⟩
  obtain ⟨g, -, -, s, hg, -, -, -, hs, hcomplete⟩ := exists_complete_schedule hollowCycle #[4, 4, 0, 0, 4, 4] h
  exact ⟨h, g, s, hg, hs, hcomplete⟩

end Schedule

end CodeImage
