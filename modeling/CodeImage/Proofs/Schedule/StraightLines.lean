import CodeImage.Proofs.Schedule.Threads
/-!
# StraightLines — straight lines of a method stay in one row

`Schedule.Links` says where control passes between slots, `Schedule.Straight` which two slots are a straight pair.  The
order of a schedule keeps each straight pair in a row, unless it closes a ring of slots that no link of their coldness
enters or leaves: a ring has to be cut somewhere, and all of it but that pair is kept (`straight_lines_kept`).
-/
namespace CodeImage

namespace Schedule

/-- **Control passes from slot `u` to slot `v`**: some block of the one has a normal successor in the other. -/
def Links (o : Outline) (s : Schedule) (u v : Nat) : Prop :=
  u ≠ v ∧ ∃ x y, o.Reaches x ∧ o.Reaches y ∧ o.Steps x y ∧ o.isHandler y = false ∧ s.slotOwner x = u ∧ s.slotOwner y = v

/-- **A straight pair**: of the slots as cold as the two, only `b` follows `a` and only `a` comes before `b`. -/
structure Straight (o : Outline) (s : Schedule) (a b : Nat) : Prop where
  cold : s.isCold a = s.isCold b
  link : s.Links o a b
  onlyTarget : ∀ v, s.Links o a v → s.isCold a = s.isCold v → v = b
  onlySource : ∀ u, s.Links o u b → s.isCold u = s.isCold b → u = a

/-- `b` stands right behind `a`, so that control falls from the one into the other. -/
def Follows (s : Schedule) (a b : Nat) : Prop :=
  (∃ n, s.indexOf a = some n ∧ s.indexOf b = some (n + 1)) ∧ s.adjacent a b = true

/-- **A ring from `b` to `a`**: equally cold slots, each linked to the next, that no link of their coldness enters or
leaves. -/
structure Ring (o : Outline) (s : Schedule) (ring : List Nat) (a b : Nat) : Prop where
  first : ring.head? = some b
  last : ring.getLast? = some a
  nodup : ring.Nodup
  cold : ∀ x ∈ ring, s.isCold x = s.isCold a
  linked : ring.IsChain (s.Links o)
  closed : ∀ u v, s.Links o u v → s.isCold u = s.isCold v → (u ∈ ring ↔ v ∈ ring)

/-- **A schedule that keeps straight lines.** -/
structure KeepsStraight (o : Outline) (s : Schedule) : Prop where
  /-- A straight pair stands in a row, or else closes a ring that stands in a row. -/
  pairs : ∀ a b, s.Straight o a b → s.Follows a b ∨ ∃ ring, s.Ring o ring a b ∧ ring.IsChain s.Follows
  /-- Where all pairs of a cycle are straight, all but one of them stand in a row. -/
  cycles : ∀ c rest, (c :: rest ++ [c]).IsChain (s.Straight o) →
    ∃! p : Nat × Nat, p ∈ (c :: rest).zip (rest ++ [c]) ∧ ¬s.Follows p.1 p.2

section Of

variable {o : Outline} {g : FlowGraph} (ho : FlowGraph.ofOutline o = .ok g) {forest : LoopForest} (sizes : Array Nat)

theorem slotOwner_of (hg : g.Closed) (x : Nat) :
    (byRuns g forest sizes).slotOwner x = ((g.ownership sizes).ownerOf x).getD x := by
  rw [slotOwner, alias?_of hg, Ownership.aliasOf]
  cases (g.ownership sizes).ownerOf x with
  | none => rfl
  | some t => by_cases ht : t = x <;> simp [Option.filter, ht]

include ho

/-- **The links of a schedule are those that the joins went by.** -/
theorem links_iff (u v : Nat) : (byRuns g forest sizes).Links o u v ↔
    ⟨u, v⟩ ∈ (SlotGraph.of g forest (g.ownership sizes)).links := by
  have hg := FlowGraph.closed_ofOutline ho
  have hlinks : (⟨u, v⟩ : Link) ∈ (SlotGraph.of g forest (g.ownership sizes)).links ↔
      (∃ x ∈ g.spanningTree.order, ∃ y ∈ g.normalSuccs x, ((g.ownership sizes).ownerOf x).getD x = u ∧
        ((g.ownership sizes).ownerOf y).getD y = v) ∧ u ≠ v := by
    simp only [SlotGraph.of, SlotGraph.links, List.mem_eraseDups, List.mem_filter, List.mem_flatMap, List.mem_map, Link.mk.injEq,
      bne_iff_ne]
  rw [hlinks, and_comm, Links]
  refine and_congr_right' (exists_congr fun x => ?_)
  simp only [slotOwner_of sizes hg, FlowGraph.mem_order hg, FlowGraph.mem_normalSuccs_ofOutline ho,
    FlowGraph.reaches_ofOutline ho]
  constructor
  · rintro ⟨y, hx, -, hstep, hnormal, hu, hv⟩
    exact ⟨hx, y, ⟨hstep, hnormal⟩, hu, hv⟩
  · rintro ⟨hx, y, ⟨hstep, hnormal⟩, hu, hv⟩
    exact ⟨y, hx, hx.tail hstep, hstep, hnormal, hu, hv⟩

/-- Links lead from owner to owner. -/
theorem mem_order_of_links {u v : Nat} (h : (byRuns g forest sizes).Links o u v) :
    u ∈ (byRuns g forest sizes).order ∧ v ∈ (byRuns g forest sizes).order := by
  obtain ⟨-, x, y, hx, hy, -, -, rfl, rfl⟩ := h
  have hcomplete := complete_byRuns ho forest sizes
  exact ⟨hcomplete.slotOwner_mem hx, hcomplete.slotOwner_mem hy⟩

variable (forest) in
theorem tidy_of : (SlotGraph.of g forest (g.ownership sizes)).Tidy :=
  tidy_slots (FlowGraph.closed_ofOutline ho) forest sizes

theorem isCold_eq {u : Nat} (hu : u ∈ (byRuns g forest sizes).order) :
    (byRuns g forest sizes).isCold u = (SlotGraph.of g forest (g.ownership sizes)).isCold u :=
  isCold_of_mem (FlowGraph.closed_ofOutline ho) sizes hu

theorem straight_slots {a b : Nat} (h : (byRuns g forest sizes).Straight o a b) :
    (SlotGraph.of g forest (g.ownership sizes)).Straight a b := by
  obtain ⟨ha, hb⟩ := mem_order_of_links ho sizes h.link
  refine ⟨(links_iff ho sizes a b).1 h.link, ?_, fun v hv hcold => ?_, fun u hu hcold => ?_⟩
  · rw [← isCold_eq ho sizes ha, ← isCold_eq ho sizes hb]
    exact h.cold
  · have hlink := (links_iff ho sizes a v).2 hv
    rw [← isCold_eq ho sizes ha, ← isCold_eq ho sizes (mem_order_of_links ho sizes hlink).2] at hcold
    exact h.onlyTarget v hlink hcold
  · have hlink := (links_iff ho sizes u b).2 hu
    rw [← isCold_eq ho sizes hb, ← isCold_eq ho sizes (mem_order_of_links ho sizes hlink).1] at hcold
    exact h.onlySource u hlink hcold

/-- **A run stands in the order in one piece.** -/
theorem infix_order {r : Run} (hr : r ∈ (SlotGraph.of g forest (g.ownership sizes)).joinAll) :
    r.blocks <:+: (byRuns g forest sizes).order := by
  obtain ⟨-, hperm, -⟩ := numberRuns_of (FlowGraph.closed_ofOutline ho) forest sizes
  rw [order_of, groups_of]
  exact List.infix_of_mem_flatten (List.mem_map_of_mem (hperm.mem_iff.2 hr))

theorem follows_of_pair {a b : Nat} (h : [a, b] <:+: (byRuns g forest sizes).order)
    (hcold : (byRuns g forest sizes).isCold a = (byRuns g forest sizes).isCold b) :
    (byRuns g forest sizes).Follows a b := by
  have hcomplete := complete_byRuns ho forest sizes
  obtain ⟨front, back, hsplit⟩ := h
  have ha : (byRuns g forest sizes).order[front.length]? = some a := by simp [← hsplit]
  have hb : (byRuns g forest sizes).order[front.length + 1]? = some b := by simp [← hsplit]
  have hia := hcomplete.index _ _ ha
  have hib := hcomplete.index _ _ hb
  have haa := ((hcomplete.mem_order a).1 (List.mem_of_getElem? ha)).2
  have hbb := ((hcomplete.mem_order b).1 (List.mem_of_getElem? hb)).2
  exact ⟨⟨front.length, hia, hib⟩, by simp [adjacent, slotOwner, haa, hbb, hia, hib, hcold]⟩

theorem ring_of {ring : List Nat} {a b : Nat} (h : (SlotGraph.of g forest (g.ownership sizes)).Ring ring a b)
    (hring : ring <:+: (byRuns g forest sizes).order)
    (hcold : ∀ x ∈ ring, (byRuns g forest sizes).isCold x = (byRuns g forest sizes).isCold a) :
    (byRuns g forest sizes).Ring o ring a b := by
  refine ⟨h.first, h.last, ?_, hcold, h.linked.imp fun u v hlink => (links_iff ho sizes u v).2 hlink, fun u v hlink hc => ?_⟩
  · exact (complete_byRuns ho forest sizes).nodup.sublist hring.sublist
  · obtain ⟨hu, hv⟩ := mem_order_of_links ho sizes hlink
    rw [isCold_eq ho sizes hu, isCold_eq ho sizes hv] at hc
    exact h.closed ⟨u, v⟩ ((links_iff ho sizes u v).1 hlink) hc

theorem row_of {row : List Nat} (h : row <:+: (byRuns g forest sizes).order)
    (hcold : ∀ x ∈ row, ∀ y ∈ row, (byRuns g forest sizes).isCold x = (byRuns g forest sizes).isCold y) :
    row.IsChain (byRuns g forest sizes).Follows := by
  have hpairs : row.IsChain fun x y => [x, y] <:+: (byRuns g forest sizes).order :=
    List.IsChain.infix (List.isChain_isInfix _) h
  exact hpairs.imp_of_mem_imp fun x y hx hy hxy => follows_of_pair ho sizes hxy (hcold x hx y hy)

theorem pairs_of {a b : Nat} (h : (byRuns g forest sizes).Straight o a b) : (byRuns g forest sizes).Follows a b ∨
    ∃ ring, (byRuns g forest sizes).Ring o ring a b ∧ ring.IsChain (byRuns g forest sizes).Follows := by
  have hg := FlowGraph.closed_ofOutline ho
  obtain ⟨r, hr, hbound⟩ := SlotGraph.bound_joinAll (tidy_of ho forest sizes) (straight_slots ho sizes h)
  have hrow := infix_order ho sizes hr
  rcases hbound with hpair | ⟨ring, hring, hclosed⟩
  · exact .inl (follows_of_pair ho sizes (hpair.trans hrow) h.cold)
  · have hcold : ∀ x ∈ ring, ∀ y ∈ ring, (byRuns g forest sizes).isCold x = (byRuns g forest sizes).isCold y := by
      obtain ⟨-, hperm, -⟩ := numberRuns_of hg forest sizes
      intro x hx y hy
      rw [isCold_of_run hg sizes (hperm.mem_iff.2 hr) (hring.subset hx),
        isCold_of_run hg sizes (hperm.mem_iff.2 hr) (hring.subset hy)]
    have ha : a ∈ ring := List.mem_of_getLast? hclosed.last
    exact .inr ⟨ring, ring_of ho sizes hclosed (hring.trans hrow) fun x hx => hcold x hx a ha,
      row_of ho sizes (hring.trans hrow) hcold⟩

end Of

/-! ## Cycles of straight pairs -/

section Cycles

variable {o : Outline} {s : Schedule}

/-- In a ring that stands in a row every straight pair does, but the one that closes it. -/
theorem Ring.follows {ring : List Nat} {a b x y : Nat} (h : s.Ring o ring a b) (hrow : ring.IsChain s.Follows)
    (hs : s.Straight o x y) (hx : x ∈ ring) (hne : x ≠ a) : s.Follows x y := by
  obtain ⟨front, back, rfl⟩ := List.append_of_mem hx
  cases back with
  | nil =>
    have hlast := h.last
    rw [List.getLast?_append] at hlast
    exact absurd (Option.some.inj hlast) hne
  | cons z back =>
    have hlink := (List.isChain_append_cons_cons.1 h.linked).2.1
    have hcold := (h.cold x hx).trans (h.cold z (by simp)).symm
    rw [← hs.onlyTarget z hlink hcold]
    exact (List.isChain_append_cons_cons.1 hrow).2.1

/-- Slots that stand in a row do not come around. -/
theorem not_isChain_follows (c : Nat) (rest : List Nat) : ¬(c :: rest ++ [c]).IsChain s.Follows := by
  intro h
  have hup : ((c :: rest ++ [c]).map fun x => (s.indexOf x).getD 0).IsChain (· < ·) := by
    refine (List.isChain_map _).2 (h.imp ?_)
    rintro x y ⟨⟨n, hx, hy⟩, -⟩
    simp [hx, hy]
  rw [List.isChain_iff_pairwise, List.cons_append, List.map_cons, List.pairwise_cons] at hup
  exact Nat.lt_irrefl _ (hup.1 _ (by simp))

theorem existsUnique_parted {c : Nat} {rest : List Nat}
    (hpairs : ∀ a b, s.Straight o a b → s.Follows a b ∨ ∃ ring, s.Ring o ring a b ∧ ring.IsChain s.Follows)
    (hcycle : (c :: rest ++ [c]).IsChain (s.Straight o)) :
    ∃! p : Nat × Nat, p ∈ (c :: rest).zip (rest ++ [c]) ∧ ¬s.Follows p.1 p.2 := by
  have hzip : ∀ {R : Nat → Nat → Prop}, (c :: rest ++ [c]).IsChain R ↔ ∀ p ∈ (c :: rest).zip (rest ++ [c]), R p.1 p.2 := by
    intro R
    rw [List.isChain_cons_append_singleton_iff_forall₂, List.forall₂_iff_zip]
    simp
  have hexists : ∃ p ∈ (c :: rest).zip (rest ++ [c]), ¬s.Follows p.1 p.2 := by
    by_contra hall
    push Not at hall
    exact not_isChain_follows c rest (hzip.2 hall)
  obtain ⟨p, hp, hparted⟩ := hexists
  refine ⟨p, ⟨hp, hparted⟩, fun q ⟨hq, hqparted⟩ => ?_⟩
  have hps := hzip.1 hcycle p hp
  have hqs := hzip.1 hcycle q hq
  obtain ⟨ring, hring, hrow⟩ := (hpairs p.1 p.2 hps).resolve_left hparted
  -- the whole cycle lies on the ring that the pair `p` closes
  have hsame : ∀ x ∈ c :: rest ++ [c], (x ∈ ring ↔ c ∈ ring) :=
    hcycle.induction _ _ (fun x y hxy hx => (hring.closed x y hxy.link hxy.cold).symm.trans hx) fun _ => Iff.rfl
  have hfst : ∀ x ∈ (c :: rest).zip (rest ++ [c]), x.1 ∈ c :: rest ++ [c] := fun x hx =>
    List.mem_append_left _ (List.of_mem_zip hx).1
  have hqring : q.1 ∈ ring :=
    (hsame _ (hfst q hq)).2 ((hsame _ (hfst p hp)).1 (List.mem_of_getLast? hring.last))
  have hqp : q.1 = p.1 := by
    by_contra hne
    exact hqparted (hring.follows hrow hqs hqring hne)
  exact Prod.ext hqp (hps.onlyTarget q.2 (hqp ▸ hqs.link) (hqp ▸ hqs.cold))

end Cycles

/-- **Straight lines are kept.**  Every outline whose entry and successors exist has a schedule in which a straight pair
stands in a row, unless it closes a ring of equally cold slots that no link of their coldness enters or leaves; that ring
then stands in a row.  Of a cycle of straight pairs all but one stand in a row. -/
theorem straight_lines_kept (o : Outline) (sizes : Array Nat) (h : o.InRange) :
    ∃ g s, FlowGraph.ofOutline o = .ok g ∧ Schedule.of g sizes = .ok s ∧ KeepsStraight o s := by
  obtain ⟨g, hg⟩ := FlowGraph.exists_ofOutline h
  obtain ⟨-, forest, -, -, -, -, hof⟩ := exists_of hg sizes
  exact ⟨g, _, hg, hof, fun a b => pairs_of hg sizes, fun c rest => existsUnique_parted fun a b => pairs_of hg sizes⟩

/-- A loop inside a ring: blocks 1 and 2 go around, and from 4 control comes back to 0. -/
def loopInRing : Outline :=
  ⟨0, [⟨[1], false, false, false, []⟩, ⟨[2], false, false, false, []⟩, ⟨[1, 3], false, false, false, []⟩,
    ⟨[4], false, false, false, []⟩, ⟨[0], false, false, false, []⟩]⟩

theorem loopInRing_inRange : loopInRing.InRange := ⟨by decide, by decide⟩

section LoopInRing

variable {g : FlowGraph} {s : Schedule} (hg : FlowGraph.ofOutline loopInRing = .ok g)
  (hs : Schedule.of g #[4, 4, 4, 4, 4] = .ok s)

include hg hs

theorem loopInRing_links (u v : Nat) : s.Links loopInRing u v ↔
    (⟨u, v⟩ : Link) ∈ [⟨0, 1⟩, ⟨1, 2⟩, ⟨2, 1⟩, ⟨2, 3⟩, ⟨3, 4⟩, (⟨4, 0⟩ : Link)] := by
  obtain ⟨forest, hforest, rfl⟩ := eq_byRuns hg hs
  have heval : (FlowGraph.ofOutline loopInRing).toOption.map (fun g => g.loopForest.toOption.map fun forest =>
      (SlotGraph.of g forest (g.ownership #[4, 4, 4, 4, 4])).links) =
        some (some [⟨0, 1⟩, ⟨1, 2⟩, ⟨2, 1⟩, ⟨2, 3⟩, ⟨3, 4⟩, ⟨4, 0⟩]) := by decide +kernel
  rw [links_iff hg, ← Outcome.eq_of_eval hforest (Outcome.eq_of_eval hg heval)]

theorem loopInRing_schedule : s.index = [some 0, some 1, some 2, some 3, some 4] ∧
    s.cold = [false, false, false, false, false] := by
  have heval : (FlowGraph.ofOutline loopInRing).toOption.map (fun g =>
      (Schedule.of g #[4, 4, 4, 4, 4]).toOption.map fun s => (s.index, s.cold)) =
        some (some ([some 0, some 1, some 2, some 3, some 4], [false, false, false, false, false])) := by decide +kernel
  have hvalue := Outcome.eq_of_eval hs (Outcome.eq_of_eval hg heval)
  exact Prod.mk.inj hvalue

end LoopInRing

theorem straight_lines_kept_loopInRing : loopInRing.InRange ∧ ∃ g s, FlowGraph.ofOutline loopInRing = .ok g ∧
    Schedule.of g #[4, 4, 4, 4, 4] = .ok s ∧ KeepsStraight loopInRing s ∧
    s.index = [some 0, some 1, some 2, some 3, some 4] := by
  obtain ⟨g, s, hg, hs, hkeeps⟩ := straight_lines_kept loopInRing #[4, 4, 4, 4, 4] loopInRing_inRange
  exact ⟨loopInRing_inRange, g, s, hg, hs, hkeeps, (loopInRing_schedule hg hs).1⟩

/-- **A straight pair that is parted though it lies on no cycle of straight pairs**: the ring it closes holds a loop. -/
theorem straight_pair_parted : ∃ g s, FlowGraph.ofOutline loopInRing = .ok g ∧ Schedule.of g #[4, 4, 4, 4, 4] = .ok s ∧
    s.Straight loopInRing 4 0 ∧ s.indexOf 4 = some 4 ∧ s.indexOf 0 = some 0 ∧
    ∀ c rest, (c :: rest ++ [c]).IsChain (s.Straight loopInRing) → 4 ∉ c :: rest := by
  obtain ⟨g, hg⟩ := FlowGraph.exists_ofOutline loopInRing_inRange
  obtain ⟨-, forest, -, -, -, -, hs⟩ := exists_of hg #[4, 4, 4, 4, 4]
  have hlinks := loopInRing_links hg hs
  obtain ⟨hindex, hcold⟩ := loopInRing_schedule hg hs
  generalize byRuns g forest #[4, 4, 4, 4, 4] = s at hs hlinks hindex hcold
  have hstraight : s.Straight loopInRing 4 0 := by
    refine ⟨by simp [isCold, hcold], (hlinks 4 0).2 (by simp), fun v hv _ => ?_, fun u hu _ => ?_⟩
    · simpa using (hlinks 4 v).1 hv
    · simpa using (hlinks u 0).1 hu
  -- from 0 control goes to 1 only, which has a second source
  have hdead : ∀ y, ¬s.Straight loopInRing 0 y := by
    intro y hs
    have hy : y = 1 := by simpa using (hlinks 0 y).1 hs.link
    have hsource := hs.onlySource 2 ((hlinks 2 y).2 (by simp [hy])) (by simp [isCold, hcold, hy])
    exact absurd hsource (by decide)
  refine ⟨g, s, hg, hs, hstraight, by simp [indexOf, hindex], by simp [indexOf, hindex], fun c rest hcycle h4 => ?_⟩
  obtain ⟨y, hy, h4y⟩ := exists_next_of_isChain hcycle h4
  have hy0 : y = 0 := hstraight.onlyTarget y h4y.link h4y.cold
  have hmem : (0 : Nat) ∈ c :: rest := by
    have := hy0 ▸ hy
    simp only [List.mem_append, List.mem_singleton] at this
    exact this.elim id fun h => h ▸ List.mem_cons_self
  obtain ⟨z, -, hz⟩ := exists_next_of_isChain hcycle hmem
  exact hdead z hz

end Schedule

end CodeImage
