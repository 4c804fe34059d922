import CodeImage.Proofs.Flow.Closure
import CodeImage.Proofs.Flow.Dominance
/-!
# Frontier — where dominance ends

A climb through the immediate dominators ends early at a block marked before, and misses nothing: the blocks marked are
closed under climbing, but for the block that the climb has come to (`Marking`).  So a block where edges meet is in the
frontiers of the blocks above one of its predecessors and not above its own immediate dominator (`Placed`).  These are
the frontiers that paths give (`FlowGraph.InFrontier`), but not for the entry: it is its own immediate dominator, so no climb
puts it into its own frontier, and control comes to it without an edge, so one edge back to it should be enough to climb from
and is not.
-/
namespace CodeImage

namespace FlowGraph

variable {g : FlowGraph}

/-- **The dominance of `d` ends at `y`**: `d` dominates a reachable predecessor of `y`, and does not strictly dominate
`y`. -/
def InFrontier (g : FlowGraph) (d y : Nat) : Prop :=
  (∃ p, g.Reaches p ∧ y ∈ g.succs p ∧ g.Dominates d p) ∧ ¬ (d ≠ y ∧ g.Dominates d y)

/-- **Two edges lead to a block** from blocks that control reaches. -/
def Joins (g : FlowGraph) (y : Nat) : Prop :=
  ∃ p q, p ≠ q ∧ (g.Reaches p ∧ y ∈ g.succs p) ∧ g.Reaches q ∧ y ∈ g.succs q

theorem Dominates.trans {a b c : Nat} (hab : g.Dominates a b) (hbc : g.Dominates b c) : g.Dominates a c := by
  intro l hl
  obtain ⟨front, back, rfl, hfront, -⟩ := hl.split (hbc l hl)
  have hmem := hab _ hfront
  simp only [List.mem_append, List.mem_cons, List.not_mem_nil, or_false] at hmem ⊢
  exact hmem.imp_right .inl

/-- A dominator of the only predecessor dominates the block, strictly: an edge from the block to itself is not the only one. -/
theorem InFrontier.joins {order : List Nat} (hr : g.Ranked order) {d y : Nat} (h : g.InFrontier d y) (hne : y ≠ g.entry) :
    g.Joins y := by
  obtain ⟨⟨p, hp, hedge, hdom⟩, hstrict⟩ := h
  obtain ⟨q, hq, hqedge, hlt⟩ := hr.exists_later ((hr.mem y).2 (hp.step hedge)) hne
  by_contra hjoins
  have honly : ∀ r, g.Reaches r → y ∈ g.succs r → r = p := fun r hr' hredge => by
    by_contra hrp
    exact hjoins ⟨r, p, hrp, ⟨hr', hredge⟩, hp, hedge⟩
  obtain rfl := honly q ((hr.mem q).1 hq) hqedge
  have hqy : g.Dominates q y := dominates_of_preds hne fun r hredge hr' => honly r hr' hredge ▸ fun l hl => hl.last_mem
  refine hstrict ⟨?_, hdom.trans hqy⟩
  rintro rfl
  exact absurd (hqy.antisymm hdom (hp.step hedge)) (by rintro rfl; exact Nat.lt_irrefl _ hlt)

/-! ## Predecessors, each once -/

theorem edges_eq (g : FlowGraph) : g.edges = (List.range g.size).flatMap g.edgesOut := by
  have hblocks : g.blocks.toList.map (·.out) = (List.range g.size).map g.edgesOut := by
    refine List.ext_getElem (by simp [size]) fun n hn hn' => ?_
    simp only [List.length_map, Array.length_toList] at hn
    simp [edgesOut, hn]
  rw [edges, List.flatMap_def, hblocks, List.flatMap_def]

theorem Checked.nodup_preds (hg : g.Checked) (hsuccs : ∀ b, (g.succs b).Nodup) (y : Nat) : (g.preds y).Nodup := by
  rw [preds, edges_eq, List.filter_flatMap, List.map_flatMap, List.nodup_flatMap]
  have hsource : ∀ b, ∀ p ∈ ((g.edgesOut b).filter (·.target == y)).map (·.source), p = b := by
    intro b p hp
    obtain ⟨e, he, rfl⟩ := List.mem_map.1 hp
    exact hg.source b e (List.mem_filter.1 he).1
  refine ⟨fun b _ => ?_, List.nodup_range.imp fun hne p hp hp' => hne ((hsource _ p hp).symm.trans (hsource _ p hp'))⟩
  have hedges : (g.edgesOut b).Pairwise fun e e' => e.target ≠ e'.target := List.pairwise_map.1 (hsuccs b)
  refine List.pairwise_map.2 ((hedges.filter _).imp_of_mem fun he he' hne => absurd ?_ hne)
  rw [beq_iff_eq.1 (List.mem_filter.1 he).2, beq_iff_eq.1 (List.mem_filter.1 he').2]

theorem mem_reachablePreds (hg : g.Checked) {p y : Nat} :
    p ∈ (g.preds y).filter g.reachable.contains ↔ g.Reaches p ∧ y ∈ g.succs p := by
  rw [List.mem_filter, hg.mem_preds, contains_reachable hg.toClosed, and_comm]

theorem joins_iff (hg : g.Checked) (hsuccs : ∀ b, (g.succs b).Nodup) (y : Nat) :
    g.Joins y ↔ 2 ≤ ((g.preds y).filter g.reachable.contains).length := by
  have hnodup := (hg.nodup_preds hsuccs y).filter g.reachable.contains
  constructor
  · rintro ⟨p, q, hne, hp, hq⟩
    have hsub : [p, q] ⊆ (g.preds y).filter g.reachable.contains := by
      intro r hr
      simp only [List.mem_cons, List.not_mem_nil, or_false] at hr
      rcases hr with rfl | rfl
      · exact (mem_reachablePreds hg).2 hp
      · exact (mem_reachablePreds hg).2 hq
    exact (show [p, q].Nodup by simpa using hne).length_le_of_subset hsub
  · intro hlength
    match hpreds : (g.preds y).filter g.reachable.contains, hlength with
    | p :: q :: rest, _ =>
      rw [hpreds] at hnodup
      refine ⟨p, q, fun hpq => ?_, (mem_reachablePreds hg).1 (by simp [hpreds]), (mem_reachablePreds hg).1 (by simp [hpreds])⟩
      exact (List.nodup_cons.1 hnodup).1 (hpq ▸ List.mem_cons_self)

end FlowGraph

namespace Dominance

open FlowGraph

theorem Above.trans {up : Nat → Option Nat} {a b c : Nat} (hab : Above up a b) (hbc : Above up b c) : Above up a c := by
  induction hbc with
  | refl => exact hab
  | climb hd _ ih => exact .climb hd ih

/-! ## Frontiers as they grow -/

/-- The frontier of `d` has `y`. -/
def Holds (frontiers : Array BitSet) (d y : Nat) : Prop :=
  ∃ s : BitSet, frontiers[d]? = some s ∧ s.contains y = true

/-- **Every block has a frontier**, a set of blocks. -/
structure Spread (g : FlowGraph) (frontiers : Array BitSet) : Prop where
  size : frontiers.size = g.size
  bound : ∀ (d : Nat) (s : BitSet), frontiers[d]? = some s → s.bound = g.size

section

variable {g : FlowGraph} {frontiers : Array BitSet} {y r : Nat} {s : BitSet}

theorem Spread.insert (h : Spread g frontiers) (hs : frontiers[r]? = some s) :
    Spread g (frontiers.setIfInBounds r (s.insert y)) := by
  refine ⟨by simpa using h.size, fun d t ht => ?_⟩
  by_cases hd : d = r
  · subst hd
    rw [Array.getElem?_setIfInBounds_self_of_lt (Array.getElem?_eq_some_iff.1 hs).1, Option.some.injEq] at ht
    rw [← ht, BitSet.bound_insert]
    exact h.bound d s hs
  · rw [Array.getElem?_setIfInBounds_ne (Ne.symm hd)] at ht
    exact h.bound d t ht

theorem Spread.holds_insert (h : Spread g frontiers) (hs : frontiers[r]? = some s) (hy : y < g.size) (d z : Nat) :
    Holds (frontiers.setIfInBounds r (s.insert y)) d z ↔ Holds frontiers d z ∨ d = r ∧ z = y := by
  unfold Holds
  by_cases hd : d = r
  · subst hd
    rw [Array.getElem?_setIfInBounds_self_of_lt (Array.getElem?_eq_some_iff.1 hs).1, hs]
    simp only [Option.some.injEq, exists_eq_left', BitSet.contains_insert s (h.bound d s hs ▸ hy), Bool.or_eq_true,
      decide_eq_true_iff, true_and]
    rw [@eq_comm _ y]
  · rw [Array.getElem?_setIfInBounds_ne (Ne.symm hd)]
    simp [hd]

end

/-! ## One climb -/

section

variable {g : FlowGraph} {order : List Nat} {up : Nat → Option Nat} {y c : Nat} {preds : List Nat}

/-- **The marking of `y` under way.**  The blocks marked are above a predecessor and not above `c`, where climbs end.  The
block above a marked one is marked as well, unless it is `c` or the climb has just come to it. -/
structure Marking (g : FlowGraph) (up : Nat → Option Nat) (y c : Nat) (preds : List Nat) (pending : Option Nat)
    (frontiers : Array BitSet) : Prop extends Spread g frontiers where
  sound : ∀ d, Holds frontiers d y → (∃ p ∈ preds, Above up d p) ∧ ¬ Above up d c
  closed : ∀ x, Holds frontiers x y → ∀ d, up x = some d → d = c ∨ Holds frontiers d y ∨ pending = some d

/-- **What a climb leaves as it is**: `y` stays where it is, and no other block is put anywhere or taken out. -/
structure Grows (y : Nat) (frontiers frontiers' : Array BitSet) : Prop where
  keeps : ∀ d, Holds frontiers d y → Holds frontiers' d y
  others : ∀ d z, z ≠ y → (Holds frontiers' d z ↔ Holds frontiers d z)

theorem Grows.refl (frontiers : Array BitSet) : Grows y frontiers frontiers := ⟨fun _ h => h, fun _ _ _ => Iff.rfl⟩

theorem Grows.trans {f f' f'' : Array BitSet} (h : Grows y f f') (h' : Grows y f' f'') : Grows y f f'' :=
  ⟨fun d hd => h'.keeps d (h.keeps d hd), fun d z hz => (h'.others d z hz).trans (h.others d z hz)⟩

section

variable {frontiers : Array BitSet} {r : Nat}

/-- **Marking one more block**, from which the climb goes on. -/
theorem Marking.insert {d : Nat} {s : BitSet} (h : Marking g up y c preds (some r) frontiers) (hs : frontiers[r]? = some s)
    (hy : y < g.size) (hr : (∃ p ∈ preds, Above up r p) ∧ ¬ Above up r c) (hd : up r = some d) :
    Marking g up y c preds (some d) (frontiers.setIfInBounds r (s.insert y)) := by
  have hholds := h.toSpread.holds_insert hs hy
  refine ⟨h.toSpread.insert hs, fun x hx => ?_, fun x hx e he => ?_⟩
  · rcases (hholds x y).1 hx with hx | ⟨rfl, -⟩
    · exact h.sound x hx
    · exact hr
  · rcases (hholds x y).1 hx with hx | ⟨rfl, -⟩
    · rcases h.closed x hx e he with hc | hmarked | hpending
      · exact .inl hc
      · exact .inr (.inl ((hholds e y).2 (.inl hmarked)))
      · exact .inr (.inl ((hholds e y).2 (.inr ⟨(Option.some.inj hpending).symm, rfl⟩)))
    · exact .inr (.inr (hd.symm.trans he))

theorem Spread.grows_insert {s : BitSet} (h : Spread g frontiers) (hs : frontiers[r]? = some s) (hy : y < g.size) :
    Grows y frontiers (frontiers.setIfInBounds r (s.insert y)) := by
  have hholds := h.holds_insert hs hy
  refine ⟨fun d hd => (hholds d y).2 (.inl hd), fun d z hz => (hholds d z).trans ?_⟩
  simp [hz]

/-- A climb that has come to `c`, or to a marked block, leaves nothing pending. -/
theorem Marking.finish (h : Marking g up y c preds (some r) frontiers) (hr : r = c ∨ Holds frontiers r y) :
    Marking g up y c preds none frontiers := by
  refine ⟨h.toSpread, h.sound, fun x hx d hd => ?_⟩
  rcases h.closed x hx d hd with hc | hmarked | hpending
  · exact .inl hc
  · exact .inr (.inl hmarked)
  · obtain rfl := Option.some.inj hpending
    exact hr.imp_right .inl

end

/-- **A climb marks what it passes** up to `c`, or up to where another climb has been. -/
theorem Marking.climb (ht : Tree g order up) (hr : g.Ranked order) (hg : g.Closed) (hy : y < g.size) :
    ∀ (limit r : Nat) {frontiers : Array BitSet}, Marking g up y c preds (some r) frontiers → Above up c r →
    (∃ p ∈ preds, Above up r p) → (up r).isSome → order.length - order.idxOf r ≤ limit →
    Marking g up y c preds none (mark up (some c) y limit (some r) frontiers) ∧
      Grows y frontiers (mark up (some c) y limit (some r) frontiers) ∧
      (r = c ∨ Holds (mark up (some c) y limit (some r) frontiers) r y)
  | 0, r, frontiers, _, _, _, hsome, hlimit => by
    have := List.idxOf_lt_length_of_mem (ht.mem hsome)
    omega
  | limit + 1, r, frontiers, h, hcr, hpreds, hsome, hlimit => by
    have hmem := ht.mem hsome
    unfold mark
    by_cases hrc : r = c
    · rw [if_pos (congrArg some hrc)]
      exact ⟨h.finish (.inl hrc), .refl _, .inl hrc⟩
    · rw [if_neg fun heq => hrc (Option.some.inj heq)]
      have hlt : r < frontiers.size := h.size ▸ hg.lt_of_reaches ((hr.mem r).1 hmem)
      obtain ⟨s, hs⟩ : ∃ s, frontiers[r]? = some s := ⟨_, Array.getElem?_eq_getElem hlt⟩
      simp only [hs]
      by_cases hmarked : s.contains y = true
      · rw [if_pos hmarked]
        exact ⟨h.finish (.inr ⟨s, hs, hmarked⟩), .refl _, .inr ⟨s, hs, hmarked⟩⟩
      · rw [if_neg hmarked]
        obtain ⟨d, hd⟩ := Option.isSome_iff_exists.1 hsome
        -- `c` is above, so this is not the entry and there is a block to climb to
        have hentry : r ≠ g.entry := fun heq => hrc (heq.trans (ht.eq_entry hcr heq).symm)
        have hnext : (up r).filter (· != r) = some d := by
          rw [hd, Option.filter_some, if_pos (by simpa using ht.up_ne hd hentry)]
        have hrise := ht.rises r d hd hentry
        have hbelow : ¬ Above up r c := fun hrc' => by
          have := ht.idxOf_le hrc'
          have := ht.idxOf_lt hcr (Ne.symm hrc)
          omega
        have hcd : Above up c d := ((above_iff hd).1 hcr).resolve_left (Ne.symm hrc)
        obtain ⟨p, hp, hrp⟩ := hpreds
        have hinsert := h.insert hs hy ⟨⟨p, hp, hrp⟩, hbelow⟩ hd
        rw [hnext]
        obtain ⟨hmarking, hgrows, -⟩ := climb ht hr hg hy limit d hinsert hcd
          ⟨p, hp, Above.trans (.climb hd (.refl d)) hrp⟩ (ht.settled r d hd).2 (by
            have := List.idxOf_lt_length_of_mem hmem
            omega)
        refine ⟨hmarking, (h.toSpread.grows_insert hs hy).trans hgrows, .inr (hgrows.keeps r ?_)⟩
        exact (h.toSpread.holds_insert hs hy r y).2 (.inr ⟨rfl, rfl⟩)

/-- **Closed under climbing, the marks reach every block below `c`** that is above a marked one. -/
theorem Marking.holds_of_above {frontiers : Array BitSet} (h : Marking g up y c preds none frontiers) {d x : Nat}
    (hx : Holds frontiers x y) (hdx : Above up d x) (hdc : ¬ Above up d c) : Holds frontiers d y := by
  induction hdx with
  | refl => exact hx
  | @climb x e he rest ih =>
    rcases h.closed x hx e he with rfl | hmarked | hpending
    · exact absurd rest hdc
    · exact ih hmarked
    · cases hpending

/-- **Climbs from all predecessors** mark the blocks above one of them and not above `c`. -/
theorem holds_climbs (ht : Tree g order up) (hr : g.Ranked order) (hg : g.Closed) (hy : y < g.size) (preds : List Nat)
    (hc : ∀ p ∈ preds, (up p).isSome ∧ Above up c p) {frontiers : Array BitSet} (h : Spread g frontiers)
    (hblank : ∀ d, ¬ Holds frontiers d y) :
    let frontiers' := preds.foldl (fun f p => mark up (some c) y g.size (some p) f) frontiers
    Spread g frontiers' ∧ Grows y frontiers frontiers' ∧
      ∀ d, Holds frontiers' d y ↔ (∃ p ∈ preds, Above up d p) ∧ ¬ Above up d c := by
  intro frontiers'
  obtain ⟨hmarking, hgrows, hall⟩ : Marking g up y c preds none frontiers' ∧ Grows y frontiers frontiers' ∧
      ∀ p ∈ preds, p = c ∨ Holds frontiers' p y := by
    refine Outcome.foldl_keeps (P := fun front f => Marking g up y c preds none f ∧ Grows y frontiers f ∧
      ∀ p ∈ front, p = c ∨ Holds f p y) ⟨⟨h, fun d hd => absurd hd (hblank d), fun x hx => absurd hx (hblank x)⟩,
      .refl _, fun _ hp => absurd hp List.not_mem_nil⟩ ?_
    rintro front p back f hpreds ⟨hmarking, hgrows, hfront⟩
    have hp : p ∈ preds := by simp [hpreds]
    have hpending : Marking g up y c preds (some p) f := ⟨hmarking.toSpread, hmarking.sound, fun x hx d hd =>
      (hmarking.closed x hx d hd).imp_right fun hor => hor.imp_right fun hnone => nomatch hnone⟩
    obtain ⟨hend, hmore, hmarked⟩ := hpending.climb ht hr hg hy g.size p (hc p hp).2 ⟨p, hp, .refl p⟩ (hc p hp).1
      (Nat.le_trans (Nat.sub_le ..) (hr.length_le hg))
    refine ⟨hend, hgrows.trans hmore, fun q hq => ?_⟩
    rw [List.mem_append, List.mem_singleton] at hq
    rcases hq with hq | rfl
    · exact (hfront q hq).imp_right (hmore.keeps q)
    · exact hmarked
  refine ⟨hmarking.toSpread, hgrows, fun d => ⟨hmarking.sound d, ?_⟩⟩
  rintro ⟨⟨p, hp, hdp⟩, hdc⟩
  rcases hall p hp with rfl | hmarked
  · exact absurd hdp hdc
  · exact hmarking.holds_of_above hmarked hdp hdc

end

/-! ## All blocks -/

section

variable {g : FlowGraph} {order : List Nat} {up : Nat → Option Nat}

/-- **`y` is put into the frontier of `d`**: edges meet at `y`, and `d` dominates one of its predecessors but not its
immediate dominator. -/
def Placed (g : FlowGraph) (up : Nat → Option Nat) (d y : Nat) : Prop :=
  g.Joins y ∧ (∃ p, g.Reaches p ∧ y ∈ g.succs p ∧ g.Dominates d p) ∧ ∃ c, up y = some c ∧ ¬ g.Dominates d c

/-- The immediate dominator of a block is above its predecessors; that of the entry, itself, is above all blocks. -/
theorem Exact.above_pred (h : Exact g order up) {y c p : Nat} (hc : up y = some c)
    (hp : g.Reaches p) (edge : y ∈ g.succs p) : Above up c p := by
  by_cases hy : y = g.entry
  · subst hy
    obtain rfl : g.entry = c := Option.some.inj (h.tree.root.symm.trans hc)
    exact h.tree.above_entry _ p (Nat.le_refl _) (h.settled p hp)
  · have hdom := (h.above y c (hp.step edge)).1 (.climb hc (.refl c))
    exact (h.above p c hp).2 (hdom.pred (h.tree.up_ne hc hy) edge)

theorem holds_markAll (hg : g.Checked) (hsuccs : ∀ b, (g.succs b).Nodup) (hr : g.Ranked order) (h : Exact g order up)
    {y : Nat} (hy : g.Reaches y) {frontiers : Array BitSet} (hspread : Spread g frontiers)
    (hblank : ∀ d, ¬ Holds frontiers d y) :
    Spread g (markAll g g.reachable.contains up frontiers y) ∧
      Grows y frontiers (markAll g g.reachable.contains up frontiers y) ∧
      ∀ d, Holds (markAll g g.reachable.contains up frontiers y) d y ↔ Placed g up d y := by
  unfold markAll
  by_cases hjoins : g.Joins y
  · rw [if_neg (Nat.not_lt.2 ((joins_iff hg hsuccs y).1 hjoins))]
    obtain ⟨c, hc⟩ := Option.isSome_iff_exists.1 (h.settled y hy)
    have hcy := (h.above y c hy).1 (.climb hc (.refl c))
    have habove : ∀ p ∈ (g.preds y).filter g.reachable.contains, (up p).isSome ∧ Above up c p := by
      intro p hp
      obtain ⟨hp, hedge⟩ := (mem_reachablePreds hg).1 hp
      exact ⟨h.settled p hp, h.above_pred hc hp hedge⟩
    obtain ⟨hspread', hgrows, hholds⟩ :=
      holds_climbs h.tree hr hg.toClosed (hg.lt_of_reaches hy) _ habove hspread hblank
    rw [hc]
    refine ⟨hspread', hgrows, fun d => (hholds d).trans ?_⟩
    rw [h.above c d (hcy.reaches hy)]
    constructor
    · rintro ⟨⟨p, hp, hdp⟩, hdc⟩
      obtain ⟨hp, hedge⟩ := (mem_reachablePreds hg).1 hp
      exact ⟨hjoins, ⟨p, hp, hedge, (h.above p d hp).1 hdp⟩, c, hc, hdc⟩
    · rintro ⟨-, ⟨p, hp, hedge, hdp⟩, c', hc', hdc⟩
      obtain rfl := Option.some.inj (hc.symm.trans hc')
      exact ⟨⟨p, (mem_reachablePreds hg).2 ⟨hp, hedge⟩, (h.above p d hp).2 hdp⟩, hdc⟩
  · rw [if_pos (Nat.lt_of_not_le fun hle => hjoins ((joins_iff hg hsuccs y).2 hle))]
    exact ⟨hspread, .refl _, fun d => ⟨fun hd => absurd hd (hblank d), fun hplaced => absurd hplaced.1 hjoins⟩⟩

/-- **Every block is put where its climbs pass**, whatever was put there for others before. -/
theorem holds_frontiersFrom (hg : g.Checked) (hsuccs : ∀ b, (g.succs b).Nodup) (hr : g.Ranked order) (h : Exact g order up)
    (d y : Nat) : Holds (frontiersFrom g order up) d y ↔ g.Reaches y ∧ Placed g up d y := by
  have hknown : BitSet.ofPred g.size order.contains = g.reachable :=
    ofPred_eq_reachable hg.toClosed fun b => by rw [List.contains_iff_mem, hr.mem]
  obtain ⟨-, hholds⟩ : Spread g (frontiersFrom g order up) ∧
      ∀ d y, Holds (frontiersFrom g order up) d y ↔ y ∈ order.reverse ∧ Placed g up d y := by
    unfold frontiersFrom
    rw [hknown]
    refine Outcome.foldl_keeps (P := fun front f => Spread g f ∧ ∀ d y, Holds f d y ↔ y ∈ front ∧ Placed g up d y)
      ⟨⟨by simp, fun d s hs => ?_⟩, fun d y => ?_⟩ ?_
    · rw [Array.getElem?_replicate] at hs
      split at hs
      · rw [← Option.some.inj hs]
        rfl
      · cases hs
    · simp only [List.not_mem_nil, false_and, iff_false]
      rintro ⟨s, hs, hcontains⟩
      rw [Array.getElem?_replicate] at hs
      split at hs
      · rw [← Option.some.inj hs, BitSet.contains_empty] at hcontains
        cases hcontains
      · cases hs
    · rintro front y back f horder ⟨hspread, hfront⟩
      have hnodup : (front ++ y :: back).Nodup := horder ▸ List.nodup_reverse.2 hr.nodup
      have hyfront : y ∉ front := fun hmem => (List.nodup_append.1 hnodup).2.2 y hmem y List.mem_cons_self rfl
      have hy : g.Reaches y := (hr.mem y).1 (List.mem_reverse.1 (by rw [horder]; simp))
      obtain ⟨hspread', hgrows, hholds⟩ := holds_markAll hg hsuccs hr h hy hspread fun d hd =>
        hyfront ((hfront d y).1 hd).1
      refine ⟨hspread', fun d z => ?_⟩
      by_cases hz : z = y
      · subst hz
        simp [hholds d]
      · rw [hgrows.others d z hz, hfront d z]
        simp [hz]
  rw [hholds, List.mem_reverse, hr.mem]

theorem contains_frontier (dom : Dominance) (d y : Nat) :
    (dom.frontier d).contains y = true ↔ Holds dom.frontiers d y := by
  unfold frontier Holds
  cases dom.frontiers[d]? with
  | none => simp [BitSet.contains_empty]
  | some s => simp

/-! ## Frontiers and paths -/

/-- What dominates the nearest strict dominator of a block strictly dominates the block. -/
theorem dominates_nearest_iff {c d y : Nat} (hc : g.NearestDominator c y) (hy : g.Reaches y) :
    g.Dominates d c ↔ d ≠ y ∧ g.Dominates d y := by
  constructor
  · intro hdc
    refine ⟨?_, hdc.trans hc.dominates⟩
    rintro rfl
    exact hc.ne (hc.dominates.antisymm hdc hy)
  · rintro ⟨hne, hdy⟩
    by_cases hdc : d = c
    · exact fun l hl => hdc ▸ hl.last_mem
    · exact hc.nearest d hne hdy hdc

theorem dominates_entry_iff {d : Nat} : g.Dominates d g.entry ↔ d = g.entry := by
  refine ⟨fun h => List.mem_singleton.1 (h _ (.stay g.entry)), ?_⟩
  rintro rfl
  exact fun l hl => hl.first_mem

theorem placed_iff (hr : g.Ranked order) (h : Exact g order up) {d y : Nat} (hy : g.Reaches y) :
    Placed g up d y ↔ g.InFrontier d y ∧ (y = g.entry → d ≠ g.entry ∧ g.Joins g.entry) := by
  by_cases hentry : y = g.entry
  · subst hentry
    constructor
    · rintro ⟨hjoins, hpred, c, hc, hdc⟩
      obtain rfl : g.entry = c := Option.some.inj (h.tree.root.symm.trans hc)
      have hne : d ≠ g.entry := fun heq => hdc (dominates_entry_iff.2 heq)
      exact ⟨⟨hpred, fun hstrict => hdc hstrict.2⟩, fun _ => ⟨hne, hjoins⟩⟩
    · rintro ⟨⟨hpred, -⟩, hjoins⟩
      obtain ⟨hne, hjoins⟩ := hjoins rfl
      exact ⟨hjoins, hpred, g.entry, h.tree.root, fun hdom => hne (dominates_entry_iff.1 hdom)⟩
  · obtain ⟨c, hc⟩ := Option.isSome_iff_exists.1 (h.settled y hy)
    have hstrict := dominates_nearest_iff (d := d) (h.nearestDominator hy hentry hc) hy
    constructor
    · rintro ⟨-, hpred, c', hc', hdc⟩
      obtain rfl := Option.some.inj (hc.symm.trans hc')
      exact ⟨⟨hpred, fun hd => hdc (hstrict.2 hd)⟩, fun heq => absurd heq hentry⟩
    · rintro ⟨hin, -⟩
      exact ⟨hin.joins hr hentry, hin.1, c, hc, fun hdc => hin.2 (hstrict.1 hdc)⟩

end

/-- **Frontiers are what paths say but at the entry.**  A block other than the entry is in the frontiers where the dominance
of a predecessor's dominators ends.  The entry is left out of its own frontier, and out of all frontiers unless two
edges lead back to it. -/
theorem frontier_exact_but_at_entry {o : Outline} {g : FlowGraph} (h : ofOutline o = .ok g) :
    ∃ dom, compute g g.postOrder = .ok dom ∧ of g = .ok dom ∧ ∀ d y, (dom.frontier d).contains y = true ↔
      g.InFrontier d y ∧ (y = g.entry → d ≠ g.entry ∧ g.Joins g.entry) := by
  have hg := checked_ofOutline h
  have hr := ranked_postOrder hg.toClosed
  obtain ⟨idoms, hidoms, -, hexact⟩ := exists_settle hg hr
  have hcompute : compute g g.postOrder = .ok _ := Outcome.bind_eq_ok.2 ⟨idoms, hidoms, rfl⟩
  refine ⟨_, hcompute, hcompute, fun d y => ?_⟩
  refine (contains_frontier _ d y).trans ((holds_frontiersFrom hg (nodup_succs_ofOutline h) hr hexact d y).trans ?_)
  constructor
  · rintro ⟨hy, hplaced⟩
    exact (placed_iff hr hexact hy).1 hplaced
  · rintro ⟨hin, hentry⟩
    obtain ⟨p, hp, hedge, -⟩ := hin.1
    have hy := hp.step hedge
    exact ⟨hy, (placed_iff hr hexact hy).2 ⟨hin, hentry⟩⟩

/-- Block one leads to itself and back to the entry. -/
def backToEntry : Outline := ⟨0, [⟨[1], false, false, false, [0]⟩, ⟨[0, 1], false, false, false, [1]⟩]⟩

theorem frontier_exact_but_at_entry_backToEntry : ∃ g dom, ofOutline backToEntry = .ok g ∧
    compute g g.postOrder = .ok dom ∧ (List.range 2).map (fun d => (dom.frontier d).toList) = [[], [1]] ∧
    g.InFrontier 0 g.entry ∧ g.InFrontier 1 g.entry ∧ g.InFrontier 1 1 ∧
    ∀ d y, (dom.frontier d).contains y = true ↔
      g.InFrontier d y ∧ (y = g.entry → d ≠ g.entry ∧ g.Joins g.entry) := by
  obtain ⟨g, hg⟩ : ∃ g, ofOutline backToEntry = .ok g := ⟨_, rfl⟩
  obtain ⟨dom, hcompute, hof, hfrontier⟩ := frontier_exact_but_at_entry hg
  have hrow : (List.range 2).map (fun d => (dom.frontier d).toList) = [[], [1]] := by
    have heval : (ofOutline backToEntry).toOption.map (fun g => (of g).toOption.map fun dom =>
        (List.range 2).map fun d => (dom.frontier d).toList) = some (some [[], [1]]) := by decide +kernel
    exact Outcome.eq_of_eval hof (Outcome.eq_of_eval hg heval)
  have hentry : g.entry = 0 := by cases hg; rfl
  have hback : g.entry ∈ g.succs 1 := by cases hg; decide
  have hreach : g.Reaches 1 := FlowGraph.Reaches.step .refl (by cases hg; decide)
  have hself : (dom.frontier 1).contains 1 = true := by
    have hone : (dom.frontier 1).toList = [1] := Option.some.inj (congrArg (fun rows => rows[1]?) hrow)
    have hmem : 1 ∈ (dom.frontier 1).toList := hone ▸ List.mem_singleton_self 1
    exact (BitSet.mem_toList.1 hmem).2
  refine ⟨g, dom, hg, hcompute, hrow, ⟨⟨1, hreach, hback, fun l hl => hentry ▸ hl.first_mem⟩, ?_⟩,
    ⟨⟨1, hreach, hback, fun l hl => hl.last_mem⟩, ?_⟩, ((hfrontier 1 1).1 hself).1, hfrontier⟩
  · exact fun hstrict => hstrict.1 hentry.symm
  · exact fun hstrict => hstrict.1 (dominates_entry_iff.1 hstrict.2)

end Dominance

end CodeImage
