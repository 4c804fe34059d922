import Mathlib.Logic.Function.Basic
import CodeImage.Flow.PostDominance
import CodeImage.Proofs.Flow.Closure
import CodeImage.Proofs.Flow.PostOrder
import CodeImage.Proofs.Outcome
/-!
# PostDominance — the blocks on every way out

Block `p` post-dominates `b` when every path from `b` to an exit passes it (`FlowGraph.PostDominates`).  The rounds keep two
bounds (`Cutting`): what post-dominates a block is in its set, and what is in its set lies on every path to an exit that
has no more blocks than rounds were made, and one; after as many rounds as blocks are reachable the bounds meet (`Exact`).
The first strict post-dominator on a way out that passes no block twice is post-dominated by all others
(`Exits.exists_nearest`), so no rivals are left over (`Exact.toList_nearest`).
-/
namespace CodeImage

namespace FlowGraph

/-- **A block where control ends.** -/
structure IsExit (g : FlowGraph) (e : Nat) : Prop where
  reaches : g.Reaches e
  succs : g.succs e = []

/-- Control can come from `b` to an exit. -/
def Exits (g : FlowGraph) (b : Nat) : Prop := ∃ e l, g.IsExit e ∧ g.Path b e l

/-- **Control cannot come from `b` to an exit without passing `p`.** -/
def PostDominates (g : FlowGraph) (p b : Nat) : Prop := ∀ e l, g.IsExit e → g.Path b e l → p ∈ l

/-- **The nearest strict post-dominator**: every other one post-dominates it. -/
structure NearestPostDominator (g : FlowGraph) (p b : Nat) : Prop where
  ne : p ≠ b
  postDominates : g.PostDominates p b
  nearest : ∀ q, q ≠ b → g.PostDominates q b → q ≠ p → g.PostDominates q p

variable {g : FlowGraph} {b p q s : Nat}

theorem PostDominates.succ (h : g.PostDominates p b) (hne : p ≠ b) (edge : s ∈ g.succs b) : g.PostDominates p s := by
  intro e l he hl
  exact (List.mem_cons.1 (h e _ he (.step edge hl))).resolve_left hne

theorem postDominates_of_succs (hne : g.succs b ≠ []) (h : ∀ s ∈ g.succs b, g.PostDominates p s) : g.PostDominates p b := by
  intro e l he hl
  cases hl with
  | stay => exact absurd he.succs hne
  | step edge rest => exact List.mem_cons_of_mem b (h _ edge e _ he rest)

theorem Exits.exists_nodup (h : g.Exits b) : ∃ e l, g.IsExit e ∧ g.Path b e l ∧ l.Nodup := by
  obtain ⟨e, l, he, hl⟩ := h
  obtain ⟨m, hm, hnodup, -⟩ := hl.exists_nodup
  exact ⟨e, m, he, hm, hnodup⟩

/-- Of two blocks that post-dominate each other control would pass neither last. -/
theorem PostDominates.antisymm (hpq : g.PostDominates p q) (hqp : g.PostDominates q p) (hp : g.Exits p) : p = q := by
  obtain ⟨e, l, he, hl, hnodup⟩ := hp.exists_nodup
  obtain ⟨front, back, rfl, hfront, hback⟩ := hl.split (hqp e l he hl)
  by_contra hne
  have hpfront : p ∈ front := by simpa [hne] using hfront.first_mem
  exact (List.nodup_append.1 hnodup).2.2 p hpfront p (hpq e _ he hback) rfl

theorem PostDominates.reaches (hp : g.PostDominates p b) (h : g.Exits b) (hb : g.Reaches b) : g.Reaches p := by
  obtain ⟨e, l, he, hl⟩ := h
  exact hl.reaches hb p (hp e l he hl)

theorem Exits.of_postDominates (h : g.Exits b) (hp : g.PostDominates p b) : g.Exits p := by
  obtain ⟨e, l, he, hl⟩ := h
  obtain ⟨front, back, rfl, -, hback⟩ := hl.split (hp e l he hl)
  exact ⟨e, _, he, hback⟩

/-- A post-dominator that a path passes behind another one is on every way out of that one. -/
theorem PostDominates.of_behind {front back : List Nat} (hq : g.PostDominates q b) (hl : g.Path b p (front ++ [p]))
    (hnodup : (front ++ p :: back).Nodup) (hback : q ∈ back) : g.PostDominates q p := by
  intro e l he hp
  have hmem := hq e _ he (hl.append hp)
  have hfront : q ∉ front ++ [p] := by
    intro h
    rw [← List.singleton_append, ← List.append_assoc] at hnodup
    exact (List.nodup_append.1 hnodup).2.2 q h q hback rfl
  exact List.mem_of_mem_tail ((List.mem_append.1 hmem).resolve_left hfront)

/-- **A block with a way out that has strict post-dominators has a nearest one**, the first on any way out that
passes no block twice. -/
theorem Exits.exists_nearest (h : g.Exits b) (hq : ∃ q, q ≠ b ∧ g.PostDominates q b) : ∃ p, g.NearestPostDominator p b := by
  classical
  obtain ⟨q, hne, hq⟩ := hq
  obtain ⟨e, l, he, hl, hnodup⟩ := h.exists_nodup
  obtain ⟨p, hp⟩ : ∃ p, l.find? (fun x => decide (x ≠ b ∧ g.PostDominates x b)) = some p := by
    rw [← Option.isSome_iff_exists, List.find?_isSome]
    exact ⟨q, hq e l he hl, by simp [hne, hq]⟩
  obtain ⟨hstrict, front, back, rfl, hfirst⟩ := List.find?_eq_some_iff_append.1 hp
  obtain ⟨hpb, hpost⟩ := of_decide_eq_true hstrict
  refine ⟨p, hpb, hpost, fun c hcb hc hcp => ?_⟩
  -- nothing in front of `p` is a strict post-dominator, so `c` is behind it
  have hcback : c ∈ back := by
    rcases List.mem_append.1 (hc e _ he hl) with hfront | hback
    · exact absurd (hfirst c hfront) (by simp [hcb, hc])
    · exact (List.mem_cons.1 hback).resolve_left hcp
  exact hc.of_behind hl.split_append.1 hnodup hcback

theorem NearestPostDominator.unique (h : g.NearestPostDominator p b) (h' : g.NearestPostDominator q b) (hb : g.Exits b) :
    q = p := by
  by_contra hne
  exact hne ((h.nearest q h'.ne h'.postDominates hne).antisymm (h'.nearest p h.ne h.postDominates (Ne.symm hne))
    (hb.of_postDominates h'.postDominates))

end FlowGraph

namespace PostDominance

open FlowGraph

section

variable {g : FlowGraph} {order : List Nat} {view : Nat → BitSet}

/-! ## Rounds -/

/-- **A round under way** that has come to the end of the blocks of `done`.  What post-dominates a reachable block is in
its set, and what is in a set lies on every path to an exit of at most `k` blocks; where the block is done, also on a path
of one block more. -/
structure Cutting (g : FlowGraph) (k : Nat) (done : List Nat) (view : Nat → BitSet) : Prop where
  pos : 0 < k
  bound : ∀ b, (view b).bound = g.size
  within : ∀ b p, (view b).contains p = true → p < g.size
  complete : ∀ b p, g.Reaches b → p < g.size → g.PostDominates p b → (view b).contains p = true
  passed : ∀ b e l, g.Reaches b → g.IsExit e → g.Path b e l → l.length ≤ k ∨ b ∈ done ∧ l.length ≤ k + 1 →
    ∀ p, (view b).contains p = true → p ∈ l
  apart : ∀ b, b < g.size → ¬ g.Reaches b → view b = BitSet.singleton g.size b

/-- **A set cut down**: the block itself and what the sets of all its successors have in common. -/
structure Cut (g : FlowGraph) (view : Nat → BitSet) (b : Nat) (set : BitSet) : Prop where
  bound : set.bound = g.size
  contains : ∀ p, set.contains p = true ↔ p = b ∨ ∀ s ∈ g.succs b, (view s).contains p = true

section

variable {k b : Nat} {done : List Nat} {set : BitSet}

/-- **Cutting down the set of a block keeps the bounds**, and the block is done. -/
theorem Cutting.update (hg : g.Closed) (h : Cutting g k done view) (hset : Cut g view b set) (hb : g.Reaches b)
    (hne : g.succs b ≠ []) : Cutting g k (done ++ [b]) (Function.update view b set) := by
  refine ⟨h.pos, fun x => ?_, fun x p hp => ?_, fun x p hx hlt hp => ?_, fun x e l hx he hl hk p hp => ?_, fun x hlt hx => ?_⟩ <;>
    by_cases hxb : x = b
  · rw [hxb, Function.update_self, hset.bound]
  · rw [Function.update_of_ne hxb, h.bound]
  · rw [hxb, Function.update_self, hset.contains] at hp
    rcases hp with rfl | hp
    · exact hg.lt_of_reaches hb
    · obtain ⟨s, hs⟩ := List.exists_mem_of_ne_nil _ hne
      exact h.within s p (hp s hs)
  · rw [Function.update_of_ne hxb] at hp
    exact h.within x p hp
  · subst hxb
    rw [Function.update_self, hset.contains]
    refine Classical.or_iff_not_imp_left.2 fun hpb s hs => ?_
    exact h.complete s p (hb.step hs) hlt (hp.succ hpb hs)
  · rw [Function.update_of_ne hxb]
    exact h.complete x p hx hlt hp
  · subst hxb
    rw [Function.update_self, hset.contains] at hp
    cases hl with
    | stay => exact absurd he.succs hne
    | @step _ s _ l edge rest =>
      rw [List.length_cons] at hk
      rcases hp with rfl | hp
      · exact List.mem_cons_self
      · exact List.mem_cons_of_mem x (h.passed s e l (hb.step edge) he rest (.inl (by omega)) p (hp s edge))
  · rw [Function.update_of_ne hxb] at hp
    exact h.passed x e l hx he hl (by simpa [hxb] using hk) p hp
  · exact absurd (hxb ▸ hb) hx
  · rw [Function.update_of_ne hxb]
    exact h.apart x hlt hx

/-- An exit is done as it is. -/
theorem Cutting.exit (h : Cutting g k done view) (hb : g.succs b = []) : Cutting g k (done ++ [b]) view := by
  refine ⟨h.pos, h.bound, h.within, h.complete, fun x e l hx he hl hk p hp => ?_, h.apart⟩
  by_cases hxb : x = b
  · subst hxb
    cases hl with
    | stay => exact h.passed x x _ hx he (.stay x) (.inl h.pos) p hp
    | step edge _ =>
      rw [hb] at edge
      cases edge
  · exact h.passed x e l hx he hl (by simpa [hxb] using hk) p hp

theorem contains_foldl_inter {sets : Array BitSet} (hbound : ∀ b, (setAt g.size sets b).bound = g.size) (p : Nat) :
    ∀ (rest : List Nat) (set : BitSet), set.bound = g.size →
    ((rest.foldl (fun set t => set.inter (setAt g.size sets t)) set).contains p = true ↔
      set.contains p = true ∧ ∀ t ∈ rest, (setAt g.size sets t).contains p = true)
  | [], set, _ => by simp
  | t :: rest, set, hset => by
    rw [List.foldl_cons, contains_foldl_inter hbound p rest _ ((BitSet.bound_inter _ _).trans hset),
      BitSet.contains_inter (hset.trans (hbound t).symm)]
    simp [and_assoc]

theorem bound_foldl_inter (sets : Array BitSet) : ∀ (rest : List Nat) (set : BitSet),
    (rest.foldl (fun set t => set.inter (setAt g.size sets t)) set).bound = set.bound
  | [], _ => rfl
  | t :: rest, set => (bound_foldl_inter sets rest (set.inter (setAt g.size sets t))).trans (BitSet.bound_inter _ _)

theorem setAt_setIfInBounds {sets : Array BitSet} (hb : b < sets.size) (set : BitSet) :
    setAt g.size (sets.setIfInBounds b set) = Function.update (setAt g.size sets) b set := by
  funext x
  by_cases hx : x = b
  · subst hx
    simp [setAt, hb]
  · simp [setAt, Ne.symm hx, hx]

variable {reached : Nat → Bool}

/-- **What revising a block does**: an exit is left alone, and the set of another block is cut down. -/
theorem revise_cases (hg : g.Closed) (hreached : ∀ b, reached b = true ↔ g.Reaches b) (hb : g.Reaches b)
    (state : Array BitSet × Bool) (hbound : ∀ b, (setAt g.size state.1 b).bound = g.size) :
    g.succs b = [] ∧ revise g reached state b = state ∨
      ∃ set, g.succs b ≠ [] ∧ Cut g (setAt g.size state.1) b set ∧ revise g reached state b =
        if set = setAt g.size state.1 b then state else (state.1.setIfInBounds b set, true) := by
  have hfilter : (g.succs b).filter reached = g.succs b :=
    List.filter_eq_self.2 fun s hs => (hreached s).2 (hb.step hs)
  unfold revise
  rw [hfilter]
  cases hsuccs : g.succs b with
  | nil => exact .inl ⟨rfl, rfl⟩
  | cons s rest =>
    refine .inr ⟨_, List.cons_ne_nil s rest, ⟨?_, fun p => ?_⟩, rfl⟩
    · rw [BitSet.bound_insert, bound_foldl_inter, hbound]
    · have hlt : b < (rest.foldl (fun set t => set.inter (setAt g.size state.1 t)) (setAt g.size state.1 s)).bound := by
        rw [bound_foldl_inter, hbound]
        exact hg.lt_of_reaches hb
      rw [BitSet.contains_insert _ hlt, Bool.or_eq_true, decide_eq_true_iff,
        contains_foldl_inter hbound p rest _ (hbound s), hsuccs, List.forall_mem_cons, or_comm, eq_comm]

theorem Cutting.revise (hg : g.Closed) (hreached : ∀ b, reached b = true ↔ g.Reaches b) (hb : g.Reaches b)
    {state : Array BitSet × Bool} (hsize : state.1.size = g.size) (h : Cutting g k done (setAt g.size state.1)) :
    (revise g reached state b).1.size = g.size ∧
      Cutting g k (done ++ [b]) (setAt g.size (revise g reached state b).1) ∧
      (revise g reached state b = state ∨ (revise g reached state b).2 = true) := by
  rcases revise_cases hg hreached hb state h.bound with ⟨hsuccs, heq⟩ | ⟨set, hsuccs, hset, heq⟩
  · rw [heq]
    exact ⟨hsize, h.exit hsuccs, .inl rfl⟩
  · have hnext := h.update hg hset hb hsuccs
    rw [heq]
    by_cases hsame : set = setAt g.size state.1 b
    · rw [if_pos hsame]
      rw [hsame, Function.update_eq_self] at hnext
      exact ⟨hsize, hnext, .inl rfl⟩
    · rw [if_neg hsame]
      rw [← setAt_setIfInBounds (hsize ▸ hg.lt_of_reaches hb)] at hnext
      exact ⟨by simpa using hsize, hnext, .inr rfl⟩

end

variable {reached : Nat → Bool}

/-- **A round takes the bounds one block further.** -/
theorem exists_round (hg : g.Closed) (hr : g.Ranked order) (hreached : ∀ b, reached b = true ↔ g.Reaches b) {k : Nat}
    {sets : Array BitSet} (hsize : sets.size = g.size) (h : Cutting g k [] (setAt g.size sets)) :
    ∃ sets' changed, order.foldl (revise g reached) (sets, false) = (sets', changed) ∧
      (sets'.size = g.size ∧ Cutting g (k + 1) [] (setAt g.size sets')) ∧ (changed = false → sets' = sets) := by
  obtain ⟨hsize', hend, hsame⟩ := Outcome.foldl_keeps (f := revise g reached) (l := order) (s := (sets, false))
    (P := fun done state => state.1.size = g.size ∧ Cutting g k done (setAt g.size state.1) ∧
      (state.2 = false → state.1 = sets)) ⟨hsize, h, fun _ => rfl⟩ (by
      rintro done b rest state horder ⟨hnow, hcutting, hsame⟩
      have hb : g.Reaches b := (hr.mem b).1 (by rw [horder]; simp)
      obtain ⟨hsize', hnext, hchanged⟩ := hcutting.revise hg hreached hb hnow
      refine ⟨hsize', hnext, fun hfalse => ?_⟩
      rcases hchanged with heq | htrue
      · rw [heq] at hfalse ⊢
        exact hsame hfalse
      · rw [hfalse] at htrue
        cases htrue)
  refine ⟨_, _, rfl, ⟨hsize', Nat.succ_pos k, hend.bound, hend.within, hend.complete, ?_, hend.apart⟩, hsame⟩
  intro b e l hb he hl hk p hp
  exact hend.passed b e l hb he hl (.inr ⟨(hr.mem b).2 hb, by simpa using hk⟩) p hp

/-- **The bounds have met**: the set of a reachable block holds its post-dominators. -/
structure Exact (g : FlowGraph) (view : Nat → BitSet) : Prop where
  bound : ∀ b, (view b).bound = g.size
  contains : ∀ b p, g.Reaches b → ((view b).contains p = true ↔ p < g.size ∧ g.PostDominates p b)
  apart : ∀ b, b < g.size → ¬ g.Reaches b → view b = BitSet.singleton g.size b

theorem Cutting.exact (hr : g.Ranked order) (h : Cutting g order.length [] view) : Exact g view := by
  refine ⟨h.bound, fun b p hb => ⟨fun hp => ⟨h.within b p hp, fun e l he hl => ?_⟩, fun hp => h.complete b p hb hp.1 hp.2⟩,
    h.apart⟩
  obtain ⟨m, hm, hlength, hsub⟩ := hr.exists_short hl hb
  exact hsub (h.passed b e m hb he hm (.inl hlength) p hp)

theorem Exact.cut_eq (hg : g.Closed) (h : Exact g view) {b : Nat} {set : BitSet} (hset : Cut g view b set)
    (hb : g.Reaches b) (hne : g.succs b ≠ []) : set = view b := by
  refine BitSet.ext_contains (hset.bound.trans (h.bound b).symm) fun p => ?_
  rw [hset.contains, h.contains b p hb]
  constructor
  · rintro (rfl | hp)
    · exact ⟨hg.lt_of_reaches hb, fun _ _ _ hl => hl.first_mem⟩
    · obtain ⟨s, hs⟩ := List.exists_mem_of_ne_nil _ hne
      refine ⟨((h.contains s p (hb.step hs)).1 (hp s hs)).1, postDominates_of_succs hne fun t ht => ?_⟩
      exact ((h.contains t p (hb.step ht)).1 (hp t ht)).2
  · rintro ⟨hlt, hp⟩
    refine Classical.or_iff_not_imp_left.2 fun hpb s hs => ?_
    exact (h.contains s p (hb.step hs)).2 ⟨hlt, hp.succ hpb hs⟩

theorem Exact.round (hg : g.Closed) (hr : g.Ranked order) (hreached : ∀ b, reached b = true ↔ g.Reaches b)
    {sets : Array BitSet} (h : Exact g (setAt g.size sets)) :
    order.foldl (revise g reached) (sets, false) = (sets, false) := by
  refine Outcome.foldl_keeps (P := fun _ state => state = (sets, false)) rfl ?_
  rintro done b rest _ horder rfl
  have hb : g.Reaches b := (hr.mem b).1 (by rw [horder]; simp)
  rcases revise_cases hg hreached hb (sets, false) h.bound with ⟨-, heq⟩ | ⟨set, hsuccs, hset, heq⟩
  · exact heq
  · rw [heq, if_pos (h.cut_eq hg hset hb hsuccs)]

theorem any_succs (hreached : ∀ b, reached b = true ↔ g.Reaches b) {b : Nat} (hb : g.Reaches b) :
    (g.succs b).any reached = true ↔ g.succs b ≠ [] := by
  rw [List.any_eq_true]
  constructor
  · rintro ⟨s, hs, -⟩
    exact List.ne_nil_of_mem hs
  · intro hne
    obtain ⟨s, hs⟩ := List.exists_mem_of_ne_nil _ hne
    exact ⟨s, hs, (hreached s).2 (hb.step hs)⟩

theorem setAt_initial (b : Nat) : setAt g.size (initial g reached) b =
    if b < g.size then
      if !reached b || !(g.succs b).any reached then BitSet.singleton g.size b else BitSet.full g.size
    else BitSet.empty g.size := by
  unfold setAt initial
  rw [List.getElem?_toArray, List.getElem?_map]
  by_cases hb : b < g.size
  · simp [hb]
  · simp [hb]

theorem cutting_start (hg : g.Closed) (hreached : ∀ b, reached b = true ↔ g.Reaches b) :
    Cutting g 1 [] (setAt g.size (initial g reached)) := by
  have hexit : ∀ {b}, g.IsExit b → setAt g.size (initial g reached) b = BitSet.singleton g.size b := by
    intro b hb
    rw [setAt_initial, if_pos (hg.lt_of_reaches hb.reaches), if_pos]
    simp [hb.succs]
  have hfull : ∀ {b}, g.Reaches b → g.succs b ≠ [] → setAt g.size (initial g reached) b = BitSet.full g.size := by
    intro b hb hne
    rw [setAt_initial, if_pos (hg.lt_of_reaches hb), if_neg]
    simpa [(hreached b).2 hb] using (any_succs hreached hb).2 hne
  refine ⟨Nat.one_pos, fun b => ?_, fun b p hp => ?_, fun b p hb hlt hp => ?_, fun b e l hb he hl hk p hp => ?_,
    fun b hlt hb => ?_⟩
  · rw [setAt_initial]
    split
    · split
      · exact BitSet.bound_insert _ _
      · rfl
    · rfl
  · rw [setAt_initial] at hp
    split at hp
    · rename_i hlt
      split at hp
      · rw [BitSet.contains_singleton hlt, decide_eq_true_iff] at hp
        exact hp ▸ hlt
      · rwa [BitSet.contains_full, decide_eq_true_iff] at hp
    · rw [BitSet.contains_empty] at hp
      cases hp
  · by_cases hne : g.succs b = []
    · have he : g.IsExit b := ⟨hb, hne⟩
      rw [hexit he, BitSet.contains_singleton (hg.lt_of_reaches hb), decide_eq_true_iff]
      exact (List.mem_singleton.1 (hp b _ he (.stay b))).symm
    · rw [hfull hb hne, BitSet.contains_full, decide_eq_true_iff]
      exact hlt
  · cases hl with
    | stay =>
      rw [hexit he, BitSet.contains_singleton (hg.lt_of_reaches hb), decide_eq_true_iff] at hp
      exact hp ▸ List.mem_cons_self
    | step _ rest =>
      have := List.length_pos_of_mem rest.first_mem
      have hshort := hk.resolve_right fun h => List.not_mem_nil h.1
      rw [List.length_cons] at hshort
      omega
  · rw [setAt_initial, if_pos hlt, if_pos]
    have hfalse : reached b = false := Bool.eq_false_iff.2 fun h => hb ((hreached b).1 h)
    rw [hfalse]
    rfl

/-- **As many rounds as there are blocks settle all of them.** -/
theorem exists_settle (hg : g.Closed) (hr : g.Ranked order) (hreached : ∀ b, reached b = true ↔ g.Reaches b) :
    ∃ sets, settle g order reached = .ok sets ∧ sets.size = g.size ∧ Exact g (setAt g.size sets) := by
  have hlength := hr.length_le hg
  obtain ⟨sets, hsets, hsize, hend⟩ := exists_untilStable
    (P := fun k sets => sets.size = g.size ∧ Cutting g k [] (setAt g.size sets)) (n := order.length)
    (fun k sets h => by
      obtain ⟨sets', changed, hround, hnext⟩ := exists_round hg hr hreached h.1 h.2
      exact ⟨sets', changed, congrArg Except.ok hround, hnext⟩)
    (fun sets h => congrArg Except.ok ((h.2.exact hr).round hg hr hreached)) (List.length_pos_of_mem hr.entry_mem)
    (show order.length < 1 + g.size by omega) ⟨by simp [initial], cutting_start hg hreached⟩
  exact ⟨sets, hsets, hsize, hend.exact hr⟩

/-! ## The nearest -/

theorem contains_foldl_erase (cond : Nat → Prop) [DecidablePred cond] (m : Nat) : ∀ (l : List Nat) (set : BitSet),
    (l.foldl (fun left d => if cond d then left.erase d else left) set).contains m = true ↔
      set.contains m = true ∧ (m ∈ l → ¬ cond m)
  | [], set => by simp
  | d :: l, set => by
    rw [List.foldl_cons, contains_foldl_erase cond m l]
    by_cases hd : cond d
    · rw [if_pos hd, BitSet.contains_erase]
      by_cases hmd : d = m
      · subst hmd
        simp [hd]
      · simp [hmd, Ne.symm hmd]
    · rw [if_neg hd]
      by_cases hmd : m = d
      · subst hmd
        simp [hd]
      · simp [hmd]

theorem bound_foldl_erase (cond : Nat → Prop) [DecidablePred cond] : ∀ (l : List Nat) (set : BitSet),
    (l.foldl (fun left d => if cond d then left.erase d else left) set).bound = set.bound
  | [], _ => rfl
  | d :: l, set => by
    rw [List.foldl_cons, bound_foldl_erase cond l]
    split
    · exact BitSet.bound_erase set d
    · rfl

/-- **What is left when each of `cs` has dropped what it allows of `ds`.** -/
theorem contains_foldl_foldl_erase (cond : Nat → Nat → Prop) [∀ c d, Decidable (cond c d)] (ds : List Nat) (m : Nat) :
    ∀ (cs : List Nat) (set : BitSet),
    (cs.foldl (fun left c => ds.foldl (fun left d => if cond c d then left.erase d else left) left) set).contains m = true ↔
      set.contains m = true ∧ (m ∈ ds → ∀ c ∈ cs, ¬ cond c m)
  | [], set => by simp
  | c :: cs, set => by
    rw [List.foldl_cons, contains_foldl_foldl_erase cond ds m cs, contains_foldl_erase (cond c)]
    simp only [List.forall_mem_cons, and_assoc]
    exact and_congr_right fun _ => ⟨fun h hm => ⟨h.1 hm, h.2 hm⟩, fun h => ⟨fun hm => (h hm).1, fun hm => (h hm).2⟩⟩

theorem bound_foldl_foldl_erase (cond : Nat → Nat → Prop) [∀ c d, Decidable (cond c d)] (ds : List Nat) :
    ∀ (cs : List Nat) (set : BitSet),
    (cs.foldl (fun left c => ds.foldl (fun left d => if cond c d then left.erase d else left) left) set).bound = set.bound
  | [], _ => rfl
  | c :: cs, set => by
    rw [List.foldl_cons, bound_foldl_foldl_erase cond ds cs, bound_foldl_erase (cond c)]

variable {sets : Array BitSet} {b : Nat}

/-- **The strict post-dominators left over are the nearest ones.** -/
theorem Exact.contains_nearest (hg : g.Closed) (h : Exact g (setAt g.size sets)) (hb : g.Reaches b) (hexits : g.Exits b)
    (p : Nat) : (nearest g.size sets b).contains p = true ↔ g.NearestPostDominator p b := by
  have hreaches : ∀ {q}, g.PostDominates q b → g.Reaches q := fun hq => hq.reaches hexits hb
  have hstrict : ∀ q, ((setAt g.size sets b).erase b).contains q = true ↔ q ≠ b ∧ g.PostDominates q b := by
    intro q
    rw [BitSet.contains_erase, Bool.and_eq_true, decide_eq_true_iff, h.contains b q hb]
    exact ⟨fun hq => ⟨Ne.symm hq.2, hq.1.2⟩, fun hq => ⟨⟨hg.lt_of_reaches (hreaches hq.2), hq.2⟩, Ne.symm hq.1⟩⟩
  have hlist : ∀ q, q ∈ ((setAt g.size sets b).erase b).toList ↔ q ≠ b ∧ g.PostDominates q b := by
    intro q
    rw [BitSet.mem_toList, BitSet.bound_erase, h.bound, hstrict]
    exact and_iff_right_of_imp fun hq => hg.lt_of_reaches (hreaches hq.2)
  unfold nearest
  rw [contains_foldl_foldl_erase (fun c d => c ≠ d ∧ (setAt g.size sets c).contains d = true), hstrict, hlist]
  constructor
  · rintro ⟨hp, hleft⟩
    -- the nearest one would have dropped any other
    obtain ⟨q, hq⟩ := hexits.exists_nearest ⟨p, hp⟩
    by_cases hpq : p = q
    · exact hpq ▸ hq
    · refine absurd ⟨Ne.symm hpq, ?_⟩ (hleft hp q ((hlist q).2 ⟨hq.ne, hq.postDominates⟩))
      refine (h.contains q p (hreaches hq.postDominates)).2 ⟨hg.lt_of_reaches (hreaches hp.2), ?_⟩
      exact hq.nearest p hp.1 hp.2 hpq
  · intro hp
    refine ⟨⟨hp.ne, hp.postDominates⟩, fun _ c hc ⟨hcp, hcontains⟩ => ?_⟩
    obtain ⟨hcb, hcpost⟩ := (hlist c).1 hc
    have hpc := ((h.contains c p (hreaches hcpost)).1 hcontains).2
    exact hcp ((hp.nearest c hcb hcpost hcp).antisymm hpc (hexits.of_postDominates hcpost))

theorem bound_nearest (h : Exact g (setAt g.size sets)) (b : Nat) : (nearest g.size sets b).bound = g.size := by
  unfold nearest
  rw [bound_foldl_foldl_erase (fun c d => c ≠ d ∧ (setAt g.size sets c).contains d = true), BitSet.bound_erase, h.bound]

/-- **No rivals are left over.** -/
theorem Exact.toList_nearest (hg : g.Closed) (h : Exact g (setAt g.size sets)) (hb : g.Reaches b) (hexits : g.Exits b) :
    (nearest g.size sets b).toList = [] ∧ (∀ p, ¬ g.NearestPostDominator p b) ∨
      ∃ p, (nearest g.size sets b).toList = [p] ∧ g.NearestPostDominator p b := by
  have hmem : ∀ p, p ∈ (nearest g.size sets b).toList ↔ g.NearestPostDominator p b := by
    intro p
    rw [BitSet.mem_toList, bound_nearest h, h.contains_nearest hg hb hexits]
    exact and_iff_right_of_imp fun hp => hg.lt_of_reaches (hp.postDominates.reaches hexits hb)
  have hnodup := BitSet.nodup_toList (nearest g.size sets b)
  cases hl : (nearest g.size sets b).toList with
  | nil => exact .inl ⟨rfl, fun p hp => by rw [← hmem, hl] at hp; cases hp⟩
  | cons p rest =>
    have hp : g.NearestPostDominator p b := (hmem p).1 (hl ▸ List.mem_cons_self)
    cases rest with
    | nil => exact .inr ⟨p, rfl, hp⟩
    | cons q rest =>
      have hq : g.NearestPostDominator q b := (hmem q).1 (hl ▸ List.mem_cons_of_mem p List.mem_cons_self)
      rw [hl, hp.unique hq hexits] at hnodup
      simp at hnodup

/-- **The nearest post-dominators noted so far**, those of the blocks of `done` that have one. -/
structure Chosen (g : FlowGraph) (done : List Nat) (found : Array (Option Nat)) : Prop where
  size : found.size = g.size
  ipdom : ∀ b p, found[b]?.join = some p ↔ b ∈ done ∧ g.Exits b ∧ g.NearestPostDominator p b

theorem Chosen.skip {done : List Nat} {found : Array (Option Nat)} (h : Chosen g done found)
    (hb : ∀ p, g.Exits b → ¬ g.NearestPostDominator p b) : Chosen g (done ++ [b]) found := by
  refine ⟨h.size, fun x p => ?_⟩
  rw [h.ipdom, List.mem_append, List.mem_singleton]
  refine ⟨fun ⟨hx, hrest⟩ => ⟨.inl hx, hrest⟩, fun ⟨hx, hexits, hp⟩ => ⟨hx.resolve_right ?_, hexits, hp⟩⟩
  rintro rfl
  exact hb p hexits hp

theorem Chosen.note {done : List Nat} {found : Array (Option Nat)} {p : Nat} (h : Chosen g done found) (hlt : b < g.size)
    (hexits : g.Exits b) (hp : g.NearestPostDominator p b) : Chosen g (done ++ [b]) (found.setIfInBounds b (some p)) := by
  refine ⟨by simpa using h.size, fun x q => ?_⟩
  by_cases hxb : x = b
  · subst hxb
    rw [Array.getElem?_setIfInBounds_self_of_lt (h.size ▸ hlt), Option.join_some, Option.some.injEq]
    exact ⟨fun hq => ⟨by simp, hexits, hq ▸ hp⟩, fun hq => hq.2.2.unique hp hexits⟩
  · rw [Array.getElem?_setIfInBounds_ne (Ne.symm hxb), h.ipdom]
    simp [hxb]

theorem exists_choose (hg : g.Closed) (hr : g.Ranked order) (h : Exact g (setAt g.size sets)) {exiting : BitSet}
    (hexiting : ∀ b, exiting.contains b = true ↔ g.Reaches b ∧ g.Exits b) :
    ∃ found, order.foldlM (choose g.size sets exiting) (Array.replicate g.size none) = .ok found ∧
      Chosen g order found := by
  refine Outcome.exists_foldlM (P := Chosen g) ⟨by simp, fun b p => ?_⟩ ?_
  · by_cases hb : b < g.size <;> simp [hb]
  · intro done b rest found horder hfound
    have hb : g.Reaches b := (hr.mem b).1 (by rw [horder]; simp)
    unfold choose
    by_cases hcontains : exiting.contains b = true
    · have hexits := ((hexiting b).1 hcontains).2
      rw [if_pos hcontains]
      rcases h.toList_nearest hg hb hexits with ⟨hnil, hnone⟩ | ⟨p, hone, hp⟩
      · rw [hnil]
        exact ⟨found, rfl, hfound.skip fun p _ => hnone p⟩
      · rw [hone]
        exact ⟨_, rfl, hfound.note (hg.lt_of_reaches hb) hexits hp⟩
    · rw [if_neg hcontains]
      exact ⟨found, rfl, hfound.skip fun p hexits => absurd ((hexiting b).2 ⟨hb, hexits⟩) hcontains⟩

/-! ## The blocks with a way out -/

theorem mem_exitsOf (hg : g.Closed) (hreached : ∀ b, reached b = true ↔ g.Reaches b) (e : Nat) :
    e ∈ exitsOf g reached ↔ g.IsExit e := by
  unfold exitsOf
  rw [List.mem_filter, List.mem_range, Bool.and_eq_true, hreached, Bool.not_eq_true', Bool.eq_false_iff]
  constructor
  · rintro ⟨-, he, hany⟩
    refine ⟨he, ?_⟩
    by_contra hne
    exact hany ((any_succs hreached he).2 hne)
  · intro he
    exact ⟨hg.lt_of_reaches he.reaches, he.reaches, fun hany => (any_succs hreached he.reaches).1 hany he.succs⟩

theorem contains_exiting (hg : g.Checked) (hreached : ∀ b, reached b = true ↔ g.Reaches b) (b : Nat) :
    (reachableFrom g.size (fun b => (g.preds b).filter reached) (exitsOf g reached)).contains b = true ↔
      g.Reaches b ∧ g.Exits b := by
  have hnext : ∀ a c, c ∈ (g.preds a).filter reached ↔ a ∈ g.succs c ∧ g.Reaches c := by
    intro a c
    rw [List.mem_filter, hg.mem_preds, hreached]
  rw [contains_reachableFrom (fun e he => hg.lt_of_reaches ((mem_exitsOf hg.toClosed hreached e).1 he).reaches)
    fun a c hc => hg.lt_of_reaches ((hnext a c).1 hc).2]
  constructor
  · rintro ⟨e, he, hback⟩
    rw [mem_exitsOf hg.toClosed hreached] at he
    induction hback with
    | refl => exact ⟨he.reaches, e, _, he, .stay e⟩
    | @tail a c _ hc ih =>
      obtain ⟨-, e', l, he', hl⟩ := ih
      obtain ⟨edge, hreach⟩ := (hnext a c).1 hc
      exact ⟨hreach, e', _, he', .step edge hl⟩
  · rintro ⟨hb, e, l, he, hl⟩
    refine ⟨e, (mem_exitsOf hg.toClosed hreached e).2 he, ?_⟩
    induction hl with
    | stay => exact .refl
    | step edge _ ih => exact (ih (hb.step edge) he).tail ((hnext _ _).2 ⟨edge, hb⟩)

/-- **Post-dominance read off the ways out**: the sets hold the post-dominators of reachable blocks, each block that has a
nearest one and a way out is noted with it, and the blocks with a way out are known. -/
structure ReadOff (g : FlowGraph) (pd : PostDominance) : Prop where
  sets : Exact g pd.setOf
  ipdom : ∀ b p, pd.ipdom b = some p ↔ g.Reaches b ∧ g.Exits b ∧ g.NearestPostDominator p b
  reachesExit : ∀ b, pd.reachesExit b = true ↔ g.Reaches b ∧ g.Exits b

theorem exists_readOff (hg : g.Checked) (hr : g.Ranked order) : ∃ pd, compute g order = .ok pd ∧ ReadOff g pd := by
  have hreached : ∀ b, (BitSet.ofPred g.size order.contains).contains b = true ↔ g.Reaches b := by
    intro b
    rw [BitSet.contains_ofPred, Bool.and_eq_true, decide_eq_true_iff, List.contains_iff_mem, hr.mem]
    exact and_iff_right_of_imp fun hb => hg.lt_of_reaches hb
  obtain ⟨sets, hsets, hsize, hexact⟩ := exists_settle hg.toClosed hr hreached
  have hexiting := contains_exiting hg hreached
  obtain ⟨found, hfound, hchosen⟩ := exists_choose hg.toClosed hr hexact hexiting
  refine ⟨_, Outcome.bind_eq_ok.2 ⟨sets, hsets, Outcome.bind_eq_ok.2 ⟨found, hfound, rfl⟩⟩, ?_, fun b p => ?_, hexiting⟩
  · have hview : setOf ⟨sets, found, reachableFrom g.size
        (fun b => (g.preds b).filter (BitSet.ofPred g.size order.contains).contains)
        (exitsOf g (BitSet.ofPred g.size order.contains).contains)⟩ = setAt g.size sets := by
      funext b
      rw [setOf, setAt, hsize]
    exact hview ▸ hexact
  · rw [← hr.mem]
    exact hchosen.ipdom b p

theorem exists_of (hg : g.Checked) : ∃ pd, of g = .ok pd ∧ ReadOff g pd :=
  exists_readOff hg (ranked_postOrder hg.toClosed)

variable {pd : PostDominance}

theorem ReadOff.postDominates_iff (hg : g.Closed) (h : ReadOff g pd) (hb : g.Reaches b) (hexits : g.Exits b) (p : Nat) :
    pd.postDominates p b = true ↔ g.PostDominates p b := by
  rw [postDominates, h.sets.contains b p hb]
  exact and_iff_right_of_imp fun hp => hg.lt_of_reaches (hp.reaches hexits hb)

theorem ReadOff.ipdom_eq_none (h : ReadOff g pd) (hb : g.Reaches b) (hexits : g.Exits b) :
    pd.ipdom b = none ↔ ∀ p, p ≠ b → ¬ g.PostDominates p b := by
  rw [Option.eq_none_iff_forall_ne_some]
  constructor
  · intro hnone p hne hp
    obtain ⟨q, hq⟩ := hexits.exists_nearest ⟨p, hne, hp⟩
    exact hnone q ((h.ipdom b q).2 ⟨hb, hexits, hq⟩)
  · intro hnone p hp
    obtain ⟨-, -, hnearest⟩ := (h.ipdom b p).1 hp
    exact hnone p hnearest.ne hnearest.postDominates

theorem ReadOff.setOf_eq_full (h : ReadOff g pd) (hb : g.Reaches b) (hexits : ¬ g.Exits b) :
    pd.setOf b = BitSet.full g.size := by
  refine BitSet.ext_contains (h.sets.bound b) fun p => ?_
  rw [h.sets.contains b p hb, BitSet.contains_full, decide_eq_true_iff]
  exact and_iff_left fun e l he hl => absurd ⟨e, l, he, hl⟩ hexits

end

/-- **Post-dominance is exact on every checked graph**, and no fault is met in working it out. -/
theorem compute_reads_off_ways_out {o : Outline} {g : FlowGraph} (h : ofOutline o = .ok g) :
    ∃ pd, compute g g.postOrder = .ok pd ∧ of g = .ok pd ∧
      (∀ b, g.Reaches b → (pd.reachesExit b = true ↔ ∃ e l, g.IsExit e ∧ g.Path b e l)) ∧
      (∀ b, g.Reaches b → g.Exits b →
        (∀ p, pd.postDominates p b = true ↔ ∀ e l, g.IsExit e → g.Path b e l → p ∈ l) ∧
        (∀ p, pd.ipdom b = some p ↔ g.NearestPostDominator p b) ∧
        (pd.ipdom b = none ↔ ∀ p, p ≠ b → ¬ g.PostDominates p b)) ∧
      (∀ b, g.Reaches b → ¬ g.Exits b → pd.ipdom b = none ∧ pd.setOf b = BitSet.full g.size) ∧
      ∀ b, b < g.size → ¬ g.Reaches b → pd.setOf b = BitSet.singleton g.size b := by
  have hg := checked_ofOutline h
  obtain ⟨pd, hpd, hreadOff⟩ := exists_of hg
  refine ⟨pd, hpd, hpd, fun b hb => ?_, fun b hb hexits => ⟨?_, fun p => ?_, ?_⟩, fun b hb hexits => ⟨?_, ?_⟩,
    hreadOff.sets.apart⟩
  · exact (hreadOff.reachesExit b).trans (and_iff_right hb)
  · exact hreadOff.postDominates_iff hg.toClosed hb hexits
  · exact (hreadOff.ipdom b p).trans ((and_iff_right hb).trans (and_iff_right hexits))
  · exact hreadOff.ipdom_eq_none hb hexits
  · refine Option.eq_none_iff_forall_ne_some.2 fun p hp => ?_
    exact hexits ((hreadOff.ipdom b p).1 hp).2.1
  · exact hreadOff.setOf_eq_full hb hexits

/-- Blocks two and three both lead from block one to block four, which leads to the exit, block five, or into block six,
which never ends; nothing leads to block seven. -/
def snare : Outline :=
  ⟨0, [⟨[1], false, false, false, [0]⟩, ⟨[2, 3], false, false, false, [1]⟩, ⟨[4], false, false, false, [2]⟩,
    ⟨[4], false, false, false, [3]⟩, ⟨[5, 6], false, false, false, [4]⟩, ⟨[], false, false, false, [5]⟩,
    ⟨[6], false, false, false, [6]⟩, ⟨[5], false, false, false, [7]⟩]⟩

theorem compute_reads_off_ways_out_snare : ∃ g pd, ofOutline snare = .ok g ∧ compute g g.postOrder = .ok pd ∧
    (List.range 8).map pd.ipdom = [some 1, some 4, some 4, some 4, some 5, none, none, none] ∧
    (List.range 8).filter pd.reachesExit = [0, 1, 2, 3, 4, 5] ∧
    ∀ b, g.Reaches b → g.Exits b → ∀ p, pd.ipdom b = some p ↔ g.NearestPostDominator p b := by
  obtain ⟨g, hg⟩ : ∃ g, ofOutline snare = .ok g := ⟨_, rfl⟩
  obtain ⟨pd, hcompute, hof, -, hexits, -⟩ := compute_reads_off_ways_out hg
  have heval : (ofOutline snare).toOption.map (fun g => (of g).toOption.map fun pd =>
      ((List.range 8).map pd.ipdom, (List.range 8).filter pd.reachesExit)) =
      some (some ([some 1, some 4, some 4, some 4, some 5, none, none, none], [0, 1, 2, 3, 4, 5])) := by decide +kernel
  have hpd := Outcome.eq_of_eval hof (Outcome.eq_of_eval hg heval)
  obtain ⟨hipdoms, hreaches⟩ := Prod.mk.inj hpd
  exact ⟨g, pd, hg, hcompute, hipdoms, hreaches, fun b hb hb' => (hexits b hb hb').2.1⟩

end PostDominance

end CodeImage
