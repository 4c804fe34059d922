import Mathlib.Logic.Function.Basic
import CodeImage.Proofs.Flow.DominatorTree
/-!
# Dominance — the blocks that every path passes

Block `d` dominates `b` when every path from the entry to `b` passes it (`FlowGraph.Dominates`).  The rounds keep two
bounds (`Settling`): what dominates a settled block is above it, and what is above a block lies on every path to it that has
no more blocks than rounds were made, and one.  A path that passes no block twice has no more blocks than are reachable,
so after that many rounds the bounds meet (`Exact`) and a round changes nothing.  Hence the dominance of a checked graph
is what its paths say (`readOff_of`).
-/
namespace CodeImage

namespace FlowGraph

variable {g : FlowGraph} {b d p : Nat}

/-- **Control cannot come to `b` without passing `d`.** -/
def Dominates (g : FlowGraph) (d b : Nat) : Prop := ∀ l, g.Path g.entry b l → d ∈ l

/-- **The nearest strict dominator**: every other one dominates it. -/
structure NearestDominator (g : FlowGraph) (d b : Nat) : Prop where
  ne : d ≠ b
  dominates : g.Dominates d b
  nearest : ∀ e, e ≠ b → g.Dominates e b → e ≠ d → g.Dominates e d

theorem Dominates.pred (h : g.Dominates d b) (hne : d ≠ b) (edge : b ∈ g.succs p) : g.Dominates d p := by
  intro l hl
  have hmem := h _ (hl.snoc edge)
  simpa [hne] using hmem

theorem dominates_of_preds (hne : b ≠ g.entry) (h : ∀ p, b ∈ g.succs p → g.Reaches p → g.Dominates d p) :
    g.Dominates d b := by
  intro l hl
  rcases hl.last_step with ⟨rfl, -⟩ | ⟨p, front, edge, hfront, rfl⟩
  · exact absurd rfl hne
  · exact List.mem_append_left _ (h p edge (reaches_iff_path.2 ⟨front, hfront⟩) front hfront)

theorem Dominates.reaches (h : g.Dominates d b) (hb : g.Reaches b) : g.Reaches d := by
  obtain ⟨l, hl⟩ := reaches_iff_path.1 hb
  exact hl.reaches .refl d (h l hl)

/-- Of two blocks that dominate each other control would pass neither first. -/
theorem Dominates.antisymm (hdb : g.Dominates d b) (hbd : g.Dominates b d) (hb : g.Reaches b) : d = b := by
  obtain ⟨l, hl⟩ := reaches_iff_path.1 hb
  obtain ⟨m, hm, hnodup, -⟩ := hl.exists_nodup
  obtain ⟨front, back, rfl, hfront, hback⟩ := hm.split (hdb m hm)
  have hmem := hbd _ hfront
  by_contra hne
  have hbfront : b ∈ front := by simpa [Ne.symm hne] using hmem
  have hbback : b ∈ d :: back := hback.last_mem
  exact (List.nodup_append.1 hnodup).2.2 b hbfront b hbback rfl

theorem NearestDominator.unique {d' : Nat} (h : g.NearestDominator d b) (h' : g.NearestDominator d' b)
    (hb : g.Reaches b) : d' = d := by
  by_contra hne
  exact hne ((h.nearest d' h'.ne h'.dominates hne).antisymm (h'.nearest d h.ne h.dominates (Ne.symm hne))
    (h.dominates.reaches hb))

end FlowGraph

namespace Dominance

open FlowGraph

section

variable {g : FlowGraph} {order : List Nat} {up : Nat → Option Nat}

/-! ## One block of a round -/

/-- **A round under way** that has come to the end of the blocks of `done`.  What dominates a settled block is above it,
and control comes to the block from its immediate dominator through blocks of no higher rank.  A block at the end of
a path of at most `k` blocks is settled, and what is above it lies on that path; where the block is done, also on a path
of one block more. -/
structure Settling (g : FlowGraph) (order : List Nat) (k : Nat) (done : List Nat) (up : Nat → Option Nat) : Prop where
  tree : Tree g order up
  grounded : ∀ b d, up b = some d → ∃ l, g.Path d b l ∧ ∀ x ∈ l, order.idxOf x ≤ order.idxOf d
  complete : ∀ b d, (up b).isSome → g.Dominates d b → Above up d b
  near : ∀ b l, g.Path g.entry b l → l.length ≤ k → (up b).isSome
  settled : ∀ b ∈ done, (up b).isSome
  passed : ∀ b l, g.Path g.entry b l → l.length ≤ k ∨ b ∈ done ∧ l.length ≤ k + 1 → ∀ d, Above up d b → d ∈ l

/-- **The block that a round finds for `b`**: the nearest above all settled predecessors, one of which has a higher rank
than `b`. -/
structure Nearest (g : FlowGraph) (order : List Nat) (up : Nat → Option Nat) (b d : Nat) : Prop where
  settled : (up d).isSome
  above : ∀ x, Above up x d ↔ ∀ p, b ∈ g.succs p → (up p).isSome → Above up x p
  via : ∃ p, b ∈ g.succs p ∧ (up p).isSome ∧ order.idxOf b < order.idxOf p

theorem Nearest.idxOf_lt (ht : Tree g order up) {b d : Nat} (h : Nearest g order up b d) :
    order.idxOf b < order.idxOf d := by
  obtain ⟨p, hedge, hp, hlt⟩ := h.via
  exact Nat.lt_of_lt_of_le hlt (ht.idxOf_le ((h.above d).1 (.refl d) p hedge hp))

/-- What is above a block does not depend on blocks of lower rank. -/
theorem Tree.above_update (ht : Tree g order up) {b d x : Nat} (hlt : order.idxOf b < order.idxOf x) {a : Nat} :
    Above (Function.update up b (some d)) a x ↔ Above up a x := by
  have hne : ∀ {x}, order.idxOf b < order.idxOf x → x ≠ b := by
    rintro x hlt rfl
    exact Nat.lt_irrefl _ hlt
  have hnext : ∀ {x c}, order.idxOf b < order.idxOf x → up x = some c → order.idxOf b < order.idxOf c :=
    fun hlt hc => Nat.lt_of_lt_of_le hlt (ht.idxOf_le (.climb hc (.refl _)))
  constructor
  · intro h
    induction h with
    | refl => exact .refl _
    | climb hc _ ih =>
      rw [Function.update_of_ne (hne hlt)] at hc
      exact .climb hc (ih (hnext hlt hc))
  · intro h
    induction h with
    | refl => exact .refl _
    | climb hc _ ih => exact .climb (by rw [Function.update_of_ne (hne hlt), hc]) (ih (hnext hlt hc))

theorem above_iff {b d x : Nat} (hd : up b = some d) : Above up x b ↔ x = b ∨ Above up x d := by
  constructor
  · intro h
    cases h with
    | refl => exact .inl rfl
    | climb hd' hx =>
      rw [hd, Option.some.injEq] at hd'
      exact .inr (hd' ▸ hx)
  · rintro (rfl | hx)
    · exact .refl x
    · exact .climb hd hx

theorem Settling.grounded_above {k : Nat} {done : List Nat} (h : Settling g order k done up) {a b : Nat}
    (hab : Above up a b) : ∃ l, g.Path a b l ∧ ∀ x ∈ l, order.idxOf x ≤ order.idxOf a := by
  induction hab with
  | refl => exact ⟨_, .stay a, by simp⟩
  | @climb b d hd rest ih =>
    obtain ⟨l, hl, hrank⟩ := ih
    obtain ⟨m, hm, hrank'⟩ := h.grounded b d hd
    refine ⟨_, hl.append hm, fun x hx => ?_⟩
    rcases List.mem_append.1 hx with hx | hx
    · exact hrank x hx
    · exact Nat.le_trans (hrank' x (List.mem_of_mem_tail hx)) (h.tree.idxOf_le rest)

/-- A dominator that is above the immediate dominator dominates it: the way down from there passes nothing higher. -/
theorem Settling.dominates_up {k : Nat} {done : List Nat} (h : Settling g order k done up) {b d e : Nat}
    (hd : up b = some d) (he : Above up e d) (hdom : g.Dominates e b) : g.Dominates e d := by
  intro l hl
  obtain ⟨m, hm, hrank⟩ := h.grounded b d hd
  rcases List.mem_append.1 (hdom _ (hl.append hm)) with hel | hem
  · exact hel
  · have hle := hrank e (List.mem_of_mem_tail hem)
    have heq : e = d := by
      by_contra hne
      have := h.tree.idxOf_lt he hne
      omega
    exact heq ▸ hl.last_mem

section

variable {k : Nat} {done : List Nat} {b d : Nat}

theorem isSome_update {x : Nat} (hx : (up x).isSome ∨ x = b) : (Function.update up b (some d) x).isSome := by
  by_cases hxb : x = b
  · rw [hxb, Function.update_self]
    rfl
  · rw [Function.update_of_ne hxb]
    exact hx.resolve_right hxb

theorem Settling.tree_update (h : Settling g order k done up) (hd : Nearest g order up b d) (hb : b ∈ order)
    (hne : b ≠ g.entry) : Tree g order (Function.update up b (some d)) := by
  refine ⟨by rw [Function.update_of_ne (Ne.symm hne), h.tree.root], fun x c hc hx => ?_, fun x c hc => ?_⟩
  · by_cases hxb : x = b
    · rw [hxb, Function.update_self, Option.some.injEq] at hc
      exact hxb ▸ hc ▸ hd.idxOf_lt h.tree
    · rw [Function.update_of_ne hxb] at hc
      exact h.tree.rises x c hc hx
  · by_cases hxb : x = b
    · rw [hxb, Function.update_self, Option.some.injEq] at hc
      exact ⟨hxb ▸ hb, hc ▸ isSome_update (.inl hd.settled)⟩
    · rw [Function.update_of_ne hxb] at hc
      exact ⟨(h.tree.settled x c hc).1, isSome_update (.inl (h.tree.settled x c hc).2)⟩

theorem Settling.grounded_update (h : Settling g order k done up) (hd : Nearest g order up b d) :
    ∀ x c, Function.update up b (some d) x = some c → ∃ l, g.Path c x l ∧ ∀ y ∈ l, order.idxOf y ≤ order.idxOf c := by
  intro x c hc
  by_cases hxb : x = b
  · rw [hxb, Function.update_self, Option.some.injEq] at hc
    subst hxb hc
    obtain ⟨p, hedge, hp, -⟩ := hd.via
    obtain ⟨l, hl, hrank⟩ := h.grounded_above ((hd.above d).1 (.refl d) p hedge hp)
    refine ⟨_, hl.snoc hedge, fun y hy => ?_⟩
    rcases List.mem_append.1 hy with hy | hy
    · exact hrank y hy
    · rw [List.mem_singleton.1 hy]
      exact Nat.le_of_lt (hd.idxOf_lt h.tree)
  · rw [Function.update_of_ne hxb] at hc
    exact h.grounded x c hc

theorem Settling.complete_update (h : Settling g order k done up) (hd : Nearest g order up b d) :
    ∀ x e, (Function.update up b (some d) x).isSome → g.Dominates e x → Above (Function.update up b (some d)) e x := by
  have hlt := hd.idxOf_lt h.tree
  -- a strict dominator of `b` dominates its predecessors, so it is above the nearest block above them
  have hb : ∀ e, g.Dominates e b → Above (Function.update up b (some d)) e b := by
    intro e he
    refine (above_iff (Function.update_self ..)).2 ?_
    by_cases heb : e = b
    · exact .inl heb
    · refine .inr ((h.tree.above_update hlt).2 ((hd.above e).2 fun p hedge hp => ?_))
      exact h.complete p e hp (he.pred heb hedge)
  intro x e hx he
  by_cases hxb : x = b
  · exact hxb ▸ hb e (hxb ▸ he)
  · rw [Function.update_of_ne hxb] at hx
    have habove := h.complete x e hx he
    clear hx hxb
    induction habove with
    | refl => exact .refl e
    | @climb x c hc rest ih =>
      by_cases hxb : x = b
      · exact hxb ▸ hb e (hxb ▸ he)
      · exact .climb (by rw [Function.update_of_ne hxb, hc]) (ih (h.dominates_up hc rest he))

theorem Settling.passed_update (h : Settling g order k done up) (hd : Nearest g order up b d) (hne : b ≠ g.entry)
    {e x : Nat} (habove : Above (Function.update up b (some d)) e x) : ∀ l, g.Path g.entry x l →
    l.length ≤ k ∨ x ∈ done ++ [b] ∧ l.length ≤ k + 1 → e ∈ l := by
  induction habove with
  | refl => exact fun l hl _ => hl.last_mem
  | @climb x c hc rest ih =>
    intro l hl hlength
    by_cases hxb : x = b
    · rw [hxb, Function.update_self, Option.some.injEq] at hc
      subst hxb hc
      -- the path without its end comes to a predecessor, which `k` blocks have settled
      rcases hl.last_step with ⟨heq, -⟩ | ⟨p, front, hedge, hfront, rfl⟩
      · exact absurd heq.symm hne
      · have hle : front.length ≤ k := by
          rw [List.length_append, List.length_singleton] at hlength
          omega
        have hep := (hd.above e).1 ((h.tree.above_update (hd.idxOf_lt h.tree)).1 rest) p hedge (h.near p front hfront hle)
        exact List.mem_append_left _ (h.passed p front hfront (.inl hle) e hep)
    · rw [Function.update_of_ne hxb] at hc
      have hdone : l.length ≤ k ∨ x ∈ done ∧ l.length ≤ k + 1 := by simpa [hxb] using hlength
      by_cases hcx : c = x
      · subst hcx
        exact ih l hl hlength
      · obtain ⟨front, back, rfl, hfront, hback⟩ := hl.split (h.passed x l hl hdone c (.climb hc (.refl c)))
        have hnonempty : back ≠ [] := by
          rintro rfl
          exact hcx (List.mem_singleton.1 hback.last_mem).symm
        have := List.length_pos_iff.2 hnonempty
        have hmem := ih _ hfront (.inl (by simp only [List.length_append, List.length_cons, List.length_nil] at *; omega))
        rw [List.mem_append, List.mem_singleton] at hmem
        rcases hmem with hmem | rfl
        · exact List.mem_append_left _ hmem
        · exact List.mem_append_right _ List.mem_cons_self

/-- **Giving a block the nearest block above its settled predecessors keeps the bounds**, and it is done. -/
theorem Settling.update (h : Settling g order k done up) (hd : Nearest g order up b d) (hb : b ∈ order)
    (hne : b ≠ g.entry) : Settling g order k (done ++ [b]) (Function.update up b (some d)) := by
  refine ⟨h.tree_update hd hb hne, h.grounded_update hd, h.complete_update hd, fun x l hl hk => ?_, fun x hx => ?_,
    fun x l hl hk e he => h.passed_update hd hne he l hl hk⟩
  · exact isSome_update (.inl (h.near x l hl hk))
  · rw [List.mem_append, List.mem_singleton] at hx
    exact isSome_update (hx.imp_left (h.settled x))

/-- The entry is done as it is. -/
theorem Settling.entry (h : Settling g order k done up) : Settling g order k (done ++ [g.entry]) up := by
  refine ⟨h.tree, h.grounded, h.complete, h.near, fun x hx => ?_, fun x l hl hk e he => ?_⟩
  · rw [List.mem_append, List.mem_singleton] at hx
    rcases hx with hx | rfl
    · exact h.settled x hx
    · rw [h.tree.root]
      rfl
  · by_cases hx : x = g.entry
    · rw [h.tree.eq_entry he hx]
      exact hl.first_mem
    · exact h.passed x l hl (by simpa [hx] using hk) e he

/-- **The nearest block above the settled predecessors is found**, if blocks of higher rank are settled. -/
theorem Tree.exists_nearest (hg : g.Checked) (hr : g.Ranked order) (ht : Tree g order up) {number : Nat → Option Nat}
    (hnumber : ∀ b, number b = order.idxOf? b) (hb : b ∈ order) (hne : b ≠ g.entry)
    (hsettled : ∀ p ∈ order, order.idxOf b < order.idxOf p → (up p).isSome) :
    ∃ d, nearest g number up b = .ok d ∧ Nearest g order up b d := by
  obtain ⟨p, hp, hedge, hlt⟩ := hr.exists_later hb hne
  have hsome := hsettled p hp hlt
  obtain ⟨d, hd, hdsome, habove⟩ := Dominance.exists_nearest hg hr ht hnumber ⟨p, hedge, hsome⟩
  exact ⟨d, hd, hdsome, habove, p, hedge, hsome, hlt⟩

end

/-! ## Rounds -/

/-- The immediate dominators as an array gives them. -/
def upOf (idoms : Array (Option Nat)) (b : Nat) : Option Nat := idoms[b]?.join

theorem upOf_setIfInBounds {idoms : Array (Option Nat)} {b : Nat} (hb : b < idoms.size) (d : Option Nat) :
    upOf (idoms.setIfInBounds b d) = Function.update (upOf idoms) b d := by
  funext x
  by_cases hx : x = b
  · subst hx
    simp [upOf, hb]
  · simp [upOf, Ne.symm hx, Function.update_of_ne hx]

variable {number : Nat → Option Nat}

theorem exists_revise (hg : g.Checked) (hr : g.Ranked order) (hnumber : ∀ b, number b = order.idxOf? b) {k b : Nat}
    {done rest : List Nat} {idoms : Array (Option Nat)} (changed : Bool) (hsize : idoms.size = g.size)
    (horder : order.reverse = done ++ b :: rest) (h : Settling g order k done (upOf idoms)) :
    ∃ state, revise g number (idoms, changed) b = .ok state ∧ state.1.size = g.size ∧
      Settling g order k (done ++ [b]) (upOf state.1) ∧ (state = (idoms, changed) ∨ state.2 = true) := by
  unfold revise
  by_cases hne : b = g.entry
  · rw [if_pos hne]
    exact ⟨_, rfl, hsize, hne ▸ h.entry, .inl rfl⟩
  · have hb : b ∈ order := by
      rw [← List.mem_reverse, horder]
      simp
    have hlt : b < idoms.size := hsize ▸ hg.lt_of_reaches ((hr.mem b).1 hb)
    obtain ⟨d, hd, hnearest⟩ := h.tree.exists_nearest hg hr hnumber hb hne fun p hp hlt =>
      h.settled p (hr.mem_of_idxOf_lt horder hp hlt)
    have hnext := h.update hnearest hb hne
    rw [if_neg hne]
    by_cases hsame : upOf idoms b = some d
    · rw [← hsame, Function.update_eq_self] at hnext
      refine ⟨(idoms, changed), ?_, hsize, hnext, .inl rfl⟩
      exact Outcome.bind_eq_ok.2 ⟨d, hd, if_pos hsame⟩
    · rw [← upOf_setIfInBounds hlt] at hnext
      refine ⟨(idoms.setIfInBounds b (some d), true), ?_, by simpa using hsize, hnext, .inr rfl⟩
      exact Outcome.bind_eq_ok.2 ⟨d, hd, if_neg hsame⟩

/-- **A round takes the bounds one block further.** -/
theorem exists_round (hg : g.Checked) (hr : g.Ranked order) (hnumber : ∀ b, number b = order.idxOf? b) {k : Nat}
    {idoms : Array (Option Nat)} (hsize : idoms.size = g.size) (h : Settling g order k [] (upOf idoms)) :
    ∃ idoms' changed, order.reverse.foldlM (revise g number) (idoms, false) = .ok (idoms', changed) ∧
      (idoms'.size = g.size ∧ Settling g order (k + 1) [] (upOf idoms')) ∧ (changed = false → idoms' = idoms) := by
  obtain ⟨⟨idoms', changed⟩, hfold, hsize', hend, hsame⟩ := Outcome.exists_foldlM (f := revise g number)
    (P := fun done state => state.1.size = g.size ∧ Settling g order k done (upOf state.1) ∧
      (state.2 = false → state.1 = idoms))
    (l := order.reverse) (s := (idoms, false)) ⟨hsize, h, fun _ => rfl⟩ (by
      rintro done b rest ⟨now, changed⟩ horder ⟨hnow, hsettling, hsame⟩
      obtain ⟨state, hstate, hsize', hnext, hchanged⟩ := exists_revise hg hr hnumber changed hnow horder hsettling
      refine ⟨state, hstate, hsize', hnext, fun hfalse => ?_⟩
      rcases hchanged with rfl | htrue
      · exact hsame hfalse
      · rw [hfalse] at htrue
        cases htrue)
  refine ⟨idoms', changed, hfold, ⟨hsize', ?_⟩, hsame⟩
  have hmem : ∀ {b l}, g.Path g.entry b l → b ∈ order.reverse := fun hl =>
    List.mem_reverse.2 ((hr.mem _).2 (reaches_iff_path.2 ⟨_, hl⟩))
  exact ⟨hend.tree, hend.grounded, hend.complete, fun b l hl _ => hend.settled b (hmem hl), fun b hb => absurd hb List.not_mem_nil,
    fun b l hl hk => hend.passed b l hl (.inr ⟨hmem hl, by simpa using hk⟩)⟩

/-- **The bounds have met**: above a block are its dominators. -/
structure Exact (g : FlowGraph) (order : List Nat) (up : Nat → Option Nat) : Prop where
  tree : Tree g order up
  settled : ∀ b, g.Reaches b → (up b).isSome
  above : ∀ b d, g.Reaches b → (Above up d b ↔ g.Dominates d b)

/-- A path that passes no block twice has no more blocks than are reachable. -/
theorem Settling.exact (hr : g.Ranked order) (h : Settling g order order.length [] up) : Exact g order up := by
  have hsettled : ∀ b, g.Reaches b → (up b).isSome := by
    intro b hb
    obtain ⟨l, hl⟩ := reaches_iff_path.1 hb
    obtain ⟨m, hm, hlength, -⟩ := hr.exists_short hl .refl
    exact h.near b m hm hlength
  refine ⟨h.tree, hsettled, fun b d hb => ⟨fun habove l hl => ?_, h.complete b d (hsettled b hb)⟩⟩
  obtain ⟨m, hm, hlength, hsub⟩ := hr.exists_short hl .refl
  exact hsub (h.passed b m hm (.inl hlength) d habove)

/-- **Where the bounds have met, a block already has the nearest block above its predecessors.** -/
theorem Exact.nearest_eq (hr : g.Ranked order) (h : Exact g order up) {b c d : Nat} (hb : g.Reaches b) (hne : b ≠ g.entry)
    (hc : up b = some c) (hd : Nearest g order up b d) : c = d := by
  have hcd : Above up c d := (hd.above c).2 fun p hedge hp => by
    have hdom := (h.above b c hb).1 (.climb hc (.refl c))
    exact (h.above p c ((hr.mem p).1 (h.tree.mem hp))).2 (hdom.pred (h.tree.up_ne hc hne) hedge)
  have hdc : Above up d c := by
    have hdom : g.Dominates d b := dominates_of_preds hne fun p hedge hp =>
      (h.above p d hp).1 ((hd.above d).1 (.refl d) p hedge (h.settled p hp))
    refine ((above_iff hc).1 ((h.above b d hb).2 hdom)).resolve_left ?_
    rintro rfl
    have := hd.idxOf_lt h.tree
    omega
  by_contra hcd'
  have := h.tree.idxOf_lt hcd hcd'
  have := h.tree.idxOf_le hdc
  omega

theorem Exact.round (hg : g.Checked) (hr : g.Ranked order) (hnumber : ∀ b, number b = order.idxOf? b)
    {idoms : Array (Option Nat)} (h : Exact g order (upOf idoms)) :
    order.reverse.foldlM (revise g number) (idoms, false) = .ok (idoms, false) := by
  refine Outcome.foldlM_eq_self fun b hb => ?_
  rw [List.mem_reverse] at hb
  unfold revise
  by_cases hne : b = g.entry
  · exact if_pos hne
  · obtain ⟨d, hd, hnearest⟩ := h.tree.exists_nearest hg hr hnumber hb hne fun p hp _ =>
      h.settled p ((hr.mem p).1 hp)
    have hreach := (hr.mem b).1 hb
    obtain ⟨c, hc⟩ := Option.isSome_iff_exists.1 (h.settled b hreach)
    rw [h.nearest_eq hr hreach hne hc hnearest] at hc
    rw [if_neg hne]
    exact Outcome.bind_eq_ok.2 ⟨d, hd, if_pos hc⟩

/-- The entry is at the end of the only path of one block. -/
theorem settling_start (hr : g.Ranked order) (hup : ∀ b d, up b = some d ↔ b = g.entry ∧ d = g.entry) :
    Settling g order 1 [] up := by
  have hroot : up g.entry = some g.entry := (hup _ _).2 ⟨rfl, rfl⟩
  have htree : Tree g order up := by
    refine ⟨hroot, fun b d hd hne => absurd ((hup b d).1 hd).1 hne, fun b d hd => ?_⟩
    obtain ⟨rfl, rfl⟩ := (hup b d).1 hd
    exact ⟨hr.entry_mem, by rw [hroot]; rfl⟩
  have hshort : ∀ {b l}, g.Path g.entry b l → l.length ≤ 1 → b = g.entry := by
    intro b l hl hk
    cases hl with
    | stay => rfl
    | step _ rest =>
      have := List.length_pos_of_mem rest.first_mem
      rw [List.length_cons] at hk
      omega
  refine ⟨htree, fun b d hd => ?_, fun b d hb hdom => ?_, fun b l hl hk => ?_, fun b hb => absurd hb List.not_mem_nil,
    fun b l hl hk d hd => ?_⟩
  · obtain ⟨rfl, rfl⟩ := (hup b d).1 hd
    exact ⟨_, .stay _, by simp⟩
  · obtain ⟨c, hc⟩ := Option.isSome_iff_exists.1 hb
    obtain ⟨rfl, -⟩ := (hup b c).1 hc
    obtain rfl := List.mem_singleton.1 (hdom _ (.stay _))
    exact .refl _
  · rw [hshort hl hk, hroot]
    rfl
  · have hb := hshort hl (by simpa using hk)
    exact htree.eq_entry hd hb ▸ hl.first_mem

/-- **As many rounds as there are blocks settle all of them.** -/
theorem exists_settle (hg : g.Checked) (hr : g.Ranked order) :
    ∃ idoms, settle g order = .ok idoms ∧ idoms.size = g.size ∧ Exact g order (upOf idoms) := by
  have hentry : g.entry < g.size := hg.lt_of_reaches .refl
  have hlength := hr.length_le hg.toClosed
  have hpos := List.length_pos_of_mem hr.entry_mem
  have hstart : Settling g order 1 [] (upOf ((Array.replicate g.size none).setIfInBounds g.entry (some g.entry))) := by
    refine settling_start hr fun b d => ?_
    rw [upOf_setIfInBounds (by simpa using hentry)]
    by_cases hb : b = g.entry
    · subst hb
      simp [eq_comm]
    · by_cases hlt : b < g.size <;> simp [hb, hlt, upOf]
  obtain ⟨idoms, hidoms, hsize, hend⟩ := exists_untilStable
    (P := fun k idoms => idoms.size = g.size ∧ Settling g order k [] (upOf idoms)) (n := order.length)
    (fun k idoms h => exists_round hg hr (hr.number_eq hg.toClosed) h.1 h.2)
    (fun idoms h => (h.2.exact hr).round hg hr (hr.number_eq hg.toClosed)) hpos
    (show order.length < 1 + g.size by omega) ⟨by simp, hstart⟩
  exact ⟨idoms, hidoms, hsize, hend.exact hr⟩

/-! ## The sets -/

/-- **The sets of the blocks done** hold what is above them; the others are empty. -/
structure Filled (g : FlowGraph) (up : Nat → Option Nat) (done : List Nat) (sets : Array BitSet) : Prop where
  size : sets.size = g.size
  ready : ∀ b ∈ done, ∃ s, sets[b]? = some s ∧ s.bound = g.size ∧ ∀ x, s.contains x = true ↔ Above up x b
  blank : ∀ b, b ∉ done → sets[b]?.getD (BitSet.empty g.size) = BitSet.empty g.size

theorem contains_setFrom {idoms : Array (Option Nat)} (ht : Tree g order (upOf idoms)) {done : List Nat}
    {sets : Array BitSet} (h : Filled g (upOf idoms) done sets) {b d : Nat} (hb : b < g.size) (hd : upOf idoms b = some d)
    (hdone : b ≠ g.entry → d ∈ done) : (setFrom g.size idoms sets b).bound = g.size ∧
      ∀ x, (setFrom g.size idoms sets b).contains x = true ↔ Above (upOf idoms) x b := by
  have hmatch : idoms[b]?.join = some d := hd
  simp only [setFrom, hmatch]
  by_cases hne : b = g.entry
  · subst hne
    obtain rfl : g.entry = d := Option.some.inj (ht.root.symm.trans hd)
    rw [if_pos rfl]
    refine ⟨BitSet.bound_insert _ _, fun x => ?_⟩
    rw [BitSet.contains_insert _ hb, BitSet.contains_empty, Bool.false_or, decide_eq_true_iff]
    exact ⟨fun hx => hx ▸ .refl _, fun hx => (ht.eq_entry hx rfl).symm⟩
  · obtain ⟨s, hs, hbound, hcontains⟩ := h.ready d (hdone hne)
    rw [if_neg (ht.up_ne hd hne), hs, Option.getD_some]
    refine ⟨(BitSet.bound_insert s b).trans hbound, fun x => ?_⟩
    rw [BitSet.contains_insert s (hbound ▸ hb), Bool.or_eq_true, decide_eq_true_iff, hcontains, above_iff hd, or_comm, eq_comm]

theorem Filled.fill (hg : g.Checked) (hr : g.Ranked order) {idoms : Array (Option Nat)} (h : Exact g order (upOf idoms)) :
    Filled g (upOf idoms) order.reverse
      (order.reverse.foldl (fun sets b => sets.setIfInBounds b (setFrom g.size idoms sets b))
        (Array.replicate g.size (BitSet.empty g.size))) := by
  refine Outcome.foldl_keeps (P := Filled g (upOf idoms)) ⟨by simp, by simp, fun b _ => ?_⟩ ?_
  · by_cases hb : b < g.size <;> simp [hb]
  · intro done b rest sets horder hsets
    have hmem : b ∈ order := by
      rw [← List.mem_reverse, horder]
      simp
    have hreach := (hr.mem b).1 hmem
    have hb := hg.lt_of_reaches hreach
    obtain ⟨d, hd⟩ := Option.isSome_iff_exists.1 (h.settled b hreach)
    obtain ⟨hbound, hcontains⟩ := contains_setFrom h.tree hsets hb hd fun hne =>
      hr.mem_of_idxOf_lt horder (h.tree.mem (h.tree.settled b d hd).2) (h.tree.rises b d hd hne)
    refine ⟨by simpa using hsets.size, fun x hx => ?_, fun x hx => ?_⟩
    · by_cases hxb : x = b
      · subst hxb
        exact ⟨_, by simp [hsets.size, hb], hbound, hcontains⟩
      · rw [Array.getElem?_setIfInBounds_ne (Ne.symm hxb)]
        exact hsets.ready x (by simpa [hxb] using hx)
    · have hxb : x ≠ b := by
        rintro rfl
        simp at hx
      rw [Array.getElem?_setIfInBounds_ne (Ne.symm hxb)]
      exact hsets.blank x fun hx' => hx (List.mem_append_left _ hx')

theorem Exact.nearestDominator (h : Exact g order up) {b d : Nat} (hb : g.Reaches b) (hne : b ≠ g.entry)
    (hd : up b = some d) : g.NearestDominator d b := by
  have hdom := (h.above b d hb).1 (.climb hd (.refl d))
  refine ⟨h.tree.up_ne hd hne, hdom, fun e heb he _ => ?_⟩
  have habove := ((above_iff hd).1 ((h.above b e hb).2 he)).resolve_left heb
  exact (h.above d e (hdom.reaches hb)).1 habove

/-- **Dominance read off the paths**: the sets hold the dominators, the immediate dominator is the one strict dominator
that all others dominate, the entry stands for its own, and nothing is said of blocks out of reach. -/
structure ReadOff (g : FlowGraph) (dom : Dominance) : Prop where
  dominates : ∀ b, g.Reaches b → ∀ d, dom.dominates d b = true ↔ g.Dominates d b
  idom_entry : dom.idom g.entry = some g.entry
  idom : ∀ b, g.Reaches b → b ≠ g.entry → ∃ d, dom.idom b = some d ∧ ∀ e, g.NearestDominator e b ↔ e = d
  unreached : ∀ b, ¬ g.Reaches b → dom.idom b = none ∧ dom.setOf b = BitSet.empty g.size

theorem exists_readOff (hg : g.Checked) (hr : g.Ranked order) : ∃ dom, compute g order = .ok dom ∧ ReadOff g dom := by
  obtain ⟨idoms, hidoms, hsize, hexact⟩ := exists_settle hg hr
  have hfilled := Filled.fill hg hr hexact
  refine ⟨_, Outcome.bind_eq_ok.2 ⟨idoms, hidoms, rfl⟩, fun b hb d => ?_, hexact.tree.root, fun b hb hne => ?_,
    fun b hb => ?_⟩
  · obtain ⟨s, hs, -, hcontains⟩ := hfilled.ready b (List.mem_reverse.2 ((hr.mem b).2 hb))
    rw [dominates, setOf, hs, Option.getD_some, hcontains, hexact.above b d hb]
  · obtain ⟨d, hd⟩ := Option.isSome_iff_exists.1 (hexact.settled b hb)
    have hnearest := hexact.nearestDominator hb hne hd
    exact ⟨d, hd, fun e => ⟨fun he => hnearest.unique he hb, fun he => he ▸ hnearest⟩⟩
  · have hmem : b ∉ order := fun h => hb ((hr.mem b).1 h)
    constructor
    · cases hd : upOf idoms b with
      | none => exact hd
      | some d => exact absurd (hexact.tree.settled b d hd).1 hmem
    · rw [setOf, hfilled.size]
      exact hfilled.blank b fun h => hmem (List.mem_reverse.1 h)

theorem exists_of (hg : g.Checked) : ∃ dom, of g = .ok dom ∧ ReadOff g dom :=
  exists_readOff hg (ranked_postOrder hg.toClosed)

end

/-- **Dominance is exact on every checked graph**, and no fault is met in working it out. -/
theorem compute_reads_off_paths {o : Outline} {g : FlowGraph} (h : ofOutline o = .ok g) :
    ∃ dom, compute g g.postOrder = .ok dom ∧ of g = .ok dom ∧
      (∀ b, g.Reaches b → ∀ d, dom.dominates d b = true ↔ ∀ l, g.Path g.entry b l → d ∈ l) ∧
      dom.idom g.entry = some g.entry ∧
      (∀ b, g.Reaches b → b ≠ g.entry → ∃ d, dom.idom b = some d ∧ ∀ e, g.NearestDominator e b ↔ e = d) ∧
      ∀ b, ¬ g.Reaches b → dom.idom b = none ∧ dom.setOf b = BitSet.empty g.size := by
  obtain ⟨dom, hdom, hreadOff⟩ := exists_of (checked_ofOutline h)
  exact ⟨dom, hdom, hdom, hreadOff.dominates, hreadOff.idom_entry, hreadOff.idom, hreadOff.unreached⟩

/-- Blocks one and two lead to each other and the entry to both, block three leads back to the entry, and nothing leads to
block four, which leads to block three. -/
def crossing : Outline :=
  ⟨0, [⟨[1, 2], false, false, false, [0]⟩, ⟨[2], false, false, false, [1]⟩, ⟨[1, 3], false, false, false, [2]⟩,
    ⟨[0, 3], false, false, false, [3]⟩, ⟨[3], false, false, false, [4]⟩]⟩

theorem compute_reads_off_paths_crossing : ∃ g dom, ofOutline crossing = .ok g ∧ compute g g.postOrder = .ok dom ∧
    (List.range 5).map dom.idom = [some 0, some 0, some 0, some 2, none] ∧
    (∀ b, g.Reaches b → ∀ d, dom.dominates d b = true ↔ ∀ l, g.Path g.entry b l → d ∈ l) := by
  obtain ⟨g, hg⟩ : ∃ g, ofOutline crossing = .ok g := ⟨_, rfl⟩
  obtain ⟨dom, hcompute, hof, hdominates, -⟩ := compute_reads_off_paths hg
  have heval : (ofOutline crossing).toOption.map (fun g => (of g).toOption.map fun dom => (List.range 5).map dom.idom) =
      some (some [some 0, some 0, some 0, some 2, none]) := by decide +kernel
  exact ⟨g, dom, hg, hcompute, Outcome.eq_of_eval hof (Outcome.eq_of_eval hg heval), hdominates⟩

end Dominance

end CodeImage
