import CodeImage.Flow.Dominance
import CodeImage.Proofs.Flow.Paths
import CodeImage.Proofs.Flow.PostOrder
import CodeImage.Proofs.Outcome
/-!
# DominatorTree — two climbs meet at the nearest block above both

Immediate dominators found so far lead from a block to blocks that the walk left later, up to the entry (`Tree`).  What is
above a block is ordered by rank, the place in the order of departures (`Tree.linear`).  So two climbs that always
move the block of lower rank meet at the nearest block above both (`exists_meet`), and the nearest block above all settled
predecessors of a block is found without a fault (`exists_nearest`).
-/
namespace CodeImage

namespace FlowGraph.Ranked

variable {g : FlowGraph} {order : List Nat}

theorem exists_later (hr : g.Ranked order) {b : Nat} (hb : b ∈ order) (hne : b ≠ g.entry) :
    ∃ p ∈ order, b ∈ g.succs p ∧ order.idxOf b < order.idxOf p := by
  obtain ⟨p, hedge, hsub⟩ := hr.later b ((hr.mem b).1 hb) hne
  exact ⟨p, hsub.subset (by simp), hedge, idxOf_lt_of_sublist hr.nodup hsub⟩

/-- What has a higher rank comes earlier from the back. -/
theorem mem_of_idxOf_lt (hr : g.Ranked order) {front back : List Nat} {b d : Nat}
    (horder : order.reverse = front ++ b :: back) (hd : d ∈ order) (hlt : order.idxOf b < order.idxOf d) : d ∈ front := by
  have heq : order = back.reverse ++ b :: front.reverse := by
    rw [← List.reverse_reverse order, horder]
    simp
  have hb : b ∉ back.reverse := fun h => by
    have hnodup := hr.nodup
    rw [heq] at hnodup
    exact (List.nodup_append.1 hnodup).2.2 b h b List.mem_cons_self rfl
  by_cases hback : d ∈ back.reverse
  · rw [heq, List.idxOf_append, List.idxOf_append, if_pos hback, if_neg hb] at hlt
    have := List.idxOf_lt_length_of_mem hback
    omega
  · rw [heq, List.mem_append, List.mem_cons] at hd
    rcases hd.resolve_left hback with rfl | hd
    · omega
    · exact List.mem_reverse.1 hd

theorem number_eq (hr : g.Ranked order) (hg : g.Closed) (b : Nat) :
    ((List.range g.size).map order.idxOf?).toArray[b]?.join = order.idxOf? b := by
  rw [List.getElem?_toArray, List.getElem?_map]
  by_cases hb : b < g.size
  · simp [List.getElem?_range hb]
  · have hnone : order.idxOf? b = none :=
      List.idxOf?_eq_none_iff.2 fun h => hb (hg.lt_of_reaches ((hr.mem b).1 h))
    simp [hb, hnone]

end FlowGraph.Ranked

namespace Dominance

/-- **`a` is `b` or above it**, by the immediate dominators found so far. -/
inductive Above (up : Nat → Option Nat) : Nat → Nat → Prop
  | refl (b : Nat) : Above up b b
  | climb {a b d : Nat} (h : up b = some d) (rest : Above up a d) : Above up a b

/-- **Immediate dominators found so far**: each block settled is reachable and leads to a settled block that the walk left
later, the entry to itself. -/
structure Tree (g : FlowGraph) (order : List Nat) (up : Nat → Option Nat) : Prop where
  root : up g.entry = some g.entry
  rises : ∀ b d, up b = some d → b ≠ g.entry → order.idxOf b < order.idxOf d
  settled : ∀ b d, up b = some d → b ∈ order ∧ (up d).isSome

section

variable {g : FlowGraph} {order : List Nat} {up : Nat → Option Nat}

theorem Tree.mem (ht : Tree g order up) {b : Nat} (hb : (up b).isSome) : b ∈ order := by
  obtain ⟨d, hd⟩ := Option.isSome_iff_exists.1 hb
  exact (ht.settled b d hd).1

theorem Tree.eq_entry (ht : Tree g order up) {a b : Nat} (h : Above up a b) (hb : b = g.entry) : a = g.entry := by
  induction h with
  | refl => exact hb
  | climb hd _ ih =>
    rw [hb, ht.root, Option.some.injEq] at hd
    exact ih hd.symm

theorem Tree.up_ne (ht : Tree g order up) {b d : Nat} (hd : up b = some d) (hne : b ≠ g.entry) : d ≠ b := by
  rintro rfl
  exact Nat.lt_irrefl _ (ht.rises d d hd hne)

/-- Climbing raises the rank. -/
theorem Tree.idxOf_lt (ht : Tree g order up) {a b : Nat} (h : Above up a b) (hne : a ≠ b) :
    order.idxOf b < order.idxOf a := by
  induction h with
  | refl => exact absurd rfl hne
  | @climb b d hd rest ih =>
    by_cases hb : b = g.entry
    · exact absurd (ht.eq_entry (.climb hd rest) hb) (hb ▸ hne)
    · have hrise := ht.rises b d hd hb
      by_cases had : a = d
      · exact had ▸ hrise
      · exact Nat.lt_trans hrise (ih had)

theorem Tree.idxOf_le (ht : Tree g order up) {a b : Nat} (h : Above up a b) : order.idxOf b ≤ order.idxOf a := by
  by_cases hne : a = b
  · exact hne ▸ Nat.le_refl _
  · exact Nat.le_of_lt (ht.idxOf_lt h hne)

/-- **The blocks above a block are ordered by rank.** -/
theorem Tree.linear (ht : Tree g order up) {a b c : Nat} (ha : Above up a c) (hb : Above up b c)
    (hle : order.idxOf a ≤ order.idxOf b) : Above up b a := by
  induction ha with
  | refl => exact hb
  | @climb c d hd rest ih =>
    cases hb with
    | refl =>
      by_cases hab : a = b
      · exact hab ▸ .refl a
      · have := ht.idxOf_lt (.climb hd rest) hab
        omega
    | climb hd' hb =>
      rw [hd, Option.some.injEq] at hd'
      exact ih (hd' ▸ hb)

/-- **Every climb ends at the entry.** -/
theorem Tree.above_entry (ht : Tree g order up) : ∀ (n b : Nat), order.length - order.idxOf b ≤ n → (up b).isSome →
    Above up g.entry b
  | 0, b, hn, hb => by
    have := List.idxOf_lt_length_of_mem (ht.mem hb)
    omega
  | n + 1, b, hn, hb => by
    by_cases hentry : b = g.entry
    · exact hentry ▸ .refl b
    · obtain ⟨d, hd⟩ := Option.isSome_iff_exists.1 hb
      have hrise := ht.rises b d hd hentry
      have := List.idxOf_lt_length_of_mem (ht.mem hb)
      exact .climb hd (ht.above_entry n d (by omega) (ht.settled b d hd).2)

theorem Tree.idxOf_le_entry (ht : Tree g order up) {b : Nat} (hb : (up b).isSome) :
    order.idxOf b ≤ order.idxOf g.entry :=
  ht.idxOf_le (ht.above_entry _ b (Nat.le_refl _) hb)

/-- A block of lower rank than another is not above it, and the step up from it leaves what is above both. -/
theorem Tree.above_both (ht : Tree g order up) {a b d : Nat} (hd : up a = some d) (hlt : order.idxOf a < order.idxOf b)
    (x : Nat) : Above up x d ∧ Above up x b ↔ Above up x a ∧ Above up x b := by
  constructor
  · rintro ⟨hx, hb⟩
    exact ⟨.climb hd hx, hb⟩
  · rintro ⟨hx, hb⟩
    refine ⟨?_, hb⟩
    cases hx with
    | refl =>
      have := ht.idxOf_le hb
      omega
    | climb hd' hx =>
      rw [hd, Option.some.injEq] at hd'
      exact hd' ▸ hx

theorem Tree.exists_up (ht : Tree g order up) {a b : Nat} (ha : (up a).isSome) (hb : (up b).isSome)
    (hlt : order.idxOf a < order.idxOf b) :
    ∃ d, up a = some d ∧ order.idxOf a < order.idxOf d ∧ (up d).isSome := by
  obtain ⟨d, hd⟩ := Option.isSome_iff_exists.1 ha
  refine ⟨d, hd, ht.rises a d hd ?_, (ht.settled a d hd).2⟩
  rintro rfl
  have := ht.idxOf_le_entry hb
  omega

variable {number : Nat → Option Nat}

/-- **Two climbs meet at the nearest block above both.** -/
theorem exists_meet (ht : Tree g order up) (hnumber : ∀ b, number b = order.idxOf? b) : ∀ (limit a b : Nat),
    (up a).isSome → (up b).isSome → (order.length - order.idxOf a) + (order.length - order.idxOf b) ≤ limit →
    ∃ c, meet number up limit a b = .ok c ∧ (up c).isSome ∧ ∀ x, Above up x c ↔ Above up x a ∧ Above up x b
  | 0, a, b, ha, hb, hlimit => by
    have := List.idxOf_lt_length_of_mem (ht.mem ha)
    omega
  | limit + 1, a, b, ha, hb, hlimit => by
    rw [meet]
    by_cases hab : a = b
    · subst hab
      exact ⟨a, if_pos rfl, ha, fun x => and_self_iff.symm⟩
    · have hlta := List.idxOf_lt_length_of_mem (ht.mem ha)
      have hltb := List.idxOf_lt_length_of_mem (ht.mem hb)
      simp only [if_neg hab, hnumber, idxOf?_eq_some (ht.mem ha),
        idxOf?_eq_some (ht.mem hb)]
      rcases Nat.lt_trichotomy (order.idxOf a) (order.idxOf b) with hlt | heq | hlt
      · obtain ⟨d, hd, hrise, hsome⟩ := ht.exists_up ha hb hlt
        obtain ⟨c, hc, hcsome, hcabove⟩ := exists_meet ht hnumber limit d b hsome hb (by omega)
        simp only [if_pos hlt, hd]
        exact ⟨c, hc, hcsome, fun x => (hcabove x).trans (ht.above_both hd hlt x)⟩
      · exact absurd ((List.idxOf_inj (ht.mem ha)).1 heq) hab
      · obtain ⟨d, hd, hrise, hsome⟩ := ht.exists_up hb ha hlt
        obtain ⟨c, hc, hcsome, hcabove⟩ := exists_meet ht hnumber limit a d ha hsome (by omega)
        simp only [if_neg (Nat.lt_asymm hlt), if_pos hlt, hd]
        exact ⟨c, hc, hcsome, fun x => (hcabove x).trans (and_comm.trans ((ht.above_both hd hlt x).trans and_comm))⟩

/-- What `nearer` has found among some predecessors: the nearest block above the settled ones, if there is one. -/
def Found (up : Nat → Option Nat) (preds : List Nat) : Option Nat → Prop
  | none => ∀ p ∈ preds, up p = none
  | some c => (up c).isSome ∧ ∀ x, Above up x c ↔ ∀ p ∈ preds, (up p).isSome → Above up x p

theorem Found.snoc {front : List Nat} {p c d : Nat} (h : Found up front (some d)) (hc : (up c).isSome)
    (habove : ∀ x, Above up x c ↔ Above up x p ∧ Above up x d) (hp : (up p).isSome) : Found up (front ++ [p]) (some c) := by
  refine ⟨hc, fun x => ?_⟩
  rw [habove, h.2]
  simp only [List.mem_append, List.mem_singleton]
  grind

theorem exists_nearer (ht : Tree g order up) (hnumber : ∀ b, number b = order.idxOf? b) {limit : Nat}
    (hlimit : 2 * order.length ≤ limit) {front : List Nat} {found : Option Nat} (h : Found up front found) (p : Nat) :
    ∃ found', nearer number up limit found p = .ok found' ∧ Found up (front ++ [p]) found' := by
  unfold nearer
  cases hp : up p with
  | none =>
    refine ⟨found, rfl, ?_⟩
    cases found with
    | none =>
      intro q hq
      rcases List.mem_append.1 hq with hq | hq
      · exact h q hq
      · rw [List.mem_singleton.1 hq, hp]
    | some d =>
      refine ⟨h.1, fun x => ?_⟩
      rw [h.2]
      simp only [List.mem_append, List.mem_singleton]
      grind
  | some u =>
    have hsome : (up p).isSome := by rw [hp]; rfl
    cases found with
    | none =>
      refine ⟨some p, rfl, hsome, fun x => ?_⟩
      simp only [List.mem_append, List.mem_singleton]
      have hnone : ∀ q ∈ front, up q = none := h
      grind
    | some d =>
      obtain ⟨c, hc, hcsome, habove⟩ := exists_meet ht hnumber limit p d hsome h.1 (by omega)
      refine ⟨some c, ?_, h.snoc hcsome habove hsome⟩
      simp [hc, Except.map]

/-- **The nearest block above all settled predecessors is found**, if one of them is settled. -/
theorem exists_nearest (hg : g.Checked) (hr : g.Ranked order) (ht : Tree g order up)
    (hnumber : ∀ b, number b = order.idxOf? b) {b : Nat} (hb : ∃ p, b ∈ g.succs p ∧ (up p).isSome) :
    ∃ d, nearest g number up b = .ok d ∧ (up d).isSome ∧
      ∀ x, Above up x d ↔ ∀ p, b ∈ g.succs p → (up p).isSome → Above up x p := by
  obtain ⟨p, hedge, hp⟩ := hb
  -- a settled predecessor is reachable, so the test for a number drops none of them
  have hmem : ∀ q, (up q).isSome → (q ∈ (g.preds b).filter (fun q => (number q).isSome) ↔ b ∈ g.succs q) := by
    intro q hq
    rw [List.mem_filter, hg.mem_preds, hnumber, idxOf?_eq_some (ht.mem hq)]
    simp
  have hlength := hr.length_le hg.toClosed
  obtain ⟨found, hfound, hspec⟩ := Outcome.exists_foldlM (f := nearer number up (2 * g.size)) (P := Found up)
    (l := (g.preds b).filter fun q => (number q).isSome) (s := none) (fun _ h => absurd h List.not_mem_nil)
    (fun front q _ found _ h => exists_nearer ht hnumber (by omega) h q)
  unfold nearest
  rw [if_neg (by
    rw [List.isEmpty_iff]
    exact List.ne_nil_of_mem ((hmem p hp).2 hedge))]
  cases found with
  | none =>
    have hnone : up p = none := hspec p ((hmem p hp).2 hedge)
    rw [hnone] at hp
    cases hp
  | some d =>
    refine ⟨d, ?_, hspec.1, fun x => (hspec.2 x).trans ⟨fun h q hq hsome => h q ((hmem q hsome).2 hq) hsome,
      fun h q hq hsome => h q ((hmem q hsome).1 hq) hsome⟩⟩
    simp only [hfound]
    rfl

end

end Dominance

end CodeImage
