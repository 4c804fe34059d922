import CodeImage.Flow.Reach
import CodeImage.Proofs.Flow.Walk
/-!
# Closure — what the seeds lead to

`reachableFrom` holds exactly the blocks that a seed leads to (`contains_reachableFrom`).  A pending block is either new
and expanded, or was seen before; the fuel covers the pending blocks and what the blocks not yet seen will add.
-/
namespace CodeImage

section

variable (next : Nat → List Nat)

/-- The blocks that those not yet seen will add. -/
def unseen (seen : BitSet) : Nat :=
  (((List.range seen.bound).filter fun b => !seen.contains b).map fun b => (next b).length).sum

theorem unseen_insert {seen : BitSet} {b : Nat} (hb : b < seen.bound) (hnew : seen.contains b = false) :
    unseen next seen = (next b).length + unseen next (seen.insert b) := by
  unfold unseen
  rw [sum_map_filter_ne (fun b => (next b).length) (fun b => !seen.contains b) List.nodup_range (List.mem_range.2 hb)
    (by simp [hnew]), BitSet.bound_insert]
  congr 3
  refine List.filter_congr fun x _ => ?_
  rw [BitSet.contains_insert seen hb]
  by_cases hx : x = b
  · simp [hx]
  · simp [hx, Ne.symm hx]

/-- **A search under way** from some seeds: what was seen or is pending comes from a seed, and what a seed or a block
seen leads to is not forgotten. -/
structure Spreading (seeds pending : List Nat) (seen : BitSet) : Prop where
  found : ∀ b, seen.contains b = true → ∃ s ∈ seeds, Relation.ReflTransGen (fun a c => c ∈ next a) s b
  ahead : ∀ b ∈ pending, ∃ s ∈ seeds, Relation.ReflTransGen (fun a c => c ∈ next a) s b
  start : ∀ s ∈ seeds, seen.contains s = true ∨ s ∈ pending
  closed : ∀ a, seen.contains a = true → ∀ c ∈ next a, seen.contains c = true ∨ c ∈ pending

variable {next}

theorem Spreading.expand {seeds rest : List Nat} {b : Nat} {seen : BitSet} (hb : b < seen.bound)
    (h : Spreading next seeds (b :: rest) seen) : Spreading next seeds (next b ++ rest) (seen.insert b) := by
  have hcontains := BitSet.contains_insert seen hb
  have hkeep : ∀ c, seen.contains c = true ∨ c ∈ b :: rest → (seen.insert b).contains c = true ∨ c ∈ next b ++ rest := by
    intro c hc
    rw [hcontains]
    simp only [List.mem_cons, List.mem_append, Bool.or_eq_true, decide_eq_true_eq] at hc ⊢
    grind
  refine ⟨fun c hc => ?_, fun c hc => ?_, fun s hs => hkeep s (h.start s hs), fun a ha c hc => ?_⟩
  · rw [hcontains, Bool.or_eq_true, decide_eq_true_eq] at hc
    rcases hc with hc | rfl
    · exact h.found c hc
    · exact h.ahead b List.mem_cons_self
  · rcases List.mem_append.1 hc with hc | hc
    · obtain ⟨s, hs, hsb⟩ := h.ahead b List.mem_cons_self
      exact ⟨s, hs, hsb.tail hc⟩
    · exact h.ahead c (List.mem_cons_of_mem b hc)
  · rw [hcontains, Bool.or_eq_true, decide_eq_true_eq] at ha
    rcases ha with ha | rfl
    · exact hkeep c (h.closed a ha c hc)
    · exact .inr (List.mem_append_left rest hc)

theorem Spreading.skip {seeds rest : List Nat} {b : Nat} {seen : BitSet} (hb : seen.contains b = true)
    (h : Spreading next seeds (b :: rest) seen) : Spreading next seeds rest seen := by
  have hkeep : ∀ c, seen.contains c = true ∨ c ∈ b :: rest → seen.contains c = true ∨ c ∈ rest := by
    intro c hc
    simp only [List.mem_cons] at hc
    grind
  exact ⟨h.found, fun c hc => h.ahead c (List.mem_cons_of_mem b hc), fun s hs => hkeep s (h.start s hs),
    fun a ha c hc => hkeep c (h.closed a ha c hc)⟩

/-- **The induction over a search.** -/
theorem spreading_closure {size : Nat} {seeds : List Nat} (hseeds : ∀ s ∈ seeds, s < size)
    (hnext : ∀ a, ∀ c ∈ next a, c < size) : ∀ (fuel : Nat) (pending : List Nat) (seen : BitSet), seen.bound = size →
    pending.length + unseen next seen ≤ fuel → Spreading next seeds pending seen →
    Spreading next seeds [] (closure next fuel pending seen) ∧ (closure next fuel pending seen).bound = size
  | fuel, [], seen, hbound, _, h => by cases fuel <;> exact ⟨h, hbound⟩
  | 0, b :: rest, seen, _, hfuel, _ => by simp at hfuel
  | fuel + 1, b :: rest, seen, hbound, hfuel, h => by
    simp only [List.length_cons] at hfuel
    have hb : b < seen.bound := by
      obtain ⟨s, hs, hsb⟩ := h.ahead b List.mem_cons_self
      rw [hbound]
      cases hsb with
      | refl => exact hseeds b hs
      | tail _ hc => exact hnext _ b hc
    rw [closure]
    cases hseen : seen.contains b with
    | true =>
      rw [if_neg (by simp)]
      exact spreading_closure hseeds hnext fuel rest seen hbound (by omega) (h.skip hseen)
    | false =>
      rw [if_pos (by simp [hb])]
      refine spreading_closure hseeds hnext fuel _ _ (by rw [BitSet.bound_insert, hbound]) ?_ (h.expand hb)
      have := unseen_insert next hb hseen
      rw [List.length_append]
      omega

theorem spreading_reachableFrom {size : Nat} {seeds : List Nat} (hseeds : ∀ s ∈ seeds, s < size)
    (hnext : ∀ a, ∀ c ∈ next a, c < size) :
    Spreading next seeds [] (reachableFrom size next seeds) ∧ (reachableFrom size next seeds).bound = size := by
  refine spreading_closure hseeds hnext _ seeds _ rfl ?_
    ⟨by simp [BitSet.contains_empty], fun b hb => ⟨b, hb, .refl⟩, fun s hs => .inr hs, by simp [BitSet.contains_empty]⟩
  unfold unseen
  rw [List.filter_eq_self.2 (fun b _ => by simp [BitSet.contains_empty]), ← List.length_flatMap]
  exact Nat.le_refl _

/-- **The blocks found are those that a seed leads to.** -/
theorem contains_reachableFrom {size : Nat} {seeds : List Nat} (hseeds : ∀ s ∈ seeds, s < size)
    (hnext : ∀ a, ∀ c ∈ next a, c < size) (b : Nat) : (reachableFrom size next seeds).contains b = true ↔
      ∃ s ∈ seeds, Relation.ReflTransGen (fun a c => c ∈ next a) s b := by
  obtain ⟨h, -⟩ := spreading_reachableFrom hseeds hnext
  constructor
  · exact h.found b
  · rintro ⟨s, hs, hsb⟩
    induction hsb with
    | refl => simpa using h.start s hs
    | tail _ hc ih => simpa using h.closed _ ih _ hc

theorem bound_reachableFrom {size : Nat} {seeds : List Nat} (hseeds : ∀ s ∈ seeds, s < size)
    (hnext : ∀ a, ∀ c ∈ next a, c < size) : (reachableFrom size next seeds).bound = size :=
  (spreading_reachableFrom hseeds hnext).2

end

namespace FlowGraph

theorem contains_reachable {g : FlowGraph} (hg : g.Closed) (b : Nat) : g.reachable.contains b = true ↔ g.Reaches b := by
  unfold reachable Reaches
  rw [contains_reachableFrom (by simpa using hg.entry) hg.succs]
  simp

/-- A test that the reached blocks pass has them as its set. -/
theorem ofPred_eq_reachable {g : FlowGraph} (hg : g.Closed) {p : Nat → Bool} (hp : ∀ b, p b = true ↔ g.Reaches b) :
    BitSet.ofPred g.size p = g.reachable := by
  have hbound : g.reachable.bound = g.size := bound_reachableFrom (by simpa using hg.entry) hg.succs
  refine BitSet.ext_contains ((BitSet.bound_ofPred _ _).trans hbound.symm) fun b => ?_
  rw [BitSet.contains_ofPred, Bool.and_eq_true, decide_eq_true_iff, hp, contains_reachable hg]
  exact and_iff_right_of_imp hg.lt_of_reaches

end FlowGraph

end CodeImage
