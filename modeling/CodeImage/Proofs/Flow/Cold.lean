import CodeImage.Flow.Cold
import CodeImage.Image.Program
import CodeImage.Proofs.Flow.Closure
import CodeImage.Proofs.Flow.Paths
/-!
# Cold — what control comes to only through seldom run blocks

The hot blocks are the ends of the paths from the entry that enter no seed (`contains_hot`).  A path to any other block
enters one, so the block is among those that the seeds lead to (`exists_seed_of_not_hot`), and the difference of the two
searches is what no such path comes to (`contains_cold`).
-/
namespace CodeImage

namespace FlowGraph

variable {g : FlowGraph} {a b : Nat}

/-- **Paths behind whose first block every block satisfies `p`**, as steps into such blocks. -/
theorem reflTransGen_iff_path {p : Nat → Prop} :
    Relation.ReflTransGen (fun x y => y ∈ g.succs x ∧ p y) a b ↔ ∃ l, g.Path a b l ∧ ∀ x ∈ l.tail, p x := by
  constructor
  · intro h
    induction h with
    | refl => exact ⟨[a], .stay a, by simp⟩
    | @tail b c _ hstep ih =>
      obtain ⟨l, hl, hp⟩ := ih
      refine ⟨l ++ [c], hl.snoc hstep.1, fun x hx => ?_⟩
      rw [List.tail_append_of_ne_nil (List.ne_nil_of_mem hl.first_mem), List.mem_append, List.mem_singleton] at hx
      rcases hx with hx | rfl
      · exact hp x hx
      · exact hstep.2
  · rintro ⟨l, hl, hp⟩
    induction hl with
    | stay => exact .refl
    | @step a s b l edge rest ih =>
      exact .head ⟨edge, hp s rest.first_mem⟩ (ih fun x hx => hp x (List.mem_of_mem_tail hx))

section

variable (hg : g.Closed)

include hg

theorem contains_seeds (b : Nat) : g.seeds.contains b = true ↔ g.Reaches b ∧ g.isSeldom b = true := by
  rw [seeds, BitSet.contains_ofPred, Bool.and_eq_true, Bool.and_eq_true, decide_eq_true_iff, contains_reachable hg]
  exact and_iff_right_of_imp fun h => hg.lt_of_reaches h.1

theorem mem_seeds (b : Nat) : b ∈ g.seeds.toList ↔ g.seeds.contains b = true := by
  rw [BitSet.mem_toList, seeds, BitSet.bound_ofPred]
  exact and_iff_right_of_imp fun h => hg.lt_of_reaches ((contains_seeds hg b).1 h).1

/-- **The hot blocks are the ends of the paths that enter no seed.** -/
theorem contains_hot (b : Nat) :
    g.hot.contains b = true ↔ ∃ l, g.Path g.entry b l ∧ ∀ x ∈ l.tail, ¬ g.seeds.contains x = true := by
  rw [hot, contains_reachableFrom (by simpa using hg.entry) fun a c hc => hg.succs a c (List.mem_filter.1 hc).1]
  simp only [List.mem_singleton, exists_eq_left, List.mem_filter, Bool.not_eq_true', ← Bool.not_eq_true]
  exact reflTransGen_iff_path

theorem mem_hot (b : Nat) : b ∈ g.hot.toList ↔ g.hot.contains b = true := by
  have hbound : g.hot.bound = g.size :=
    bound_reachableFrom (by simpa using hg.entry) fun a c hc => hg.succs a c (List.mem_filter.1 hc).1
  rw [BitSet.mem_toList, hbound]
  refine and_iff_right_of_imp fun h => ?_
  obtain ⟨l, hl, -⟩ := (contains_hot hg b).1 h
  exact hg.lt_of_reaches (reaches_iff_path.2 ⟨l, hl⟩)

/-- **What the seeds lead to.** -/
theorem contains_tainted (b : Nat) : (reachableFrom g.size g.succs g.seeds.toList).contains b = true ↔
    ∃ s, g.seeds.contains s = true ∧ ∃ l, g.Path s b l := by
  have hlt : ∀ s ∈ g.seeds.toList, s < g.size := fun s hs =>
    hg.lt_of_reaches ((contains_seeds hg s).1 ((mem_seeds hg s).1 hs)).1
  have hpath : ∀ s, Relation.ReflTransGen (fun x y => y ∈ g.succs x) s b ↔ ∃ l, g.Path s b l := fun s => by
    simpa using reflTransGen_iff_path (g := g) (a := s) (b := b) (p := fun _ => True)
  rw [contains_reachableFrom hlt hg.succs]
  simp only [mem_seeds hg, hpath]

/-- **A reachable block that is not hot comes behind a seed.** -/
theorem exists_seed_of_not_hot (hb : g.Reaches b) (hhot : ¬ g.hot.contains b = true) :
    ∃ s, g.seeds.contains s = true ∧ ∃ l, g.Path s b l := by
  obtain ⟨l, hl⟩ := reaches_iff_path.1 hb
  by_contra hnone
  refine hhot ((contains_hot hg b).2 ⟨l, hl, fun x hx hseed => hnone ⟨x, hseed, ?_⟩⟩)
  obtain ⟨front, back, -, -, hback⟩ := hl.split (List.mem_of_mem_tail hx)
  exact ⟨x :: back, hback⟩

/-- **The cold blocks are the reachable ones that are not hot.** -/
theorem contains_cold (b : Nat) : g.cold.contains b = true ↔ g.Reaches b ∧ ¬ g.hot.contains b = true := by
  rw [cold, BitSet.contains_foldl_erase, Bool.and_eq_true, decide_eq_true_iff, mem_hot hg, contains_tainted hg]
  refine and_congr_left fun hhot => ⟨?_, fun hb => exists_seed_of_not_hot hg hb hhot⟩
  rintro ⟨s, hs, l, hl⟩
  exact hl.reaches ((contains_seeds hg s).1 hs).1 b hl.last_mem

end

theorem isSeldom_ofOutline {o : Outline} (h : ofOutline o = .ok g) (b : Nat) : g.isSeldom b = true ↔
    ∃ block, o.blocks[b]? = some block ∧ (block.isHandler = true ∨ block.isDead = true ∨ block.neverReturns = true) := by
  unfold isSeldom isHandler isDead neverReturns
  rw [(ofOutline_eq_ok h).2.2, List.getElem?_toArray, List.getElem?_map, List.getElem?_zipIdx]
  cases o.blocks[b]? with
  | none => simp
  | some block => simp [or_assoc]

end FlowGraph

namespace Method

open FlowGraph

/-- **A seed of cold code**: a block that control reaches and that is a handler, dead, or has a call that does not return. -/
def Seed (m : Method) (b : Nat) : Prop := m.outline.Reaches b ∧ ∃ block, m.blocks[b]? = some block ∧
  (block.isHandler = true ∨ block.isDead = true ∨ ∃ i ∈ block.insns, i.neverReturns = true)

theorem seed_iff {m : Method} {g : FlowGraph} (h : ofOutline m.outline = .ok g) (b : Nat) :
    m.Seed b ↔ g.seeds.contains b = true := by
  rw [contains_seeds (closed_ofOutline h), reaches_ofOutline h, isSeldom_ofOutline h, Seed]
  simp [outline, List.any_eq_true]

/-- **Cold code is what no path from the entry comes to without entering a seed**: never the entry, every other seed, and
nothing that does not come behind one. -/
theorem cold_exact (m : Method) (g : FlowGraph) (h : ofOutline m.outline = .ok g) :
    (∀ b, g.cold.contains b = true ↔
      m.outline.Reaches b ∧ ¬ ∃ l, g.Path g.entry b l ∧ ∀ x ∈ l.tail, ¬ m.Seed x) ∧
    g.cold.contains g.entry = false ∧
    (∀ b, m.Seed b → b ≠ g.entry → g.cold.contains b = true) ∧
    ∀ b, g.cold.contains b = true → ∃ s, m.Seed s ∧ ∃ l, g.Path s b l := by
  have hg := closed_ofOutline h
  have hcold : ∀ b, g.cold.contains b = true ↔
      m.outline.Reaches b ∧ ¬ ∃ l, g.Path g.entry b l ∧ ∀ x ∈ l.tail, ¬ m.Seed x := by
    intro b
    rw [contains_cold hg, contains_hot hg, reaches_ofOutline h]
    simp only [seed_iff h]
  refine ⟨hcold, ?_, fun b hb hne => ?_, fun b hb => ?_⟩
  · rw [← Bool.not_eq_true, hcold]
    exact fun hentry => hentry.2 ⟨[g.entry], .stay g.entry, by simp⟩
  · refine (hcold b).2 ⟨hb.1, ?_⟩
    rintro ⟨l, hl, havoid⟩
    -- a path that leaves its first block has its last block behind it
    cases hl with
    | stay => exact hne rfl
    | step _ rest => exact havoid b rest.last_mem hb
  · simp only [seed_iff h]
    rw [contains_cold hg] at hb
    exact exists_seed_of_not_hot hg hb.1 hb.2

/-- The entry is a handler.  Block one makes a call that does not return, block two is plain, and both lead to block four;
blocks five and six lead to each other behind the dead block three, and nothing leads to the handler seven. -/
def coldCorner : Method where
  name := "corner"
  entry := 0
  blocks := [
    ⟨[1, 2, 3], true, false, [], []⟩, ⟨[4], false, false, [⟨0, 4, true, fun _ => .ok []⟩], []⟩,
    ⟨[4], false, false, [⟨1, 4, false, fun _ => .ok []⟩], []⟩, ⟨[5], false, true, [], []⟩, ⟨[0], false, false, [], []⟩,
    ⟨[6], false, false, [], []⟩, ⟨[5, 4], false, false, [], []⟩, ⟨[6], true, false, [], []⟩]
  isSubtype := fun a b => a == b

theorem cold_exact_coldCorner : ∃ g, ofOutline coldCorner.outline = .ok g ∧ g.cold.toList = [1, 3, 5, 6] ∧
    (∀ b, g.cold.contains b = true ↔
      coldCorner.outline.Reaches b ∧ ¬ ∃ l, g.Path g.entry b l ∧ ∀ x ∈ l.tail, ¬ coldCorner.Seed x) ∧
    g.cold.contains g.entry = false := by
  obtain ⟨g, hg⟩ := exists_ofOutline (o := coldCorner.outline) ⟨by decide, by decide⟩
  have hcold : (ofOutline coldCorner.outline).toOption.map (fun g => g.cold.toList) = some [1, 3, 5, 6] := by
    decide +kernel
  rw [hg] at hcold
  obtain ⟨hexact, hentry, -⟩ := cold_exact coldCorner g hg
  exact ⟨g, hg, Option.some.inj hcold, hexact, hentry⟩

end Method

end CodeImage
