import Mathlib.Algebra.BigOperators.Group.List.Basic
import Mathlib.Algebra.GroupWithZero.Nat
import Mathlib.Data.List.Nodup
import CodeImage.Proofs.Flow.Reachability
/-!
# Walk — a depth-first walk meets what control reaches

`Walk.run_ends` is the induction over a walk: a property of the tasks and the walk that every step keeps holds at the
end with no task left, once the fuel covers the tasks and what the blocks not yet met will add.  With it the tree of
discoveries lists exactly the blocks that control reaches (`mem_order`), each once (`nodup_order`).
-/
namespace CodeImage

/-- Taking one number out of a sum. -/
theorem sum_map_filter_ne (f : Nat → Nat) (p : Nat → Bool) {b : Nat} {l : List Nat} (hl : l.Nodup) (hb : b ∈ l)
    (hp : p b = true) : ((l.filter p).map f).sum = f b + ((l.filter fun x => p x && x != b).map f).sum := by
  rw [← List.sum_map_erase f (List.mem_filter.2 ⟨hb, hp⟩), (hl.filter p).erase_eq_filter, List.filter_filter]
  simp only [Bool.and_comm]

namespace Walk

variable (next : Nat → List Nat) (size : Nat)

/-- The tasks that the blocks below `size` not yet met will add. -/
def ahead (w : Walk) : Nat :=
  (((List.range size).filter fun b => !w.hasMet b).map fun b => (next b).length + 1).sum

@[simp] theorem met_pass (w : Walk) (parent : Option Nat) (b : Nat) : (w.pass parent b).met = w.met := rfl

@[simp] theorem left_pass (w : Walk) (parent : Option Nat) (b : Nat) : (w.pass parent b).left = w.left := rfl

@[simp] theorem met_meet (w : Walk) (parent : Option Nat) (b : Nat) : (w.meet parent b).met = (b, parent) :: w.met := rfl

@[simp] theorem left_meet (w : Walk) (parent : Option Nat) (b : Nat) : (w.meet parent b).left = w.left := rfl

theorem hasMet_iff (w : Walk) (b : Nat) : w.hasMet b = true ↔ b ∈ w.met.map (·.1) := by
  simp [hasMet, List.any_eq_true, List.mem_map]

theorem not_mem_met {w : Walk} {b : Nat} (h : w.hasMet b = false) : b ∉ w.met.map (·.1) := fun hmem => by
  rw [← hasMet_iff, h] at hmem
  cases hmem

theorem ahead_left (w : Walk) (l : List Nat) : ahead next size { w with left := l } = ahead next size w := rfl

theorem ahead_pass (w : Walk) (parent : Option Nat) (b : Nat) : ahead next size (w.pass parent b) = ahead next size w :=
  rfl

/-- **Meeting a block uses up what it adds.** -/
theorem ahead_met (w : Walk) (b : Nat) (parent : Option Nat) (hb : b < size) (hm : w.hasMet b = false) :
    ahead next size w = (next b).length + 1 + ahead next size (w.meet parent b) := by
  unfold ahead
  rw [sum_map_filter_ne (fun b => (next b).length + 1) (fun b => !w.hasMet b) List.nodup_range (List.mem_range.2 hb)
    (by simp [hm])]
  congr 3
  refine List.filter_congr fun x _ => ?_
  by_cases hx : x = b
  · simp [hasMet, hx]
  · have hbx : (b == x) = false := by simpa using Ne.symm hx
    simp [hasMet, hx, hbx]

/-- **The induction over a walk.**  What every step keeps holds when no task is left. -/
theorem run_ends (P : List Task → Walk → Prop)
    (hbound : ∀ tasks w, P tasks w → ∀ parent b, Task.enter parent b ∈ tasks → b < size)
    (hleave : ∀ b rest w, P (.leave b :: rest) w → P rest { w with left := b :: w.left })
    (hskip : ∀ parent b rest w, w.hasMet b = true → P (.enter parent b :: rest) w → P rest (w.pass parent b))
    (henter : ∀ parent b rest w, w.hasMet b = false → P (.enter parent b :: rest) w →
      P ((next b).map (.enter (some b)) ++ .leave b :: rest) (w.meet parent b)) :
    ∀ (fuel : Nat) (tasks : List Task) (w : Walk), tasks.length + ahead next size w ≤ fuel → P tasks w →
      P [] (run next fuel tasks w)
  | fuel, [], w, _, hP => by cases fuel <;> exact hP
  | 0, t :: rest, w, hf, _ => by simp at hf
  | fuel + 1, .leave b :: rest, w, hf, hP => by
    rw [run]
    refine run_ends P hbound hleave hskip henter fuel rest _ ?_ (hleave b rest w hP)
    rw [ahead_left]
    simp only [List.length_cons] at hf
    omega
  | fuel + 1, .enter parent b :: rest, w, hf, hP => by
    simp only [List.length_cons] at hf
    rw [run]
    cases hm : w.hasMet b with
    | true =>
      rw [if_pos rfl]
      refine run_ends P hbound hleave hskip henter fuel rest _ ?_ (hskip parent b rest w hm hP)
      rw [ahead_pass]
      omega
    | false =>
      rw [if_neg (by simp)]
      refine run_ends P hbound hleave hskip henter fuel _ _ ?_ (henter parent b rest w hm hP)
      have := ahead_met next size w b parent (hbound _ _ hP parent b List.mem_cons_self) hm
      simp only [List.length_append, List.length_map, List.length_cons]
      omega

end Walk

namespace FlowGraph

theorem mem_visitOrder (g : FlowGraph) (a s : Nat) : s ∈ g.visitOrder a ↔ s ∈ g.succs a := by
  unfold visitOrder
  cases hd : g.isDead s <;> simp [List.mem_filter, hd]

theorem length_visitOrder (g : FlowGraph) (a : Nat) : (g.visitOrder a).length = (g.edgesOut a).length := by
  have hsplit := List.length_eq_length_filter_add (l := g.succs a) g.isDead
  unfold visitOrder
  rw [List.length_append, show (g.edgesOut a).length = (g.succs a).length by simp [succs], hsplit]
  exact Nat.add_comm _ _

/-- **The fuel of the walk covers every task.** -/
theorem ahead_start (g : FlowGraph) :
    Walk.ahead g.visitOrder g.size Walk.start = g.size + g.edges.length := by
  have hout : (List.range g.size).map (fun b => (g.visitOrder b).length) = g.blocks.toList.map (·.out.length) := by
    refine List.ext_getElem (by simp [size]) fun n h1 h2 => ?_
    have hn : n < g.blocks.size := by simpa using h2
    simp [length_visitOrder, edgesOut, hn]
  unfold Walk.ahead
  rw [List.filter_eq_self.2 (fun b _ => by simp [Walk.hasMet, Walk.start]), List.sum_map_add, hout, ← List.length_flatMap,
    List.map_const', List.sum_replicate_nat, List.length_range, Nat.mul_one]
  exact Nat.add_comm _ _

/-- **A walk under way**: what was met or is still to be entered can be reached, nothing was met twice, and nothing
that follows a block met is forgotten. -/
structure Exploring (g : FlowGraph) (tasks : List Task) (w : Walk) : Prop where
  met : ∀ b ∈ w.met.map (·.1), g.Reaches b
  pending : ∀ parent b, Task.enter parent b ∈ tasks → g.Reaches b
  nodup : (w.met.map (·.1)).Nodup
  closed : ∀ b ∈ w.met.map (·.1), ∀ s ∈ g.succs b, s ∈ w.met.map (·.1) ∨ ∃ parent, Task.enter parent s ∈ tasks
  entry : g.entry ∈ w.met.map (·.1) ∨ ∃ parent, Task.enter parent g.entry ∈ tasks

theorem exploring_start (g : FlowGraph) : g.Exploring [.enter none g.entry] Walk.start where
  met := by simp [Walk.start]
  pending := by
    intro parent b h
    obtain ⟨rfl, rfl⟩ : parent = none ∧ b = g.entry := by simpa using h
    exact Relation.ReflTransGen.refl
  nodup := by simp [Walk.start]
  closed := by simp [Walk.start]
  entry := .inr ⟨none, List.mem_cons_self⟩

theorem Exploring.leave {g : FlowGraph} {b : Nat} {rest : List Task} {w : Walk}
    (h : g.Exploring (.leave b :: rest) w) : g.Exploring rest { w with left := b :: w.left } := by
  have hne : ∀ {parent s}, Task.enter parent s ∈ Task.leave b :: rest → Task.enter parent s ∈ rest := by
    intro parent s hs
    exact (List.mem_cons.1 hs).resolve_left (fun h => by cases h)
  refine ⟨h.met, fun parent s hs => h.pending parent s (List.mem_cons_of_mem _ hs), h.nodup, fun a ha s hs => ?_, ?_⟩
  · exact (h.closed a ha s hs).imp_right fun ⟨parent, hp⟩ => ⟨parent, hne hp⟩
  · exact h.entry.imp_right fun ⟨parent, hp⟩ => ⟨parent, hne hp⟩

theorem Exploring.skip {g : FlowGraph} {parent : Option Nat} {b : Nat} {rest : List Task} {w : Walk}
    (hm : w.hasMet b = true) (h : g.Exploring (.enter parent b :: rest) w) :
    g.Exploring rest (w.pass parent b) := by
  have hmem := (Walk.hasMet_iff w b).1 hm
  have hkeep : ∀ s, (s ∈ w.met.map (·.1) ∨ ∃ q, Task.enter q s ∈ Task.enter parent b :: rest) →
      s ∈ w.met.map (·.1) ∨ ∃ q, Task.enter q s ∈ rest := by
    rintro s (hs | ⟨q, hs⟩)
    · exact .inl hs
    · rcases List.mem_cons.1 hs with heq | hs
      · cases heq
        exact .inl hmem
      · exact .inr ⟨q, hs⟩
  exact ⟨h.met, fun q s hs => h.pending q s (List.mem_cons_of_mem _ hs), h.nodup,
    fun a ha s hs => hkeep s (h.closed a ha s hs), hkeep _ h.entry⟩

theorem Exploring.enter {g : FlowGraph} {parent : Option Nat} {b : Nat} {rest : List Task} {w : Walk}
    (hm : w.hasMet b = false) (h : g.Exploring (.enter parent b :: rest) w) :
    g.Exploring ((g.visitOrder b).map (.enter (some b)) ++ .leave b :: rest) (w.meet parent b) := by
  have hb : g.Reaches b := h.pending parent b List.mem_cons_self
  have hnew := Walk.not_mem_met hm
  have hkeep : ∀ s, (s ∈ w.met.map (·.1) ∨ ∃ q, Task.enter q s ∈ Task.enter parent b :: rest) →
      s ∈ b :: w.met.map (·.1) ∨
        ∃ q, Task.enter q s ∈ (g.visitOrder b).map (.enter (some b)) ++ Task.leave b :: rest := by
    rintro s (hs | ⟨q, hs⟩)
    · exact .inl (List.mem_cons_of_mem _ hs)
    · rcases List.mem_cons.1 hs with heq | hs
      · cases heq
        exact .inl List.mem_cons_self
      · exact .inr ⟨q, List.mem_append_right _ (List.mem_cons_of_mem _ hs)⟩
  refine ⟨?_, ?_, List.nodup_cons.2 ⟨hnew, h.nodup⟩, ?_, hkeep _ h.entry⟩
  · intro a ha
    rcases List.mem_cons.1 ha with rfl | ha
    · exact hb
    · exact h.met a ha
  · intro q s hs
    rcases List.mem_append.1 hs with hs | hs
    · obtain ⟨t, ht, heq⟩ := List.mem_map.1 hs
      cases heq
      exact hb.step ((g.mem_visitOrder b s).1 ht)
    · rcases List.mem_cons.1 hs with heq | hs
      · cases heq
      · exact h.pending q s (List.mem_cons_of_mem _ hs)
  · intro a ha s hs
    rcases List.mem_cons.1 ha with rfl | ha
    · exact .inr ⟨some a, List.mem_append_left _ (List.mem_map.2 ⟨s, (g.mem_visitOrder a s).2 hs, rfl⟩)⟩
    · exact hkeep s (h.closed a ha s hs)

/-- **The induction over the walk from the entry**, for what is kept of a walk that explores the graph. -/
theorem walk_ends {g : FlowGraph} (hg : g.Closed) (P : List Task → Walk → Prop)
    (hleave : ∀ b rest w, P (.leave b :: rest) w → P rest { w with left := b :: w.left })
    (hskip : ∀ parent b rest w, w.hasMet b = true → P (.enter parent b :: rest) w → P rest (w.pass parent b))
    (henter : ∀ parent b rest w, w.hasMet b = false → P (.enter parent b :: rest) w →
      P ((g.visitOrder b).map (.enter (some b)) ++ .leave b :: rest) (w.meet parent b))
    (hstart : P [.enter none g.entry] Walk.start) : g.Exploring [] g.walk ∧ P [] g.walk := by
  refine Walk.run_ends g.visitOrder g.size (fun tasks w => g.Exploring tasks w ∧ P tasks w)
    (fun _ _ h parent b hb => hg.lt_of_reaches (h.1.pending parent b hb))
    (fun b rest w h => ⟨h.1.leave, hleave b rest w h.2⟩)
    (fun parent b rest w hm h => ⟨h.1.skip hm, hskip parent b rest w hm h.2⟩)
    (fun parent b rest w hm h => ⟨h.1.enter hm, henter parent b rest w hm h.2⟩) _ _ _ ?_ ⟨g.exploring_start, hstart⟩
  rw [ahead_start]
  simp only [List.length_cons, List.length_nil]
  omega

/-- **The finished walk.** -/
theorem exploring_walk {g : FlowGraph} (hg : g.Closed) : g.Exploring [] g.walk :=
  (walk_ends hg (fun _ _ => True) (fun _ _ _ _ => trivial) (fun _ _ _ _ _ _ => trivial) (fun _ _ _ _ _ _ => trivial)
    trivial).1

/-- **The tree of discoveries lists the blocks that control reaches.** -/
theorem mem_order {g : FlowGraph} (hg : g.Closed) (b : Nat) : b ∈ g.spanningTree.order ↔ g.Reaches b := by
  have hw := exploring_walk hg
  have horder : b ∈ g.spanningTree.order ↔ b ∈ g.walk.met.map (·.1) := by simp [spanningTree]
  rw [horder]
  clear horder
  constructor
  · exact hw.met b
  · intro h
    -- along the path, each block was met because the one before it was
    induction h with
    | refl => exact hw.entry.resolve_right fun ⟨_, h⟩ => absurd h List.not_mem_nil
    | tail _ hs ih => exact (hw.closed _ ih _ hs).resolve_right fun ⟨_, h⟩ => absurd h List.not_mem_nil

theorem nodup_order {g : FlowGraph} (hg : g.Closed) : g.spanningTree.order.Nodup := by
  have := (exploring_walk hg).nodup
  simp only [spanningTree, List.map_reverse]
  exact List.nodup_reverse.2 this

end FlowGraph

end CodeImage
