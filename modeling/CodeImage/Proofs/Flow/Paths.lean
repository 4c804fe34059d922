import Mathlib.Data.List.Nodup
import CodeImage.Proofs.Flow.Reachability
/-!
# Paths — the blocks that control passes

`Path a b l` says that control can pass from `a` to `b` through the blocks of `l`, both ends included.  A path can be
split at each of its blocks (`Path.split`), paths that meet can be joined (`Path.append`), and what a path passes can be
passed without a block twice (`Path.exists_nodup`).  In a checked graph an edge is listed at both of its ends
(`Checked.mem_preds`).
-/
namespace CodeImage

namespace FlowGraph

/-- **A path from `a` to `b`**, with the blocks on it. -/
inductive Path (g : FlowGraph) : Nat → Nat → List Nat → Prop
  | stay (a : Nat) : Path g a a [a]
  | step {a s b : Nat} {l : List Nat} (edge : s ∈ g.succs a) (rest : Path g s b l) : Path g a b (a :: l)

namespace Path

variable {g : FlowGraph} {a b c : Nat} {l m : List Nat}

theorem first_mem (h : g.Path a b l) : a ∈ l := by
  cases h <;> simp

theorem last_mem (h : g.Path a b l) : b ∈ l := by
  induction h with
  | stay => simp
  | step _ _ ih => exact List.mem_cons_of_mem _ ih

theorem append (h : g.Path a b l) (h' : g.Path b c m) : g.Path a c (l ++ m.tail) := by
  induction h with
  | stay =>
    cases h' with
    | stay => exact .stay _
    | step edge rest => exact .step edge rest
  | step edge _ ih => exact .step edge (ih h')

theorem snoc (h : g.Path a b l) (edge : c ∈ g.succs b) : g.Path a c (l ++ [c]) := h.append (.step edge (.stay c))

theorem split_append {front back : List Nat} (h : g.Path a b (front ++ c :: back)) :
    g.Path a c (front ++ [c]) ∧ g.Path c b (c :: back) := by
  generalize hl : front ++ c :: back = l at h
  induction h generalizing front with
  | stay a =>
    cases front with
    | nil =>
      obtain ⟨rfl, rfl⟩ := List.cons.inj hl
      exact ⟨.stay c, .stay c⟩
    | cons x front => simp at hl
  | step edge rest ih =>
    cases front with
    | nil =>
      obtain ⟨rfl, rfl⟩ := List.cons.inj hl
      exact ⟨.stay c, .step edge rest⟩
    | cons x front =>
      obtain ⟨rfl, htail⟩ := List.cons.inj hl
      obtain ⟨hfront, hback⟩ := ih htail
      exact ⟨.step edge hfront, hback⟩

/-- **A path can be split at each of its blocks.** -/
theorem split (h : g.Path a b l) (hc : c ∈ l) :
    ∃ front back, l = front ++ c :: back ∧ g.Path a c (front ++ [c]) ∧ g.Path c b (c :: back) := by
  obtain ⟨front, back, rfl⟩ := List.append_of_mem hc
  exact ⟨front, back, rfl, h.split_append⟩

/-- A path that goes anywhere comes to its end from a predecessor. -/
theorem last_step (h : g.Path a b l) : a = b ∧ l = [b] ∨ ∃ p front, b ∈ g.succs p ∧ g.Path a p front ∧ l = front ++ [b] := by
  induction h with
  | stay => exact .inl ⟨rfl, rfl⟩
  | @step a s b l edge rest ih =>
    rcases ih with ⟨rfl, rfl⟩ | ⟨p, front, hp, hfront, rfl⟩
    · exact .inr ⟨a, [a], edge, .stay a, rfl⟩
    · exact .inr ⟨p, a :: front, hp, .step edge hfront, rfl⟩

/-- **What a path passes can be passed without a block twice.** -/
theorem exists_nodup (h : g.Path a b l) : ∃ m, g.Path a b m ∧ m.Nodup ∧ m ⊆ l := by
  induction h with
  | stay a => exact ⟨[a], .stay a, List.nodup_singleton a, List.Subset.refl _⟩
  | @step a s b l edge rest ih =>
    obtain ⟨m, hm, hnodup, hsub⟩ := ih
    by_cases ha : a ∈ m
    · -- the path comes back to `a`, so it may as well start there
      obtain ⟨front, back, rfl, -, hback⟩ := hm.split ha
      exact ⟨a :: back, hback, (List.nodup_append.1 hnodup).2.1,
        fun x hx => List.mem_cons_of_mem a (hsub (List.mem_append_right front hx))⟩
    · exact ⟨a :: m, .step edge hm, List.nodup_cons.2 ⟨ha, hnodup⟩, List.cons_subset_cons a hsub⟩

theorem reaches (h : g.Path a b l) (ha : g.Reaches a) : ∀ x ∈ l, g.Reaches x := by
  induction h with
  | stay => simpa using ha
  | step edge _ ih =>
    intro x hx
    rcases List.mem_cons.1 hx with rfl | hx
    · exact ha
    · exact ih (ha.step edge) x hx

end Path

theorem reaches_iff_path {g : FlowGraph} {b : Nat} : g.Reaches b ↔ ∃ l, g.Path g.entry b l := by
  constructor
  · intro h
    induction h with
    | refl => exact ⟨_, .stay _⟩
    | tail _ hs ih =>
      obtain ⟨l, hl⟩ := ih
      exact ⟨_, hl.snoc hs⟩
  · rintro ⟨l, hl⟩
    exact hl.reaches .refl b hl.last_mem

/-! ## Edges at both ends -/

/-- **A graph as a check leaves it**: no edge leads out of it, and each edge is listed at its source. -/
structure Checked (g : FlowGraph) : Prop extends g.Closed where
  source : ∀ b, ∀ e ∈ g.edgesOut b, e.source = b

theorem checked_ofOutline {o : Outline} {g : FlowGraph} (h : ofOutline o = .ok g) : g.Checked := by
  refine ⟨closed_ofOutline h, fun b e he => ?_⟩
  rw [edgesOut_ofOutline h] at he
  cases hb : o.blocks[b]? with
  | none => simp [hb] at he
  | some block =>
    simp only [hb, Option.map_some, Option.getD_some, Outline.edgesFrom, List.mem_map] at he
    obtain ⟨s, -, rfl⟩ := he
    rfl

theorem mem_edges (g : FlowGraph) (e : Edge) : e ∈ g.edges ↔ ∃ b, e ∈ g.edgesOut b := by
  unfold edges edgesOut
  rw [List.mem_flatMap]
  constructor
  · rintro ⟨block, hblock, he⟩
    obtain ⟨n, hn, rfl⟩ := List.getElem_of_mem hblock
    have hget : g.blocks[n]? = some g.blocks.toList[n] := by
      rw [← Array.getElem?_toList]
      exact List.getElem?_eq_getElem hn
    exact ⟨n, by simpa [hget] using he⟩
  · rintro ⟨b, he⟩
    cases hb : g.blocks[b]? with
    | none => simp [hb] at he
    | some block => exact ⟨block, Array.mem_toList_iff.2 (Array.mem_of_getElem? hb), by simpa [hb] using he⟩

theorem Checked.mem_preds {g : FlowGraph} (hg : g.Checked) (p b : Nat) : p ∈ g.preds b ↔ b ∈ g.succs p := by
  simp only [preds, succs, List.mem_map, List.mem_filter, beq_iff_eq, mem_edges]
  constructor
  · rintro ⟨e, ⟨⟨n, he⟩, rfl⟩, rfl⟩
    rw [hg.source n e he]
    exact ⟨e, he, rfl⟩
  · rintro ⟨e, he, rfl⟩
    exact ⟨e, ⟨⟨p, he⟩, rfl⟩, hg.source p e he⟩

end FlowGraph

end CodeImage
