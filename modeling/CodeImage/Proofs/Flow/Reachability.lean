import Mathlib.Logic.Relation
import CodeImage.Flow.DepthFirst
/-!
# Reachability — which blocks control comes to

`Outline.Reaches` and `FlowGraph.Reaches` say by paths which blocks control comes to from the entry.  A checked graph
has the paths of its outline (`reaches_ofOutline`), every outline whose entry and successors exist is checked
successfully (`exists_ofOutline`), and no edge of a checked graph leads out of it (`closed_ofOutline`).
-/
namespace CodeImage

theorem nodup_eraseDups {α : Type} [BEq α] [LawfulBEq α] : ∀ l : List α, l.eraseDups.Nodup
  | [] => List.nodup_nil
  | a :: l => by
    rw [List.eraseDups_cons]
    refine List.nodup_cons.2 ⟨?_, nodup_eraseDups _⟩
    simp
termination_by l => l.length
decreasing_by
  have := List.length_filter_le (fun b => !b == a) l
  simp only [List.length_cons]
  omega

namespace Outline

/-- Control can pass from `a` to `b`. -/
def Steps (o : Outline) (a b : Nat) : Prop := ∃ block, o.blocks[a]? = some block ∧ b ∈ block.succs

/-- **Control can come from the entry to `b`.** -/
def Reaches (o : Outline) (b : Nat) : Prop := Relation.ReflTransGen o.Steps o.entry b

/-- **The entry and every successor are blocks.** -/
structure InRange (o : Outline) : Prop where
  entry : o.entry < o.size
  succs : ∀ block ∈ o.blocks, ∀ s ∈ block.succs, s < o.size

theorem missingSuccessor?_eq_none {o : Outline} :
    o.missingSuccessor? = none ↔ ∀ block ∈ o.blocks, ∀ s ∈ block.succs, s < o.size := by
  unfold missingSuccessor?
  rw [List.findSome?_eq_none_iff]
  constructor
  · intro h block hb s hs
    obtain ⟨n, hn, rfl⟩ := List.getElem_of_mem hb
    have := h (o.blocks[n], n) (List.mem_zipIdx_iff_getElem?.2 (List.getElem?_eq_getElem hn))
    simp only [Option.map_eq_none_iff, List.find?_eq_none, decide_eq_true_eq, Nat.not_le] at this
    exact this s hs
  · rintro h ⟨block, n⟩ hb
    simp only [Option.map_eq_none_iff, List.find?_eq_none, decide_eq_true_eq, Nat.not_le]
    exact h block (List.fst_mem_of_mem_zipIdx hb)

end Outline

namespace FlowGraph

/-- **Control can come from the entry to `b`.** -/
def Reaches (g : FlowGraph) (b : Nat) : Prop := Relation.ReflTransGen (fun a s => s ∈ g.succs a) g.entry b

/-- **The entry is a block and no edge leads out of the graph.** -/
structure Closed (g : FlowGraph) : Prop where
  entry : g.entry < g.size
  succs : ∀ a, ∀ s ∈ g.succs a, s < g.size

theorem Closed.lt_of_reaches {g : FlowGraph} (hg : g.Closed) {b : Nat} (h : g.Reaches b) : b < g.size := by
  cases h with
  | refl => exact hg.entry
  | tail _ hs => exact hg.succs _ _ hs

theorem Reaches.step {g : FlowGraph} {a s : Nat} (h : g.Reaches a) (hs : s ∈ g.succs a) : g.Reaches s := h.tail hs

theorem mem_succs_of_mem_normalSuccs {g : FlowGraph} {a s : Nat} (h : s ∈ g.normalSuccs a) : s ∈ g.succs a := by
  obtain ⟨e, he, rfl⟩ := List.mem_map.1 h
  exact List.mem_map.2 ⟨e, (List.mem_filter.1 he).1, rfl⟩

/-- **What a successful check answers.** -/
theorem ofOutline_eq_ok {o : Outline} {g : FlowGraph} (h : ofOutline o = .ok g) :
    o.InRange ∧ g.entry = o.entry ∧ g.blocks = (o.blocks.zipIdx.map fun (block, b) =>
      ⟨o.edgesFrom b block.succs, block.isHandler, block.isDead, block.neverReturns, block.insns⟩).toArray := by
  unfold ofOutline at h
  split at h
  · cases h
  · rename_i hentry
    split at h
    · cases h
    · rename_i hsuccs
      cases h
      exact ⟨⟨by omega, Outline.missingSuccessor?_eq_none.1 hsuccs⟩, rfl, rfl⟩

/-- **An outline whose entry and successors exist is a graph.** -/
theorem exists_ofOutline {o : Outline} (h : o.InRange) : ∃ g, ofOutline o = .ok g := by
  unfold ofOutline
  rw [if_neg (by have := h.entry; omega), Outline.missingSuccessor?_eq_none.2 h.succs]
  exact ⟨_, rfl⟩

theorem size_ofOutline {o : Outline} {g : FlowGraph} (h : ofOutline o = .ok g) : g.size = o.size := by
  simp [size, Outline.size, (ofOutline_eq_ok h).2.2]

theorem edgesOut_ofOutline {o : Outline} {g : FlowGraph} (h : ofOutline o = .ok g) (b : Nat) :
    g.edgesOut b = (o.blocks[b]?.map fun block => o.edgesFrom b block.succs).getD [] := by
  unfold edgesOut
  rw [(ofOutline_eq_ok h).2.2, List.getElem?_toArray, List.getElem?_map, List.getElem?_zipIdx]
  cases o.blocks[b]? <;> simp

theorem mem_succs_ofOutline {o : Outline} {g : FlowGraph} (h : ofOutline o = .ok g) (a s : Nat) :
    s ∈ g.succs a ↔ o.Steps a s := by
  unfold succs Outline.Steps
  rw [edgesOut_ofOutline h]
  cases o.blocks[a]? with
  | none => simp
  | some block => simp [Outline.edgesFrom]

/-- **Normal successors are the successors that are no handlers**, each once. -/
theorem normalSuccs_ofOutline {o : Outline} {g : FlowGraph} (h : ofOutline o = .ok g) (a : Nat) :
    g.normalSuccs a = (((o.blocks[a]?.map (·.succs)).getD []).eraseDups).filter (!o.isHandler ·) := by
  unfold normalSuccs
  rw [edgesOut_ofOutline h]
  cases o.blocks[a]? with
  | none => simp
  | some block =>
    simp only [Option.map_some, Option.getD_some, Outline.edgesFrom, List.filter_map, List.map_map]
    refine (List.map_id _).trans (List.filter_congr fun s _ => ?_)
    cases hs : o.isHandler s <;> simp [hs]

theorem mem_normalSuccs_ofOutline {o : Outline} {g : FlowGraph} (h : ofOutline o = .ok g) (a s : Nat) :
    s ∈ g.normalSuccs a ↔ o.Steps a s ∧ o.isHandler s = false := by
  rw [normalSuccs_ofOutline h, List.mem_filter, List.mem_eraseDups, Bool.not_eq_true', Outline.Steps]
  cases o.blocks[a]? with
  | none => simp
  | some block => simp

theorem nodup_normalSuccs_ofOutline {o : Outline} {g : FlowGraph} (h : ofOutline o = .ok g) (a : Nat) :
    (g.normalSuccs a).Nodup := by
  rw [normalSuccs_ofOutline h]
  exact (nodup_eraseDups _).sublist List.filter_sublist

theorem nodup_succs_ofOutline {o : Outline} {g : FlowGraph} (h : ofOutline o = .ok g) (a : Nat) : (g.succs a).Nodup := by
  unfold succs
  rw [edgesOut_ofOutline h]
  cases o.blocks[a]? with
  | none => exact List.nodup_nil
  | some block =>
    simp only [Option.map_some, Option.getD_some, Outline.edgesFrom, List.map_map]
    exact (List.map_id _).symm ▸ nodup_eraseDups block.succs

/-- **A checked graph has the paths of its outline.** -/
theorem reaches_ofOutline {o : Outline} {g : FlowGraph} (h : ofOutline o = .ok g) (b : Nat) :
    g.Reaches b ↔ o.Reaches b := by
  have hstep : (fun a s => s ∈ g.succs a) = o.Steps := by
    funext a s
    exact propext (mem_succs_ofOutline h a s)
  unfold Reaches Outline.Reaches
  rw [hstep, (ofOutline_eq_ok h).2.1]

theorem closed_ofOutline {o : Outline} {g : FlowGraph} (h : ofOutline o = .ok g) : g.Closed := by
  obtain ⟨hr, he, -⟩ := ofOutline_eq_ok h
  refine ⟨by rw [he, size_ofOutline h]; exact hr.entry, fun a s hs => ?_⟩
  obtain ⟨block, hb, hs⟩ := (mem_succs_ofOutline h a s).1 hs
  rw [size_ofOutline h]
  exact hr.succs block (List.mem_of_getElem? hb) s hs

end FlowGraph

end CodeImage
