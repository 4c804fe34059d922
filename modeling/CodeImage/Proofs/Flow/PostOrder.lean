import CodeImage.Proofs.Flow.Paths
import CodeImage.Proofs.Flow.Walk
/-!
# PostOrder — a walk leaves a block before the one it came from

The blocks left so far and those still to be left, in the order of the tasks, are the departures of a walk.  A block that
is met is put in front of the departure of the block it was met from, and that order stays.  So the order of departures
lists the blocks that control reaches, each once, and every block but the entry stands before one of its predecessors
(`ranked_postOrder`).
-/
namespace CodeImage

/-- What stands first has the lower place. -/
theorem idxOf_lt_of_sublist {l : List Nat} (h : l.Nodup) {a b : Nat} (hab : [a, b].Sublist l) :
    l.idxOf a < l.idxOf b := by
  obtain ⟨front, back, rfl, hfront, hback⟩ := List.cons_sublist_iff.1 hab
  have hb : b ∈ back := List.singleton_sublist.1 hback
  have hdisjoint := (List.nodup_append.1 h).2.2
  rw [List.idxOf_append, List.idxOf_append, if_pos hfront, if_neg fun h => hdisjoint b h b hb rfl]
  have := List.idxOf_lt_length_of_mem hfront
  omega

theorem idxOf?_eq_some {l : List Nat} {b : Nat} (hb : b ∈ l) : l.idxOf? b = some (l.idxOf b) := by
  rw [List.idxOf_eq_getD_idxOf?]
  cases h : l.idxOf? b with
  | none => exact absurd hb (List.idxOf?_eq_none_iff.1 h)
  | some i => rfl

namespace FlowGraph

/-- **An order of the blocks that control reaches**, each listed once and, the entry apart, before one of its
predecessors. -/
structure Ranked (g : FlowGraph) (order : List Nat) : Prop where
  nodup : order.Nodup
  mem : ∀ b, b ∈ order ↔ g.Reaches b
  later : ∀ b, g.Reaches b → b ≠ g.entry → ∃ p, b ∈ g.succs p ∧ [b, p].Sublist order

namespace Ranked

variable {g : FlowGraph} {order : List Nat}

theorem entry_mem (hr : g.Ranked order) : g.entry ∈ order := (hr.mem g.entry).2 .refl

theorem length_le (hr : g.Ranked order) (hg : g.Closed) : order.length ≤ g.size := by
  have hsub : order ⊆ List.range g.size := fun x hx => List.mem_range.2 (hg.lt_of_reaches ((hr.mem x).1 hx))
  have := hr.nodup.length_le_of_subset hsub
  rwa [List.length_range] at this

/-- **A path need not be longer than the order.** -/
theorem exists_short (hr : g.Ranked order) {a b : Nat} {l : List Nat} (hl : g.Path a b l) (ha : g.Reaches a) :
    ∃ m, g.Path a b m ∧ m.length ≤ order.length ∧ m ⊆ l := by
  obtain ⟨m, hm, hnodup, hsub⟩ := hl.exists_nodup
  exact ⟨m, hm, hnodup.length_le_of_subset fun x hx => (hr.mem x).2 (hm.reaches ha x hx), hsub⟩

end Ranked

end FlowGraph

namespace Walk

def leaving? : Task → Option Nat
  | .leave b => some b
  | .enter _ _ => none

/-- **The blocks left and to be left**, in order. -/
def departures (tasks : List Task) (w : Walk) : List Nat := w.left.reverse ++ tasks.filterMap leaving?

theorem departures_leave (b : Nat) (rest : List Task) (w : Walk) :
    departures rest { w with left := b :: w.left } = departures (.leave b :: rest) w := by
  simp [departures, leaving?]

theorem departures_skip (parent : Option Nat) (b : Nat) (rest : List Task) (w : Walk) :
    departures rest (w.pass parent b) = departures (.enter parent b :: rest) w := by
  simp [departures, List.filterMap_cons, leaving?]

theorem filterMap_leaving?_enter (b : Nat) (l : List Nat) : (l.map (Task.enter (some b))).filterMap leaving? = [] := by
  simp [leaving?]

theorem departures_enter (next : List Nat) (parent : Option Nat) (b : Nat) (rest : List Task) (w : Walk) :
    departures (next.map (.enter (some b)) ++ .leave b :: rest) (w.meet parent b) =
      w.left.reverse ++ b :: rest.filterMap leaving? := by
  rw [departures, List.filterMap_append, filterMap_leaving?_enter]
  simp [leaving?]

/-- Every block still to be entered comes from a block that is left later, or is the entry. -/
def Guarded (g : FlowGraph) : List Task → Prop
  | [] => True
  | .leave _ :: rest => Guarded g rest
  | .enter none b :: rest => b = g.entry ∧ Guarded g rest
  | .enter (some p) b :: rest => b ∈ g.succs p ∧ .leave p ∈ rest ∧ Guarded g rest

theorem Guarded.tail {g : FlowGraph} {t : Task} {rest : List Task} (h : Guarded g (t :: rest)) : Guarded g rest := by
  rcases t with ⟨_ | p, b⟩ | b
  · exact h.2
  · exact h.2.2
  · exact h

theorem guarded_enter {g : FlowGraph} {b : Nat} {rest : List Task} (h : Guarded g rest) : ∀ {next : List Nat},
    (∀ s ∈ next, s ∈ g.succs b) → Guarded g (next.map (.enter (some b)) ++ .leave b :: rest)
  | [], _ => h
  | s :: next, hnext => by
    refine ⟨hnext s List.mem_cons_self, ?_, guarded_enter h fun t ht => hnext t (List.mem_cons_of_mem s ht)⟩
    exact List.mem_append_right _ List.mem_cons_self

end Walk

namespace FlowGraph

/-- **The departures of a walk under way**: those of the blocks met, each before that of the block it was met from. -/
structure Departing (g : FlowGraph) (tasks : List Task) (w : Walk) : Prop where
  guarded : Walk.Guarded g tasks
  nodup : (Walk.departures tasks w).Nodup
  mem : ∀ b, b ∈ Walk.departures tasks w ↔ b ∈ w.met.map (·.1)
  root : ∀ b, (b, none) ∈ w.met → b = g.entry
  later : ∀ b p, (b, some p) ∈ w.met → b ∈ g.succs p ∧ [b, p].Sublist (Walk.departures tasks w)

theorem departing_start (g : FlowGraph) : g.Departing [.enter none g.entry] Walk.start where
  guarded := ⟨rfl, trivial⟩
  nodup := by simp [Walk.departures, List.filterMap_cons, Walk.leaving?, Walk.start]
  mem := by simp [Walk.departures, Walk.leaving?, Walk.start]
  root := by simp [Walk.start]
  later := by simp [Walk.start]

theorem Departing.leave {g : FlowGraph} {b : Nat} {rest : List Task} {w : Walk}
    (h : g.Departing (.leave b :: rest) w) : g.Departing rest { w with left := b :: w.left } := by
  obtain ⟨hguarded, hnodup, hmem, hroot, hlater⟩ := h
  rw [← Walk.departures_leave] at hnodup
  simp only [← Walk.departures_leave] at hmem hlater
  exact ⟨hguarded, hnodup, hmem, hroot, hlater⟩

theorem Departing.skip {g : FlowGraph} {parent : Option Nat} {b : Nat} {rest : List Task} {w : Walk}
    (h : g.Departing (.enter parent b :: rest) w) : g.Departing rest (w.pass parent b) := by
  obtain ⟨hguarded, hnodup, hmem, hroot, hlater⟩ := h
  rw [← Walk.departures_skip] at hnodup
  simp only [← Walk.departures_skip] at hmem hlater
  exact ⟨hguarded.tail, hnodup, hmem, hroot, hlater⟩

theorem Departing.enter {g : FlowGraph} {parent : Option Nat} {b : Nat} {rest : List Task} {w : Walk}
    (hm : w.hasMet b = false) (h : g.Departing (.enter parent b :: rest) w) :
    g.Departing ((g.visitOrder b).map (.enter (some b)) ++ .leave b :: rest) (w.meet parent b) := by
  have hnew := Walk.not_mem_met hm
  have hskip := h.skip
  refine ⟨Walk.guarded_enter h.guarded.tail fun s hs => (g.mem_visitOrder b s).1 hs, ?_, fun c => ?_, fun c hc => ?_,
    fun c p hc => ?_⟩
  · rw [Walk.departures_enter, List.nodup_middle]
    exact List.nodup_cons.2 ⟨fun hb => hnew ((hskip.mem b).1 hb), hskip.nodup⟩
  · rw [Walk.departures_enter, Walk.met_meet, List.map_cons, List.mem_cons, ← Walk.met_pass w parent b, ← hskip.mem c,
      Walk.departures]
    simp only [Walk.left_pass, List.mem_append, List.mem_cons]
    exact or_left_comm
  · rcases List.mem_cons.1 hc with heq | hc
    · cases heq
      exact h.guarded.1
    · exact h.root c hc
  · rw [Walk.departures_enter]
    rcases List.mem_cons.1 hc with heq | hc
    · -- `b` is put in front of the departure of the block it comes from
      cases heq
      obtain ⟨hedge, hleave, -⟩ := h.guarded
      have hp : p ∈ rest.filterMap Walk.leaving? := List.mem_filterMap.2 ⟨.leave p, hleave, rfl⟩
      exact ⟨hedge, ((List.singleton_sublist.2 hp).cons_cons b).trans (List.sublist_append_right _ _)⟩
    · obtain ⟨hedge, hsub⟩ := hskip.later c p hc
      exact ⟨hedge, hsub.trans ((List.sublist_cons_self b _).append_left _)⟩

theorem departing_walk {g : FlowGraph} (hg : g.Closed) : g.Departing [] g.walk :=
  (walk_ends hg g.Departing (fun _ _ _ h => h.leave) (fun _ _ _ _ _ h => h.skip) (fun _ _ _ _ hm h => h.enter hm)
    g.departing_start).2

theorem departures_walk (g : FlowGraph) : Walk.departures [] g.walk = g.postOrder := by
  simp [Walk.departures, postOrder]

/-- **The order in which the walk leaves the blocks.** -/
theorem ranked_postOrder {g : FlowGraph} (hg : g.Closed) : g.Ranked g.postOrder := by
  have hw := departing_walk hg
  have hmet : ∀ b, b ∈ g.walk.met.map (·.1) ↔ g.Reaches b := by
    intro b
    rw [← mem_order hg]
    simp [spanningTree]
  rw [← departures_walk]
  refine ⟨hw.nodup, fun b => (hw.mem b).trans (hmet b), fun b hb hne => ?_⟩
  obtain ⟨⟨c, parent⟩, hc, rfl⟩ := List.mem_map.1 ((hmet b).2 hb)
  cases parent with
  | none => exact absurd (hw.root c hc) hne
  | some p => exact ⟨p, hw.later c p hc⟩

end FlowGraph

end CodeImage
