import Mathlib.Data.List.Chain
import CodeImage.Proofs.Flow.Ancestry
import CodeImage.Proofs.Flow.PostOrder
/-!
# EdgeClasses — what a depth-first walk says of blocks and edges

While a walk is under way the blocks still to be left hang from each other in a row, the one in front being where the
walk stands (`Nested`, `Classifying.row`).  A block that an edge comes to is in that row, and then the edge goes back to
an ancestor, or has been left.  So every edge out of a block met gets its class once, the class is the one that
fits the finished tree, and only an edge back leads to a block that is left no earlier (`exploration_exact`).
-/
namespace CodeImage

namespace Walk

/-- The edge that a task takes. -/
def edge? : Task → Option (Nat × Nat)
  | .enter (some p) b => some (p, b)
  | _ => none

/-- **The edges out of the blocks met.** -/
def edgesMet (next : Nat → List Nat) (met : List (Nat × Option Nat)) : List (Nat × Nat) :=
  (met.map (·.1)).flatMap fun u => (next u).map (u, ·)

theorem mem_edgesMet {next : Nat → List Nat} {met : List (Nat × Option Nat)} {u v : Nat} :
    (u, v) ∈ edgesMet next met ↔ u ∈ met.map (·.1) ∧ v ∈ next u := by
  simp only [edgesMet, List.mem_flatMap, List.mem_map, Prod.mk.injEq]
  constructor
  · rintro ⟨_, hu, _, hv, rfl, rfl⟩
    exact ⟨hu, hv⟩
  · rintro ⟨hu, hv⟩
    exact ⟨u, hu, v, hv, rfl, rfl⟩

theorem nodup_edgesMet {next : Nat → List Nat} (hnext : ∀ u, (next u).Nodup) {met : List (Nat × Option Nat)}
    (h : (met.map (·.1)).Nodup) : (edgesMet next met).Nodup := by
  refine List.nodup_flatMap.2 ⟨fun u _ => (hnext u).map fun _ _ heq => (Prod.mk.inj heq).2, h.imp fun {u v} huv => ?_⟩
  intro e hu hv
  obtain ⟨_, -, rfl⟩ := List.mem_map.1 hu
  obtain ⟨_, -, heq⟩ := List.mem_map.1 hv
  exact huv (Prod.mk.inj heq).1.symm

theorem filterMap_edge?_enter (b : Nat) (l : List Nat) : (l.map (Task.enter (some b))).filterMap edge? = l.map (b, ·) := by
  induction l with
  | nil => rfl
  | cons s l ih => exact congrArg ((b, s) :: ·) ih

theorem note_perm (w : Walk) (parent : Option Nat) (b : Nat) (c : Nat → EdgeClass) (rest : List Task) :
    ((w.note parent b c).map (·.1) ++ rest.filterMap edge?).Perm
      (w.classes.map (·.1) ++ (Task.enter parent b :: rest).filterMap edge?) := by
  cases parent with
  | none => exact .refl _
  | some p => exact List.perm_middle.symm

theorem mem_note {w : Walk} {parent : Option Nat} {b : Nat} {c : Nat → EdgeClass} {e : (Nat × Nat) × EdgeClass} :
    e ∈ w.note parent b c ↔ (∃ p, parent = some p ∧ e = ((p, b), c p)) ∨ e ∈ w.classes := by
  cases parent <;> simp [note]

theorem mem_map_note {w : Walk} {e : Nat × Nat} (h : e ∈ w.classes.map (·.1)) (parent : Option Nat) (b : Nat)
    (c : Nat → EdgeClass) : e ∈ (w.note parent b c).map (·.1) := by
  obtain ⟨noted, hnoted, heq⟩ := List.mem_map.1 h
  exact List.mem_map.2 ⟨noted, mem_note.2 (.inr hnoted), heq⟩

/-- **Every block still to be entered comes from the block that is left next after it.** -/
def Nested : List Task → Prop
  | [] => True
  | .leave _ :: rest => Nested rest
  | .enter parent _ :: rest => (rest.filterMap leaving?).head? = parent ∧ Nested rest

theorem nested_enter {b : Nat} {rest : List Task} (h : Nested rest) : ∀ next : List Nat,
    Nested (next.map (.enter (some b)) ++ .leave b :: rest)
  | [] => h
  | s :: next => by
    have hnext : (next.map (Task.enter (some b)) ++ .leave b :: rest).filterMap leaving? =
        b :: rest.filterMap leaving? := by
      rw [List.filterMap_append, filterMap_leaving?_enter]
      rfl
    exact ⟨congrArg List.head? hnext, nested_enter h next⟩

end Walk

namespace FlowGraph

theorem perm_visitOrder (g : FlowGraph) (b : Nat) : (g.visitOrder b).Perm (g.succs b) :=
  List.perm_append_comm.trans (List.filter_append_perm _ _)

open Walk

/-- **A walk under way, by its tree**: the blocks still to be left hang from each other in a row, every edge out of a
block met has been taken once or still will be, and each edge taken has the class that fits. -/
structure Classifying (g : FlowGraph) (tasks : List Task) (w : Walk) : Prop where
  grown : Grown w.met
  nested : Nested tasks
  row : (tasks.filterMap leaving?).IsChain (Hangs w.met)
  taken : (w.classes.map (·.1) ++ tasks.filterMap edge?).Perm (edgesMet g.visitOrder w.met)
  tree : ∀ b p, Hangs w.met b p → (p, b) ∈ w.classes.map (·.1)
  target : ∀ u v c, ((u, v), c) ∈ w.classes → v ∈ w.met.map (·.1)
  fits : ∀ u v c, ((u, v), c) ∈ w.classes → c.Fits (Hangs w.met) u v
  ranked : ∀ u v c, ((u, v), c) ∈ w.classes → c ≠ .back → [v, u].Sublist (departures tasks w)

theorem classifying_start (g : FlowGraph) : g.Classifying [.enter none g.entry] Walk.start where
  grown := trivial
  nested := ⟨rfl, trivial⟩
  row := List.isChain_nil
  taken := .refl _
  tree := by simp [Hangs, Walk.start]
  target := by simp [Walk.start]
  fits := by simp [Walk.start]
  ranked := by simp [Walk.start]

namespace Classifying

variable {g : FlowGraph} {parent : Option Nat} {b u v : Nat} {rest tasks : List Task} {w : Walk} {c : EdgeClass}

theorem source (h : g.Classifying tasks w) (he : ((u, v), c) ∈ w.classes) : u ∈ w.met.map (·.1) :=
  (mem_edgesMet.1 (h.taken.mem_iff.1 (List.mem_append_left _ (List.mem_map_of_mem he)))).1

theorem source_of_enter {p : Nat} (h : g.Classifying (.enter (some p) b :: rest) w) : p ∈ w.met.map (·.1) :=
  (mem_edgesMet.1 (h.taken.mem_iff.1 (List.mem_append_right _ List.mem_cons_self))).1

theorem nodup (h : g.Classifying tasks w) (hg : ∀ u, (g.succs u).Nodup) :
    (w.classes.map (·.1) ++ tasks.filterMap edge?).Nodup :=
  h.taken.nodup_iff.2 (nodup_edgesMet (fun u => (g.perm_visitOrder u).nodup_iff.2 (hg u)) h.grown.nodup)

theorem leave (h : g.Classifying (.leave b :: rest) w) : g.Classifying rest { w with left := b :: w.left } := by
  obtain ⟨hgrown, hnested, hrow, htaken, htree, htarget, hfits, hranked⟩ := h
  simp only [← departures_leave] at hranked
  exact ⟨hgrown, hnested, hrow.tail, htaken, htree, htarget, hfits, hranked⟩

/-- The block that the walk stands at when it takes an edge. -/
theorem head_row {p : Nat} (h : g.Classifying (.enter (some p) b :: rest) w) :
    ∃ above, rest.filterMap leaving? = p :: above := by
  obtain ⟨hhead, -⟩ := h.nested
  cases hrow : rest.filterMap leaving? with
  | nil => simp [hrow] at hhead
  | cons q above =>
    rw [hrow] at hhead
    exact ⟨above, by rw [Option.some.inj hhead]⟩

/-- **What the walk is inside of lies above where it stands.** -/
theorem above_of_mem_row {p : Nat} (h : g.Classifying (.enter (some p) b :: rest) w)
    (hv : v ∈ rest.filterMap leaving?) : Relation.ReflTransGen (Hangs w.met) p v := by
  obtain ⟨above, habove⟩ := h.head_row
  have hrow : (p :: above).IsChain (Hangs w.met) := habove ▸ h.row
  rw [habove] at hv
  exact hrow.induction (fun x => Relation.ReflTransGen (Hangs w.met) p x) _ (fun _ _ hxy hx => hx.tail hxy)
    (fun _ => .refl) v hv

/-- An edge to a block met before is none of the tree: each edge is taken once. -/
theorem fits_pass {p : Nat} (hg : ∀ u, (g.succs u).Nodup) (hb : b ∈ w.met.map (·.1))
    (h : g.Classifying (.enter (some p) b :: rest) w) : (w.classify p b).Fits (Hangs w.met) p b := by
  have hedge : (p, b) ∈ (Task.enter (some p) b :: rest).filterMap edge? := List.mem_cons_self
  have hnot : ¬Hangs w.met b p := fun hbp => (List.disjoint_of_nodup_append (h.nodup hg)) (h.tree b p hbp) hedge
  exact fits_classify h.grown h.source_of_enter hb hnot

/-- **A block met that the edge does not go back to has been left**: were it still to be left, it would lie above. -/
theorem ranked_pass {p : Nat} (hd : g.Departing (.enter (some p) b :: rest) w) (hb : b ∈ w.met.map (·.1))
    (h : g.Classifying (.enter (some p) b :: rest) w) (hfits : c.Fits (Hangs w.met) p b) (hback : c ≠ .back) :
    [b, p].Sublist (departures rest (w.pass (some p) b)) := by
  have hleft : b ∈ w.left.reverse := by
    have hmem : b ∈ w.left.reverse ++ rest.filterMap leaving? := (hd.skip.mem b).2 hb
    refine (List.mem_append.1 hmem).resolve_right fun hrow => hback ?_
    exact hfits.unique (fun _ _ => h.grown.acyclic) (d := .back) (h.above_of_mem_row hrow)
  obtain ⟨above, habove⟩ := h.head_row
  have hp : p ∈ rest.filterMap leaving? := habove ▸ List.mem_cons_self
  exact (List.singleton_sublist.2 hleft).append (List.singleton_sublist.2 hp)

theorem pass (hg : ∀ u, (g.succs u).Nodup) (hm : w.hasMet b = true) (hd : g.Departing (.enter parent b :: rest) w)
    (h : g.Classifying (.enter parent b :: rest) w) : g.Classifying rest (w.pass parent b) := by
  have hb := (Walk.hasMet_iff w b).1 hm
  refine ⟨h.grown, h.nested.2, h.row, ?_, fun c p hc => ?_, fun u v c he => ?_, fun u v c he => ?_, fun u v c he => ?_⟩
  · exact (note_perm w parent b _ rest).trans h.taken
  · exact mem_map_note (h.tree c p hc) parent b _
  · rcases mem_note.1 he with ⟨p, -, heq⟩ | he
    · cases heq
      exact hb
    · exact h.target u v c he
  · rcases mem_note.1 he with ⟨p, rfl, heq⟩ | he
    · cases heq
      rw [met_pass]
      exact h.fits_pass hg hb
    · exact h.fits u v c he
  · rcases mem_note.1 he with ⟨p, rfl, heq⟩ | he
    · cases heq
      exact h.ranked_pass hd hb (h.fits_pass hg hb)
    · rw [departures_skip]
      exact h.ranked u v c he

theorem meet (hm : w.hasMet b = false) (hd : g.Departing (.enter parent b :: rest) w)
    (h : g.Classifying (.enter parent b :: rest) w) :
    g.Classifying ((g.visitOrder b).map (.enter (some b)) ++ .leave b :: rest) (w.meet parent b) := by
  have hnew := Walk.not_mem_met hm
  have hparent : ∀ p ∈ parent, p ∈ w.met.map (·.1) := by
    rintro p rfl
    exact h.source_of_enter
  have hgrown : Grown ((b, parent) :: w.met) := ⟨hnew, hparent, h.grown⟩
  have hlater := (hd.enter hm).later
  refine ⟨hgrown, nested_enter h.nested.2 _, ?_, ?_, fun c p hc => ?_, fun u v c he => ?_, fun u v c he => ?_,
    fun u v c he hback => ?_⟩
  · -- `b` is put in front of the row, whose first block it hangs from
    rw [List.filterMap_append, filterMap_leaving?_enter]
    have hrow : (rest.filterMap leaving?).IsChain (Hangs ((b, parent) :: w.met)) :=
      h.row.imp fun _ _ => List.mem_cons_of_mem _
    refine hrow.cons fun p hp => ?_
    rw [h.nested.1, Option.mem_def] at hp
    exact hp ▸ List.mem_cons_self
  · rw [List.filterMap_append, filterMap_edge?_enter]
    have hold := (note_perm w parent b (fun _ => .tree) rest).trans h.taken
    exact (List.perm_append_comm_assoc _ _ _).trans (hold.append_left _)
  · rcases List.mem_cons.1 hc with heq | hc
    · obtain ⟨rfl, rfl⟩ := Prod.mk.inj heq
      exact List.mem_cons_self
    · exact mem_map_note (h.tree c p hc) parent b _
  · rcases mem_note.1 he with ⟨p, -, heq⟩ | he
    · cases heq
      exact List.mem_cons_self
    · exact List.mem_cons_of_mem _ (h.target u v c he)
  · rcases mem_note.1 he with ⟨p, hp, heq⟩ | he
    · cases heq
      exact hp ▸ List.mem_cons_self
    · exact (fits_cons hgrown (h.source he) (h.target u v c he)).2 (h.fits u v c he)
  · rcases mem_note.1 he with ⟨p, hp, heq⟩ | he
    · cases heq
      exact (hlater b u (hp ▸ List.mem_cons_self)).2
    · rw [departures_enter]
      have hsub : [v, u].Sublist (w.left.reverse ++ rest.filterMap leaving?) := h.ranked u v c he hback
      exact hsub.trans ((List.sublist_cons_self b _).append_left _)

end Classifying

theorem classifying_walk {g : FlowGraph} (hg : g.Closed) (hsuccs : ∀ u, (g.succs u).Nodup) :
    g.Departing [] g.walk ∧ g.Classifying [] g.walk :=
  (walk_ends hg (fun tasks w => g.Departing tasks w ∧ g.Classifying tasks w) (fun _ _ _ h => ⟨h.1.leave, h.2.leave⟩)
    (fun _ _ _ _ hm h => ⟨h.1.skip, h.2.pass hsuccs hm h.1⟩) (fun _ _ _ _ hm h => ⟨h.1.enter hm, h.2.meet hm h.1⟩)
    ⟨g.departing_start, g.classifying_start⟩).2

end FlowGraph

/-! ## The finished tree -/

theorem lookup_eq_some_iff_mem {α β : Type} [BEq α] [LawfulBEq α] {l : List (α × β)} (h : (l.map (·.1)).Nodup) {k : α}
    {x : β} : l.lookup k = some x ↔ (k, x) ∈ l := by
  constructor
  · intro hx
    obtain ⟨front, back, rfl, -⟩ := List.lookup_eq_some_iff.1 hx
    simp
  · intro hx
    cases hlookup : l.lookup k with
    | none => exact absurd rfl (bne_iff_ne.1 (List.lookup_eq_none_iff.1 hlookup _ hx))
    | some y =>
      obtain ⟨front, back, hsplit, -⟩ := List.lookup_eq_some_iff.1 hlookup
      have hy : (k, y) ∈ l := hsplit ▸ by simp
      rw [(Prod.mk.inj (List.inj_on_of_nodup_map h hx hy rfl)).2]

theorem idxOf?_eq_some_iff_getElem? {l : List Nat} (h : l.Nodup) {b n : Nat} :
    l.idxOf? b = some n ↔ l[n]? = some b := by
  rw [List.idxOf?_eq_some_iff, List.getElem?_eq_some_iff]
  refine ⟨fun ⟨hn, hb, _⟩ => ⟨hn, hb⟩, fun ⟨hn, hb⟩ => ⟨hn, hb, fun j hj hbj => ?_⟩⟩
  have := h.getElem_inj_iff.1 (hbj.trans hb.symm)
  omega

/-- `b` hangs from `p` in a finished tree. -/
def SpanningTree.Hangs (t : SpanningTree) (b p : Nat) : Prop := t.parentOf b = some p

/-- **What a walk finds out about a method.** -/
structure FlowGraph.Explored (o : Outline) (g : FlowGraph) : Prop where
  /-- Both orders list each block that control reaches once, and the indices say where. -/
  order : g.spanningTree.order.Nodup ∧ ∀ b, b ∈ g.spanningTree.order ↔ o.Reaches b
  index : ∀ b n, g.spanningTree.indexOf b = some n ↔ g.spanningTree.order[n]? = some b
  postOrder : g.postOrder.Nodup ∧ ∀ b, b ∈ g.postOrder ↔ o.Reaches b
  postIndex : ∀ b n, g.postIndexOf b = some n ↔ g.postOrder[n]? = some b
  /-- Every block reached hangs from the entry, along edges. -/
  root : g.spanningTree.parentOf o.entry = none
  parent : ∀ b p, g.spanningTree.Hangs b p → o.Reaches p ∧ o.Steps p b
  rooted : ∀ b, o.Reaches b → Relation.ReflTransGen g.spanningTree.Hangs b o.entry
  /-- Every edge out of a block reached has one class, the only one that fits, and no other edge has any. -/
  once : (g.spanningTree.classes.map (·.1)).Nodup
  classed : ∀ e ∈ g.edges, o.Reaches e.source → ∃ c, g.spanningTree.classOf e = some c ∧
    ∀ d : EdgeClass, d.Fits g.spanningTree.Hangs e.source e.target ↔ d = c
  unclassed : ∀ e, ¬o.Reaches e.source → g.spanningTree.classOf e = none
  /-- Only an edge back leads to a block that is left no earlier. -/
  rank : ∀ e ∈ g.edges, o.Reaches e.source → ∃ i j, g.postIndexOf e.source = some i ∧
    g.postIndexOf e.target = some j ∧ (i ≤ j ↔ g.spanningTree.classOf e = some .back)

namespace FlowGraph

variable {o : Outline} {g : FlowGraph} (ho : ofOutline o = .ok g)

include ho

theorem mem_met_iff (b : Nat) : b ∈ g.walk.met.map (·.1) ↔ o.Reaches b := by
  rw [← reaches_ofOutline ho, ← mem_order (closed_ofOutline ho)]
  simp [spanningTree]

theorem classifying_ofOutline : g.Classifying [] g.walk :=
  (classifying_walk (closed_ofOutline ho) (nodup_succs_ofOutline ho)).2

theorem hangs_spanningTree : g.spanningTree.Hangs = Walk.Hangs g.walk.met := by
  funext b p
  have hnodup : (g.walk.met.reverse.map (·.1)).Nodup := by
    rw [List.map_reverse, List.nodup_reverse]
    exact (classifying_ofOutline ho).grown.nodup
  rw [SpanningTree.Hangs, SpanningTree.parentOf, Option.join_eq_some_iff]
  exact propext ((lookup_eq_some_iff_mem hnodup).trans List.mem_reverse)

theorem nodup_classes : (g.spanningTree.classes.map (·.1)).Nodup := by
  have := (classifying_ofOutline ho).nodup (nodup_succs_ofOutline ho)
  rw [List.filterMap_nil, List.append_nil] at this
  simpa [spanningTree, List.map_reverse] using this

theorem classOf_eq_some_iff (e : Edge) (c : EdgeClass) :
    g.spanningTree.classOf e = some c ↔ ((e.source, e.target), c) ∈ g.walk.classes :=
  (lookup_eq_some_iff_mem (nodup_classes ho)).trans List.mem_reverse

/-- **An edge has a class when its source is met.** -/
theorem exists_class_iff (u v : Nat) : (∃ c, ((u, v), c) ∈ g.walk.classes) ↔ o.Reaches u ∧ o.Steps u v := by
  have htaken := (classifying_ofOutline ho).taken.mem_iff (a := (u, v))
  rw [List.filterMap_nil, List.append_nil, Walk.mem_edgesMet, mem_met_iff ho, mem_visitOrder,
    mem_succs_ofOutline ho] at htaken
  rw [← htaken, List.mem_map]
  exact ⟨fun ⟨c, hc⟩ => ⟨_, hc, rfl⟩, fun ⟨⟨_, c⟩, hc, heq⟩ => ⟨c, heq ▸ hc⟩⟩

theorem steps_of_mem_edges {e : Edge} (he : e ∈ g.edges) : o.Steps e.source e.target := by
  obtain ⟨b, hb⟩ := (g.mem_edges e).1 he
  rw [(checked_ofOutline ho).source b e hb, ← mem_succs_ofOutline ho]
  exact List.mem_map_of_mem hb

/-- **The entry hangs from none, and all blocks reached from it.** -/
theorem root_spanningTree : g.spanningTree.parentOf o.entry = none ∧
    ∀ b, o.Reaches b → Relation.ReflTransGen g.spanningTree.Hangs b o.entry := by
  have hgrown := (classifying_ofOutline ho).grown
  have hroot : ∀ b, o.Reaches b → (o.entry, none) ∈ g.walk.met ∧
      Relation.ReflTransGen (Walk.Hangs g.walk.met) b o.entry := by
    intro b hb
    obtain ⟨r, hr, hbr⟩ := hgrown.exists_root ((mem_met_iff ho b).2 hb)
    obtain rfl : r = o.entry := ((departing_walk (closed_ofOutline ho)).root r hr).trans (ofOutline_eq_ok ho).2.1
    exact ⟨hr, hbr⟩
  rw [hangs_spanningTree ho]
  refine ⟨?_, fun b hb => (hroot b hb).2⟩
  rw [Option.eq_none_iff_forall_ne_some]
  intro p hp
  have hhangs : Walk.Hangs g.walk.met o.entry p := by
    rw [← hangs_spanningTree ho]
    exact hp
  have heq := List.inj_on_of_nodup_map hgrown.nodup (hroot o.entry .refl).1 hhangs rfl
  cases heq

theorem postIndexOf_eq {b : Nat} (hb : o.Reaches b) : g.postIndexOf b = some (g.postOrder.idxOf b) :=
  idxOf?_eq_some (((ranked_postOrder (closed_ofOutline ho)).mem b).2 ((reaches_ofOutline ho b).2 hb))

/-- **A block is left no later than what it hangs from.** -/
theorem idxOf_postOrder_le {a b : Nat} (h : Relation.ReflTransGen (Walk.Hangs g.walk.met) b a) :
    g.postOrder.idxOf b ≤ g.postOrder.idxOf a := by
  have hclosed := closed_ofOutline ho
  induction h with
  | refl => exact Nat.le_refl _
  | tail _ hp ih =>
    have hsub := ((departing_walk hclosed).later _ _ hp).2
    rw [departures_walk] at hsub
    exact Nat.le_trans ih (Nat.le_of_lt (idxOf_lt_of_sublist (ranked_postOrder hclosed).nodup hsub))

theorem rank_iff {u v : Nat} {c : EdgeClass} (h : ((u, v), c) ∈ g.walk.classes) :
    g.postOrder.idxOf u ≤ g.postOrder.idxOf v ↔ c = .back := by
  have hclass := classifying_ofOutline ho
  constructor
  · intro hle
    by_contra hback
    have hsub := hclass.ranked u v c h hback
    rw [departures_walk] at hsub
    have := idxOf_lt_of_sublist (ranked_postOrder (closed_ofOutline ho)).nodup hsub
    omega
  · rintro rfl
    exact idxOf_postOrder_le ho (hclass.fits u v .back h)

end FlowGraph

/-- **Depth-first numbers and edge classes are exact.**  Of every outline that is a graph, the walk lists what control
reaches, hangs it from the entry, and gives each edge out of it the one class that fits the finished tree; an edge goes
back exactly when its target is left no earlier than its source. -/
theorem FlowGraph.exploration_exact (o : Outline) (g : FlowGraph) (h : ofOutline o = .ok g) : g.Explored o := by
  have hclosed := closed_ofOutline h
  have hclass := classifying_ofOutline h
  have hranked := ranked_postOrder hclosed
  have hnodup := nodup_order hclosed
  refine ⟨⟨hnodup, fun b => (mem_order hclosed b).trans (reaches_ofOutline h b)⟩,
    fun b n => idxOf?_eq_some_iff_getElem? hnodup, ⟨hranked.nodup, fun b => (hranked.mem b).trans (reaches_ofOutline h b)⟩,
    fun b n => idxOf?_eq_some_iff_getElem? hranked.nodup, (root_spanningTree h).1, fun b p hp => ?_,
    (root_spanningTree h).2, nodup_classes h, fun e he hsource => ?_, fun e hsource => ?_, fun e he hsource => ?_⟩
  · rw [hangs_spanningTree h] at hp
    exact ⟨(mem_met_iff h p).1 (hclass.grown.parent_mem hp),
      (mem_succs_ofOutline h p b).1 ((departing_walk hclosed).later b p hp).1⟩
  · obtain ⟨c, hc⟩ := (exists_class_iff h e.source e.target).2 ⟨hsource, steps_of_mem_edges h he⟩
    have hfits := hclass.fits _ _ c hc
    rw [hangs_spanningTree h]
    refine ⟨c, (classOf_eq_some_iff h e c).2 hc, fun d => ⟨fun hd => ?_, fun hd => hd ▸ hfits⟩⟩
    exact hd.unique (fun _ _ => hclass.grown.acyclic) hfits
  · rw [Option.eq_none_iff_forall_ne_some]
    intro c hc
    exact hsource ((exists_class_iff h e.source e.target).1 ⟨c, (classOf_eq_some_iff h e c).1 hc⟩).1
  · have hstep := steps_of_mem_edges h he
    obtain ⟨c, hc⟩ := (exists_class_iff h e.source e.target).2 ⟨hsource, hstep⟩
    refine ⟨_, _, postIndexOf_eq h hsource, postIndexOf_eq h (hsource.tail hstep), ?_⟩
    rw [rank_iff h hc, (classOf_eq_some_iff h e c).2 hc, Option.some.injEq]

/-- Every kind of edge, a dead successor that is visited last, and a block that control does not reach. -/
def allClasses : Outline :=
  ⟨0, [⟨[5, 1, 2, 3], false, false, false, []⟩, ⟨[2], false, false, false, []⟩, ⟨[1, 2], false, false, false, []⟩,
    ⟨[2], false, false, false, []⟩, ⟨[3], false, false, false, []⟩, ⟨[], false, true, false, []⟩]⟩

theorem FlowGraph.exploration_exact_allClasses : ∃ g, ofOutline allClasses = .ok g ∧ g.Explored allClasses ∧
    g.spanningTree.order = [0, 1, 2, 3, 5] ∧ g.postOrder = [2, 1, 3, 5, 0] ∧
    g.edges.map (fun e => (e.source, e.target, g.spanningTree.classOf e)) =
      [(0, 5, some .tree), (0, 1, some .tree), (0, 2, some .forward), (0, 3, some .tree), (1, 2, some .tree),
        (2, 1, some .back), (2, 2, some .back), (3, 2, some .cross), (4, 3, none)] := by
  obtain ⟨g, hg⟩ := exists_ofOutline (o := allClasses) ⟨by decide, by decide⟩
  have horders : (ofOutline allClasses).toOption.map (fun g => (g.spanningTree.order, g.postOrder)) =
      some ([0, 1, 2, 3, 5], [2, 1, 3, 5, 0]) := by decide +kernel
  have hclasses : (ofOutline allClasses).toOption.map (fun g =>
      g.edges.map fun e => (e.source, e.target, g.spanningTree.classOf e)) =
      some [(0, 5, some .tree), (0, 1, some .tree), (0, 2, some .forward), (0, 3, some .tree), (1, 2, some .tree),
        (2, 1, some .back), (2, 2, some .back), (3, 2, some .cross), (4, 3, none)] := by decide +kernel
  rw [hg] at horders hclasses
  obtain ⟨horder, hpost⟩ := Prod.mk.inj (Option.some.inj horders)
  exact ⟨g, hg, exploration_exact allClasses g hg, horder, hpost, Option.some.inj hclasses⟩

end CodeImage
