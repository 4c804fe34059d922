import CodeImage.Schedule.Indexing
import CodeImage.Proofs.Schedule.Merging
import CodeImage.Proofs.Schedule.Numbering
/-!
# Indices — indexing slots is numbering their runs

Indices are handed out by one counter, so at any time they are the places of the atomic slots in a list
(`Indexing.Lists`), and that list is made of whole slots at the top (`SlotForest.Indexed`).  Each step of the walk among
slots does what the walk among their runs does: an offer (`tells_offer`), the walk (`tells_indexWalk`), the rest behind it
(`tells_indexRest`).  So the slots are indexed in the order in which their runs are numbered (`tells_indexAll`), which
is all of them (`Numbered.exists_perm`).
-/
namespace CodeImage

theorem idxOf?_append {α : Type} [BEq α] (l m : List α) (a : α) :
    (l ++ m).idxOf? a = (l.idxOf? a).or ((m.idxOf? a).map (· + l.length)) := List.findIdx?_append

/-! ## The counter -/

namespace Indexing

/-- **The indices are places in a list**, and the next one is the place behind it. -/
structure Lists (n : Indexing) (count : Nat) (items : List Nat) : Prop where
  size : n.indices.size = count
  next : n.next = items.length
  indexOf : ∀ a, n.indexOf a = items.idxOf? a

theorem lists_none (count : Nat) : (Indexing.none count).Lists count [] := by
  refine ⟨Array.size_replicate, rfl, fun a => ?_⟩
  simp only [indexOf, Indexing.none, Array.getElem?_replicate, List.idxOf?_nil]
  split <;> rfl

variable {n : Indexing} {count : Nat} {items : List Nat}

theorem Lists.give (h : n.Lists count items) {a : Nat} (ha : a < count) (hnew : a ∉ items) :
    (n.give a).Lists count (items ++ [a]) := by
  refine ⟨Array.size_setIfInBounds.trans h.size, ?_, fun b => ?_⟩
  · rw [List.length_append, List.length_singleton, ← h.next]
    rfl
  · have hold := h.indexOf b
    simp only [Indexing.indexOf, Indexing.give, Array.getElem?_setIfInBounds, idxOf?_append] at hold ⊢
    by_cases hb : a = b
    · subst hb
      simp [h.size, ha, h.next, List.idxOf?_eq_none_iff.2 hnew, List.idxOf?_cons]
    · simp [hb, hold, List.idxOf?_cons]

/-- **Indexing a row of atomic slots lists them** behind those listed already. -/
theorem Lists.foldl_give : ∀ (l : List Nat) {n : Indexing} {items : List Nat}, n.Lists count items → (∀ a ∈ l, a < count) →
    (items ++ l).Nodup → (l.foldl Indexing.give n).Lists count (items ++ l)
  | [], _, _, h, _, _ => by simpa using h
  | a :: l, n, items, h, hlt, hnd => by
    have hnew : a ∉ items := fun hmem => (List.nodup_append.1 hnd).2.2 a hmem a List.mem_cons_self rfl
    have hsplit : items ++ a :: l = items ++ [a] ++ l := by simp
    rw [hsplit] at hnd ⊢
    exact Lists.foldl_give l (h.give (hlt a List.mem_cons_self) hnew) (fun b hb => hlt b (List.mem_cons_of_mem _ hb)) hnd

end Indexing

namespace SlotForest

/-! ## Indexed slots -/

/-- **Slots at the top have been indexed** one after the other. -/
structure Indexed (g : SlotGraph) (f : SlotForest) (n : Indexing) (done : List Nat) : Prop where
  tops : done ⊆ f.tops
  nodup : done.Nodup
  lists : n.Lists g.owners.length (done.flatMap f.enumerate)

/-- **The indices stand for numbered runs.** -/
def Numbered (g : SlotGraph) (f : SlotForest) (runs : List Run) (n : Indexing) : Prop :=
  ∃ done, Indexed g f n done ∧ done.map f.row = runs

section Indexed

variable {g : SlotGraph} {f : SlotForest} {n : Indexing} {done : List Nat} {runs : List Run} {t : Nat}

theorem Standing.mem_flatMap_enumerate (h : Standing g f) (hdone : done ⊆ f.tops) (ht : t ∈ f.tops) {i : Nat}
    (hi : i ∈ f.enumerate t) : i ∈ done.flatMap f.enumerate ↔ t ∈ done := by
  rw [List.mem_flatMap]
  constructor
  · rintro ⟨u, hu, hmem⟩
    exact h.eq_of_mem (hdone hu) ht hmem hi ▸ hu
  · exact fun hmem => ⟨t, hmem, hi⟩

theorem Standing.nodup_flatMap_enumerate (h : Standing g f) (hdone : done ⊆ f.tops) (hnd : done.Nodup) :
    (done.flatMap f.enumerate).Nodup := by
  refine List.nodup_flatMap.2 ⟨fun t ht => h.nodup_enumerate (hdone ht), hnd.imp_of_mem fun {t u} ht hu hne => ?_⟩
  exact fun i hit hiu => hne (h.eq_of_mem (hdone ht) (hdone hu) hit hiu)

theorem Indexed.isIndexed_eq (hd : Indexed g f n done) (h : Standing g f) (ht : t ∈ f.tops) :
    f.isIndexed n t = done.contains t := by
  rw [Bool.eq_iff_iff, isIndexed, hd.lists.indexOf, List.isSome_idxOf?, List.contains_iff_mem,
    h.mem_flatMap_enumerate hd.tops ht (h.firstOf_mem ht)]

theorem Indexed.index (hd : Indexed g f n done) (h : Standing g f) (ht : t ∈ f.tops) (hnew : t ∉ done) :
    Indexed g f (f.index n t) (done ++ [t]) := by
  have htops : done ++ [t] ⊆ f.tops := List.append_subset.2 ⟨hd.tops, List.cons_subset.2 ⟨ht, List.nil_subset _⟩⟩
  have hnd : (done ++ [t]).Nodup :=
    List.nodup_append.2 ⟨hd.nodup, List.nodup_singleton t, fun a ha b hb heq =>
      hnew ((heq.trans (List.mem_singleton.1 hb)) ▸ ha)⟩
  have hitems := h.nodup_flatMap_enumerate htops hnd
  rw [List.flatMap_append, List.flatMap_singleton] at hitems
  refine ⟨htops, hnd, ?_⟩
  rw [List.flatMap_append, List.flatMap_singleton]
  exact hd.lists.foldl_give _ (fun a ha => (h.atom_lt ht ha).1) hitems

theorem Numbered.contains_eq (hn : Numbered g f runs n) (h : Mirrored g f) (ht : t ∈ f.tops) :
    runs.contains (f.row t) = f.isIndexed n t := by
  obtain ⟨done, hd, rfl⟩ := hn
  rw [h.contains_row hd.tops ht, hd.isIndexed_eq h.standing ht]

theorem Numbered.index (hn : Numbered g f runs n) (h : Standing g f) (ht : t ∈ f.tops) (hnew : f.isIndexed n t = false) :
    Numbered g f (runs ++ [f.row t]) (f.index n t) := by
  obtain ⟨done, hd, rfl⟩ := hn
  rw [hd.isIndexed_eq h ht, List.contains_eq_mem, decide_eq_false_iff_not] at hnew
  exact ⟨done ++ [t], hd.index h ht hnew, by simp⟩

/-- **If all runs are numbered, all slots at the top are indexed.** -/
theorem Numbered.exists_perm (hn : Numbered g f runs n) (h : Mirrored g f) (hruns : runs.Perm f.rows) :
    ∃ done, Indexed g f n done ∧ done.map f.row = runs ∧ done.Perm f.tops := by
  obtain ⟨done, hd, rfl⟩ := hn
  refine ⟨done, hd, rfl, (List.perm_ext_iff_of_nodup hd.nodup h.standing.nodup_tops).2 fun t => ⟨fun ht => hd.tops ht, ?_⟩⟩
  intro ht
  obtain ⟨u, hu, heq⟩ := List.mem_map.1 (hruns.mem_iff.2 (List.mem_map_of_mem ht))
  exact (h.standing.row_inj h.tidy.owners (hd.tops hu) ht).1 heq ▸ hu

end Indexed

/-! ## The walk -/

/-- The run that an atomic slot lies in. -/
def runAt (f : SlotForest) (a : Nat) : Option Run := runOf f.rows (f.blockOf a)

section Walk

variable {g : SlotGraph} {f : SlotForest} (h : Mirrored g f) {visited : List Nat} {runs : List Run} {n : Indexing} {t : Nat}

include h

/-- A slot at the top has been visited when a visited run has one of its blocks. -/
theorem Mirrored.any_has (hvisited : visited ⊆ f.tops) (ht : t ∈ f.tops) {i : Nat} (hi : i ∈ f.enumerate t) :
    (visited.map f.row).any (·.has (f.blockOf i)) = visited.contains t := by
  rw [Bool.eq_iff_iff, List.any_map, List.any_eq_true, List.contains_iff_mem]
  have hlt := (h.standing.atom_lt ht hi).1
  constructor
  · rintro ⟨u, hu, hhas⟩
    rw [Function.comp_apply, h.standing.has_row h.tidy.owners (hvisited hu) hlt, decide_eq_true_eq] at hhas
    exact h.standing.eq_of_mem (hvisited hu) ht hhas hi ▸ hu
  · refine fun hmem => ⟨t, hmem, ?_⟩
    rw [Function.comp_apply, h.standing.has_row h.tidy.owners ht hlt, decide_eq_true hi]

theorem Mirrored.tells_allVisited (hvisited : visited ⊆ f.tops) (ht : t ∈ f.tops) : ∀ edges : List SlotEdge,
    edges ⊆ f.edgesOf t false → Tells f.slots (allVisited visited edges)
      (· = (edges.map fun e => f.link (e.source, e.target)).all fun l => (visited.map f.row).any (·.has l.source))
  | [], _ => tells_pure rfl
  | e :: edges, hedges => by
    have he := hedges List.mem_cons_self
    have hfar : e.far = e.source := by
      rw [SlotEdge.far, (h.exists_border ht he).2.1]
      rfl
    refine (hfar ▸ h.tells_far ht he).bind ?_
    rintro u ⟨hu, hmem, -⟩
    rw [List.map_cons, List.all_cons]
    have hany : ((visited.map f.row).any fun r => r.has (f.link (e.source, e.target)).source) = visited.contains u :=
      h.any_has hvisited hu hmem
    rw [hany]
    cases visited.contains u with
    | true => exact Mirrored.tells_allVisited hvisited ht edges fun x hx => hedges (List.mem_cons_of_mem _ hx)
    | false => exact tells_pure rfl

/-- **Offering a slot an index offers its run a number.** -/
theorem Mirrored.tells_offer (cold : Bool) (hvisited : visited ⊆ f.tops) (hn : Numbered g f runs n) (ht : t ∈ f.tops) :
    Tells f.slots (f.offer cold visited n t)
      (Numbered g f (g.offer cold (f.row t) ⟨visited.map f.row, runs⟩).numbered) := by
  unfold offer SlotGraph.offer
  rw [h.standing.runCold_row ht, hn.contains_eq h ht]
  by_cases hcold : f.isCold t = cold
  · cases hindexed : f.isIndexed n t with
    | true => simpa [hcold] using tells_pure hn
    | false =>
      have hinbound : (f.edgesOf t false).map (fun e => f.link (e.source, e.target)) = g.inbound (f.row t) :=
        h.map_edgesOf ht
      simp only [hcold, bne_self_eq_false, Bool.or_false, Bool.false_eq_true, if_false, beq_self_eq_true, Bool.not_false,
        Bool.true_and, ← hinbound]
      refine (h.tells_allVisited hvisited ht _ (List.Subset.refl _)).bind ?_
      rintro ready rfl
      refine tells_pure ?_
      split
      · exact hn.index h.standing ht hindexed
      · exact hn
  · simpa [hcold] using tells_pure hn

/-- **The walk among slots indexes what the walk among runs numbers.** -/
theorem Mirrored.tells_indexWalk (cold : Bool) : ∀ (fuel : Nat) {pending visited : List Nat} {runs : List Run}
    {n : Indexing}, (∀ a ∈ pending, a < g.owners.length) → visited ⊆ f.tops → Numbered g f runs n →
    Tells f.slots (f.indexWalk cold fuel pending visited n)
      (Numbered g f (g.numberWalk f.rows cold fuel (pending.filterMap f.runAt) ⟨visited.map f.row, runs⟩).numbered)
  | 0, _, _, _, _, _, _, hn => tells_pure hn
  | _ + 1, [], _, _, _, _, _, hn => tells_pure hn
  | fuel + 1, a :: pending, visited, runs, n, hpending, hvisited, hn => by
    obtain ⟨t, ht, hmem⟩ := h.standing.exists_top (hpending a List.mem_cons_self)
    have hrest : ∀ b ∈ pending, b < g.owners.length := fun b hb => hpending b (List.mem_cons_of_mem _ hb)
    have hrun : f.runAt a = some (f.row t) := h.standing.runOf_rows h.tidy.owners ht hmem
    have hkeep := g.visited_offer cold (f.row t) ⟨visited.map f.row, runs⟩
    rw [List.filterMap_cons, hrun]
    dsimp only
    rw [SlotGraph.numberWalk]
    refine (h.standing.tells_top ht hmem).bind ?_
    rintro t rfl
    refine (h.tells_offer cold hvisited hn ht).bind fun n' hn' => ?_
    generalize g.offer cold (f.row t) ⟨visited.map f.row, runs⟩ = offered at hkeep hn' ⊢
    obtain ⟨_, numbered⟩ := offered
    cases hkeep
    rw [h.contains_row hvisited ht]
    cases visited.contains t with
    | true => exact Mirrored.tells_indexWalk cold fuel hrest hvisited hn'
    | false =>
      have hnext : (f.edgesOf t true).map (fun e => f.link (e.source, e.target)) = g.outbound (f.row t) := h.map_edgesOf ht
      have hpairs : ((f.edgesOf t true).map (·.target) ++ pending).filterMap f.runAt =
          (g.outbound (f.row t)).filterMap (fun l => runOf f.rows l.target) ++ pending.filterMap f.runAt := by
        rw [List.filterMap_append, ← hnext, List.filterMap_map, List.filterMap_map]
        rfl
      have hlt : ∀ b ∈ (f.edgesOf t true).map (·.target) ++ pending, b < g.owners.length := by
        intro b hb
        rcases List.mem_append.1 hb with hb | hb
        · obtain ⟨e, he, rfl⟩ := List.mem_map.1 hb
          have hfar : e.far = e.target := by
            rw [SlotEdge.far, (h.exists_border ht he).2.1]
            rfl
          exact hfar ▸ h.far_lt_of_mem ht he
        · exact hrest b hb
      rw [← hpairs]
      exact Mirrored.tells_indexWalk cold fuel hlt (List.cons_subset.2 ⟨ht, hvisited⟩) hn'

/-- **What the walk left over follows in the order of the atomic slots.** -/
theorem Mirrored.tells_indexRest (cold : Bool) : ∀ (atoms : List Nat) {runs : List Run} {n : Indexing},
    (∀ a ∈ atoms, a < g.owners.length) → Numbered g f runs n →
    Tells f.slots (f.indexRest cold atoms n) (Numbered g f ((atoms.filterMap f.runAt).foldl
      (fun done r => if g.runCold r == cold && !done.contains r then done ++ [r] else done) runs))
  | [], _, _, _, hn => tells_pure hn
  | a :: atoms, runs, n, hatoms, hn => by
    obtain ⟨t, ht, hmem⟩ := h.standing.exists_top (hatoms a List.mem_cons_self)
    have hrun : f.runAt a = some (f.row t) := h.standing.runOf_rows h.tidy.owners ht hmem
    rw [List.filterMap_cons, hrun]
    dsimp only
    rw [List.foldl_cons, h.standing.runCold_row ht, hn.contains_eq h ht]
    refine (h.standing.tells_top ht hmem).bind ?_
    rintro t rfl
    refine Mirrored.tells_indexRest cold atoms (fun b hb => hatoms b (List.mem_cons_of_mem _ hb)) ?_
    split
    · rename_i hnew
      simp only [Bool.and_eq_true, Bool.not_eq_true'] at hnew
      exact hn.index h.standing ht hnew.2
    · exact hn

/-- **One half of the indices** is one half of the numbering. -/
theorem Mirrored.tells_indexHalf (cold : Bool) (hn : Numbered g f runs n) :
    Tells f.slots (f.indexHalf cold (List.range g.owners.length) g.links.length n)
      (Numbered g f (g.numberHalf f.rows cold runs)) := by
  have hatoms : ∀ a ∈ List.range g.owners.length, a < g.owners.length := fun a ha => List.mem_range.1 ha
  have hstarts : g.owners.filterMap (runOf f.rows) = (List.range g.owners.length).filterMap f.runAt := by
    rw [← map_blockOf_range h.standing.grown, List.filterMap_map, List.length_map, List.length_range]
    rfl
  have hlength : (g.owners.filterMap (runOf f.rows)).length = (List.range g.owners.length).length := by
    rw [hstarts, List.filterMap_length_eq_length]
    intro a ha
    obtain ⟨t, ht, hmem⟩ := h.standing.exists_top (hatoms a ha)
    rw [runAt, h.standing.runOf_rows h.tidy.owners ht hmem]
    rfl
  unfold indexHalf SlotGraph.numberHalf
  dsimp only
  rw [hlength, hstarts]
  exact (h.tells_indexWalk cold _ hatoms (List.nil_subset _) hn).bind fun n' hn' => h.tells_indexRest cold _ hatoms hn'

/-- **The slots are indexed in the order in which their runs are numbered.** -/
theorem Mirrored.tells_indexAll : Tells f.slots (g.indexAll f) (Numbered g f (g.numberRuns f.rows)) := by
  have hnone : Numbered g f [] (.none g.owners.length) :=
    ⟨[], ⟨List.nil_subset _, List.nodup_nil, Indexing.lists_none _⟩, rfl⟩
  exact (h.tells_indexHalf false hnone).bind fun n hn => h.tells_indexHalf true hn

end Walk

end SlotForest

end CodeImage
