import CodeImage.Proofs.Schedule.Numbering
import CodeImage.Proofs.Schedule.Threads
/-!
# Readiness — when a run is numbered

The numbering walks along the links and comes to a run once for every link that leads there.  At one of these meetings
all runs that lead to the run have been met before (`exists_ready`), and at the first such meeting it is numbered.  So
runs of one coldness stand in the order in which they become ready (`pairwise_numberRuns`), and the walk leaves none out:
what follows it in `numberHalf` adds nothing (`numberHalf_eq`).

A run is ready once those that lead to it have been met.  That is not to say that they have been numbered.
-/
namespace CodeImage

namespace SlotGraph

/-- The runs that a run leads to, one for each link. -/
def nexts (g : SlotGraph) (runs : List Run) (r : Run) : List Run :=
  (g.outbound r).filterMap fun l => runOf runs l.target

/-- **What a walk along the links meets**: a run that it has not met before leads it on. -/
def meetingsFrom (g : SlotGraph) (runs : List Run) : Nat → List Run → List Run → List Run
  | 0, _, _ => []
  | _ + 1, [], _ => []
  | fuel + 1, r :: rest, visited =>
    r :: if visited.contains r then g.meetingsFrom runs fuel rest visited
      else g.meetingsFrom runs fuel (g.nexts runs r ++ rest) (r :: visited)

/-- **The runs in the order in which a walk from every slot in turn meets them**, each as often as it is met. -/
def meetings (g : SlotGraph) (runs : List Run) : List Run :=
  g.meetingsFrom runs ((g.owners.filterMap (runOf runs)).length + g.links.length) (g.owners.filterMap (runOf runs)) []

/-- **At meeting `i` the run `r` is ready**: every run that leads to it has been met before. -/
def Ready (g : SlotGraph) (met : List Run) (i : Nat) (r : Run) : Prop :=
  met[i]? = some r ∧ ∀ l ∈ g.inbound r, ∃ p ∈ met.take i, l.source ∈ p.blocks

/-- **Run `a` becomes ready before run `b`.** -/
def ReadyBefore (g : SlotGraph) (met : List Run) (a b : Run) : Prop :=
  ∃ i, g.Ready met i a ∧ ∀ j ≤ i, ¬g.Ready met j b

section Ready

variable {g : SlotGraph} {met more : List Run} {a b r : Run} {i : Nat}

theorem Ready.lt_length (h : g.Ready met i r) : i < met.length := (List.getElem?_eq_some_iff.1 h.1).1

/-- What comes later does not change what was ready. -/
theorem ready_append (hi : i < met.length) : g.Ready (met ++ more) i r ↔ g.Ready met i r := by
  rw [Ready, Ready, List.getElem?_append_left hi, List.take_append_of_le_length (Nat.le_of_lt hi)]

theorem ready_concat : g.Ready (met ++ [r]) met.length r ↔ ∀ l ∈ g.inbound r, ∃ p ∈ met, l.source ∈ p.blocks := by
  simp [Ready]

/-- One meeting more makes at most the run that is met ready. -/
theorem exists_ready_concat : (∃ i, g.Ready (met ++ [r]) i a) ↔
    (∃ i, g.Ready met i a) ∨ a = r ∧ g.Ready (met ++ [r]) met.length r := by
  constructor
  · rintro ⟨i, hi⟩
    by_cases hlt : i < met.length
    · exact .inl ⟨i, (ready_append hlt).1 hi⟩
    · have hlast := hi.lt_length
      have heq : i = met.length := by simp at hlast; omega
      subst heq
      have ha : a = r := by simpa using hi.1.symm
      exact .inr ⟨ha, ha ▸ hi⟩
  · rintro (⟨i, hi⟩ | ⟨rfl, hi⟩)
    · exact ⟨i, (ready_append hi.lt_length).2 hi⟩
    · exact ⟨_, hi⟩

theorem ReadyBefore.append (h : g.ReadyBefore met a b) (more : List Run) : g.ReadyBefore (met ++ more) a b := by
  obtain ⟨i, ha, hb⟩ := h
  have hi := ha.lt_length
  exact ⟨i, (ready_append hi).2 ha, fun j hj hready => hb j hj ((ready_append (by omega)).1 hready)⟩

theorem ReadyBefore.asymm (h : g.ReadyBefore met a b) : ¬g.ReadyBefore met b a := by
  rintro ⟨j, hb, ha⟩
  obtain ⟨i, ha', hb'⟩ := h
  rcases Nat.le_total j i with hle | hle
  · exact hb' j hle hb
  · exact ha i hle ha'

end Ready

/-! ## The numbering follows readiness -/

/-- **A numbering in order of readiness** behind `old`, as far as `met`. -/
def InOrder (g : SlotGraph) (cold : Bool) (old met numbered : List Run) : Prop :=
  ∃ new, numbered = old ++ new ∧ new.Pairwise (g.ReadyBefore met) ∧
    ∀ r, r ∈ new ↔ g.runCold r = cold ∧ ∃ i, g.Ready met i r

section InOrder

variable {g : SlotGraph} {old met : List Run} {cold : Bool}

theorem any_has_iff {visited : List Run} {c : Nat} : visited.any (·.has c) = true ↔ ∃ p ∈ visited, c ∈ p.blocks := by
  simp [Run.has]

/-- **One meeting**: the run that is met is numbered if that makes it ready for the first time. -/
theorem InOrder.offer {n : Numbering} (h : g.InOrder cold old met n.numbered) (hold : ∀ r ∈ old, g.runCold r ≠ cold)
    (hvisited : ∀ r, r ∈ n.visited ↔ r ∈ met) (r : Run) : g.InOrder cold old (met ++ [r]) (g.offer cold r n).numbered := by
  obtain ⟨new, hnew, hpairs, hmem⟩ := h
  have hready : (∀ l ∈ g.inbound r, ∃ p ∈ n.visited, l.source ∈ p.blocks) ↔ g.Ready (met ++ [r]) met.length r := by
    simp only [ready_concat, hvisited]
  unfold SlotGraph.offer
  split
  · rename_i hcond
    simp only [Bool.and_eq_true, beq_iff_eq, Bool.not_eq_true', List.contains_eq_mem, decide_eq_false_iff_not,
      List.all_eq_true, any_has_iff] at hcond
    obtain ⟨⟨hcold, hfresh⟩, hall⟩ := hcond
    have hnow := hready.1 hall
    have hnever : ∀ i, ¬g.Ready met i r := fun i hi =>
      hfresh (hnew ▸ List.mem_append_right _ ((hmem r).2 ⟨hcold, i, hi⟩))
    refine ⟨new ++ [r], by simp [hnew], ?_, fun s => ?_⟩
    · refine List.pairwise_append.2 ⟨hpairs.imp fun hab => hab.append _, List.pairwise_singleton _ _, ?_⟩
      intro a ha b hb
      rw [List.mem_singleton.1 hb]
      obtain ⟨-, i, hi⟩ := (hmem a).1 ha
      have hlt := hi.lt_length
      exact ⟨i, (ready_append hlt).2 hi, fun j hj hr => hnever j ((ready_append (by omega)).1 hr)⟩
    · rw [List.mem_append, List.mem_singleton, hmem, exists_ready_concat]
      constructor
      · rintro (⟨hc, hs⟩ | rfl)
        · exact ⟨hc, .inl hs⟩
        · exact ⟨hcold, .inr ⟨rfl, hnow⟩⟩
      · rintro ⟨hc, hs | ⟨hs, -⟩⟩
        · exact .inl ⟨hc, hs⟩
        · exact .inr hs
  · rename_i hcond
    refine ⟨new, hnew, hpairs.imp fun hab => hab.append _, fun s => ?_⟩
    rw [hmem, exists_ready_concat]
    refine and_congr_right fun hc => (or_iff_left_of_imp ?_).symm
    rintro ⟨rfl, hnow⟩
    -- ready now and still not numbered: it was numbered before
    by_contra hnever
    refine hcond ?_
    simp only [Bool.and_eq_true, beq_iff_eq, Bool.not_eq_true', List.contains_eq_mem, decide_eq_false_iff_not,
      List.all_eq_true, any_has_iff]
    refine ⟨⟨hc, fun hin => ?_⟩, hready.2 hnow⟩
    rw [hnew] at hin
    rcases List.mem_append.1 hin with hin | hin
    · exact hold s hin hc
    · exact hnever ((hmem s).1 hin).2

/-- **A walk numbers runs in the order in which its meetings make them ready.** -/
theorem InOrder.numberWalk (runs : List Run) (hold : ∀ r ∈ old, g.runCold r ≠ cold) : ∀ (fuel : Nat) (pending met : List Run)
    (n : Numbering), g.InOrder cold old met n.numbered → (∀ r, r ∈ n.visited ↔ r ∈ met) →
    g.InOrder cold old (met ++ g.meetingsFrom runs fuel pending n.visited) (g.numberWalk runs cold fuel pending n).numbered
  | 0, _, met, n, h, _ => by
    rw [meetingsFrom, List.append_nil]
    exact h
  | _ + 1, [], met, n, h, _ => by
    rw [meetingsFrom, List.append_nil]
    exact h
  | fuel + 1, r :: rest, met, n, h, hvisited => by
    have hstep := h.offer hold hvisited r
    have hkeep := g.visited_offer cold r n
    rw [meetingsFrom, SlotGraph.numberWalk]
    simp only [hkeep]
    rw [← List.singleton_append, ← List.append_assoc]
    split
    · rename_i hseen
      have hmet : r ∈ met := (hvisited r).1 (by simpa using hseen)
      have hrest := InOrder.numberWalk runs hold fuel rest (met ++ [r]) (g.offer cold r n) hstep fun s => by
        rw [hkeep, hvisited, List.mem_append, List.mem_singleton]
        exact ⟨.inl, fun hs => hs.elim id fun hs => hs ▸ hmet⟩
      rwa [hkeep] at hrest
    · exact InOrder.numberWalk runs hold fuel (g.nexts runs r ++ rest) (met ++ [r])
        { g.offer cold r n with visited := r :: n.visited } hstep fun s => by
          rw [List.mem_cons, hvisited, List.mem_append, List.mem_singleton]
          exact or_comm

end InOrder

/-! ## Every run becomes ready -/

section Meetings

variable {g : SlotGraph} {runs : List Run}

theorem nexts_subset (r : Run) : g.nexts runs r ⊆ runs := by
  intro s hs
  obtain ⟨l, -, hl⟩ := List.mem_filterMap.1 hs
  exact (mem_of_runOf hl).1

theorem starts_subset : g.owners.filterMap (runOf runs) ⊆ runs := by
  intro r hr
  obtain ⟨b, -, hb⟩ := List.mem_filterMap.1 hr
  exact (mem_of_runOf hb).1

/-- The links of all runs that have not been visited. -/
def linksAhead (g : SlotGraph) (runs visited : List Run) : List Link :=
  (runs.filter fun r => !visited.contains r).flatMap g.outbound

theorem length_linksAhead (hnd : runs.Nodup) {visited : List Run} {r : Run} (hr : r ∈ runs) (hfresh : r ∉ visited) :
    (g.linksAhead runs visited).length = (g.outbound r).length + (g.linksAhead runs (r :: visited)).length := by
  have hmem : r ∈ runs.filter fun s => !visited.contains s := List.mem_filter.2 ⟨hr, by simpa using hfresh⟩
  have hrest : (runs.filter fun s => !visited.contains s).erase r = runs.filter fun s => !(r :: visited).contains s := by
    rw [(hnd.filter _).erase_eq_filter, List.filter_filter]
    refine List.filter_congr fun s _ => ?_
    by_cases hs : s = r <;> simp [hs]
  rw [linksAhead, ((List.perm_cons_erase hmem).flatMap_right g.outbound).length_eq, hrest, List.flatMap_cons,
    List.length_append, linksAhead]

/-- **A walk with enough fuel meets all that is pending**, and whatever a run leads to it meets after the first meeting
with that run. -/
theorem meetingsFrom_leads (hnd : runs.Nodup) : ∀ (fuel : Nat) (pending visited : List Run), pending ⊆ runs →
    pending.length + (g.linksAhead runs visited).length ≤ fuel →
    pending ⊆ g.meetingsFrom runs fuel pending visited ∧
    ∀ p front back, p ∉ visited → g.meetingsFrom runs fuel pending visited = front ++ p :: back → p ∉ front →
      g.nexts runs p ⊆ back
  | 0, pending, visited, _, hfuel => by
    rw [List.length_eq_zero_iff.1 (show pending.length = 0 by omega)]
    refine ⟨List.nil_subset _, fun p front back _ heq => ?_⟩
    rw [meetingsFrom] at heq
    simp at heq
  | _ + 1, [], visited, _, _ => by
    refine ⟨List.nil_subset _, fun p front back _ heq => ?_⟩
    rw [meetingsFrom] at heq
    simp at heq
  | fuel + 1, r :: rest, visited, hpending, hfuel => by
    have hr : r ∈ runs := hpending List.mem_cons_self
    have hrest : rest ⊆ runs := fun s hs => hpending (List.mem_cons_of_mem _ hs)
    rw [List.length_cons] at hfuel
    rw [meetingsFrom]
    split
    · rename_i hseen
      have hseen : r ∈ visited := by simpa using hseen
      obtain ⟨hmeets, hleads⟩ := meetingsFrom_leads hnd fuel rest visited hrest (by omega)
      refine ⟨List.cons_subset_cons r hmeets, fun p front back hp heq hfirst => ?_⟩
      cases front with
      | nil => exact absurd hseen ((List.cons.inj heq).1 ▸ hp)
      | cons x front =>
        exact hleads p front back hp (List.cons.inj heq).2 fun hin => hfirst (List.mem_cons_of_mem _ hin)
    · rename_i hfresh
      have hfresh : r ∉ visited := by simpa using hfresh
      have hnexts : (g.nexts runs r).length ≤ (g.outbound r).length := List.length_filterMap_le _ _
      have hahead := length_linksAhead (g := g) hnd hr hfresh
      have hsubset : g.nexts runs r ++ rest ⊆ runs := List.append_subset.2 ⟨nexts_subset r, hrest⟩
      obtain ⟨hmeets, hleads⟩ := meetingsFrom_leads hnd fuel (g.nexts runs r ++ rest) (r :: visited) hsubset
        (by rw [List.length_append]; omega)
      refine ⟨List.cons_subset_cons r fun s hs => hmeets (List.mem_append_right _ hs), fun p front back hp heq hfirst => ?_⟩
      cases front with
      | nil =>
        obtain ⟨rfl, rfl⟩ := List.cons.inj heq
        exact fun s hs => hmeets (List.mem_append_left _ hs)
      | cons x front =>
        obtain ⟨rfl, htail⟩ := List.cons.inj heq
        have hpr : p ≠ r := fun hpr => hfirst (hpr ▸ List.mem_cons_self)
        exact hleads p front back (by simp [hpr, hp]) htail fun hin => hfirst (List.mem_cons_of_mem _ hin)

theorem length_linksAhead_le (hg : g.Tidy) (h : g.Divided runs) : (g.linksAhead runs []).length ≤ g.links.length := by
  have hall : runs.filter (fun r => !([] : List Run).contains r) = runs := by simp
  rw [linksAhead, hall]
  have hnodup : (runs.flatMap g.outbound).Nodup := by
    refine List.nodup_flatMap.2 ⟨fun r hr => ?_, (h.disjoint hg.owners).imp fun {a b} hab l hla hlb => ?_⟩
    · exact nodup_across Link.source Link.target hg (h.nodup_blocks hg.owners hr)
    · exact hab ((mem_across Link.source Link.target a l).1 hla).2.1 ((mem_across Link.source Link.target b l).1 hlb).2.1
  refine (hnodup.subperm fun l hl => ?_).length_le
  obtain ⟨r, -, hl⟩ := List.mem_flatMap.1 hl
  exact ((mem_across Link.source Link.target r l).1 hl).1

theorem meetingsFrom_subset : ∀ (fuel : Nat) (pending visited : List Run), pending ⊆ runs →
    g.meetingsFrom runs fuel pending visited ⊆ runs
  | 0, _, _, _ => List.nil_subset _
  | _ + 1, [], _, _ => List.nil_subset _
  | fuel + 1, r :: rest, visited, hpending => by
    have hrest : rest ⊆ runs := fun s hs => hpending (List.mem_cons_of_mem _ hs)
    rw [meetingsFrom]
    refine List.cons_subset.2 ⟨hpending List.mem_cons_self, ?_⟩
    split
    · exact meetingsFrom_subset fuel rest visited hrest
    · exact meetingsFrom_subset fuel _ _ (List.append_subset.2 ⟨nexts_subset r, hrest⟩)

theorem meetings_subset : g.meetings runs ⊆ runs := meetingsFrom_subset _ _ _ starts_subset

/-- **The meetings**: every run is met, and all that it leads to after it. -/
theorem meetings_leads (hg : g.Tidy) (h : g.Divided runs) : runs ⊆ g.meetings runs ∧
    ∀ p front back, g.meetings runs = front ++ p :: back → p ∉ front → g.nexts runs p ⊆ back := by
  have hfuel := length_linksAhead_le hg h
  obtain ⟨hmeets, hleads⟩ := meetingsFrom_leads (g := g) (h.nodup hg.owners)
    ((g.owners.filterMap (runOf runs)).length + g.links.length) (g.owners.filterMap (runOf runs)) []
    starts_subset (by omega)
  refine ⟨fun r hr => hmeets (List.mem_filterMap.2 ⟨r.head, ?_, ?_⟩), fun p front back => ?_⟩
  · exact h.perm.mem_iff.1 (List.mem_flatMap.2 ⟨r, hr, r.head_mem_blocks⟩)
  · exact h.runOf_eq hg.owners hr r.head_mem_blocks
  · exact hleads p front back List.not_mem_nil

/-- **Every run becomes ready**, at the latest when it is met for the last time: a run that leads to it and had not been
met by then would lead to it once more. -/
theorem exists_ready (hg : g.Tidy) (h : g.Divided runs) {r : Run} (hr : r ∈ runs) : ∃ i, g.Ready (g.meetings runs) i r := by
  obtain ⟨hmeets, hleads⟩ := meetings_leads hg h
  obtain ⟨front, back, hsplit, hlast⟩ := List.eq_append_cons_of_mem (List.mem_reverse.2 (hmeets hr))
  have hsplit : g.meetings runs = back.reverse ++ r :: front.reverse := by
    rw [← List.reverse_reverse (g.meetings runs), hsplit]
    simp
  refine ⟨back.reverse.length, by simp [hsplit], fun l hl => ?_⟩
  obtain ⟨hlink, htarget, hout⟩ := (mem_across Link.target Link.source r l).1 hl
  obtain ⟨p, hp, hsource⟩ := h.exists_run (hg.source l hlink)
  refine ⟨p, ?_, hsource⟩
  have hpr : p ≠ r := fun hpr => hout (hpr ▸ hsource)
  have hfar : l.target ∉ p.blocks := h.not_mem hg.owners hr hp (Ne.symm hpr) htarget
  have hnext : r ∈ g.nexts runs p := List.mem_filterMap.2
    ⟨l, (mem_across Link.source Link.target p l).2 ⟨hlink, hsource, hfar⟩, h.runOf_eq hg.owners hr htarget⟩
  rw [hsplit, List.take_left]
  by_contra hlate
  have hmet := hmeets hp
  rw [hsplit, List.mem_append, List.mem_cons] at hmet
  obtain ⟨x, y, hxy, hfirst⟩ := List.eq_append_cons_of_mem ((hmet.resolve_left hlate).resolve_left hpr)
  have hagain := hleads p (back.reverse ++ r :: x) y (by rw [hsplit, hxy]; simp) (by simp [hfirst, hpr] at hlate ⊢; exact hlate)
  have hin : r ∈ front.reverse := by
    rw [hxy]
    exact List.mem_append_right _ (List.mem_cons_of_mem _ (hagain hnext))
  exact hlast (List.mem_reverse.1 hin)

/-- **One half of the numbering**: behind `old`, all runs of its coldness in the order in which they become ready. -/
theorem numberHalf_eq (hg : g.Tidy) (h : g.Divided runs) (cold : Bool) (old : List Run)
    (hold : ∀ r ∈ old, g.runCold r ≠ cold) : ∃ new, g.numberHalf runs cold old = old ++ new ∧
      new.Pairwise (g.ReadyBefore (g.meetings runs)) ∧ ∀ r ∈ new, g.runCold r = cold := by
  have hempty : g.InOrder cold old [] old :=
    ⟨[], (List.append_nil _).symm, List.Pairwise.nil, fun r => by simp [Ready]⟩
  have hwalk := InOrder.numberWalk runs hold ((g.owners.filterMap (runOf runs)).length + g.links.length)
    (g.owners.filterMap (runOf runs)) [] ⟨[], old⟩ hempty fun r => by simp
  obtain ⟨new, hnew, hpairs, hmem⟩ := hwalk
  refine ⟨new, ?_, hpairs, fun r hr => ((hmem r).1 hr).1⟩
  -- all runs are numbered by now
  have hnone : ∀ starts : List Run, starts ⊆ runs → starts.foldl
      (fun done r => if g.runCold r == cold && !done.contains r then done ++ [r] else done) (old ++ new) = old ++ new := by
    intro starts hstarts
    induction starts with
    | nil => rfl
    | cons r starts ih =>
      have hskip : (g.runCold r == cold && !(old ++ new).contains r) = false := by
        rw [Bool.and_eq_false_iff, beq_eq_false_iff_ne, Bool.not_eq_false', List.contains_eq_mem, decide_eq_true_eq]
        by_cases hc : g.runCold r = cold
        · exact .inr (List.mem_append_right _ ((hmem r).2 ⟨hc, exists_ready hg h (hstarts List.mem_cons_self)⟩))
        · exact .inl hc
      rw [List.foldl_cons, if_neg (by rw [hskip]; decide)]
      exact ih fun s hs => hstarts (List.mem_cons_of_mem _ hs)
  unfold numberHalf
  simp only [hnew]
  exact hnone _ starts_subset

/-- **Equally cold runs are numbered in the order in which they become ready.** -/
theorem pairwise_numberRuns (hg : g.Tidy) (h : g.Divided runs) :
    (g.numberRuns runs).Pairwise fun a b => g.runCold a = g.runCold b → g.ReadyBefore (g.meetings runs) a b := by
  obtain ⟨hot, hhot, hhotPairs, hhotCold⟩ := numberHalf_eq hg h false [] (by simp)
  rw [List.nil_append] at hhot
  obtain ⟨cold, hcold, hcoldPairs, hcoldCold⟩ := numberHalf_eq hg h true hot
    fun r hr => by simp [hhotCold r hr]
  rw [numberRuns, hhot, hcold, List.pairwise_append]
  refine ⟨?_, ?_, fun a ha b hb heq => ?_⟩
  · refine hhotPairs.imp ?_
    intro a b hab _
    exact hab
  · refine hcoldPairs.imp ?_
    intro a b hab _
    exact hab
  · rw [hhotCold a ha, hcoldCold b hb] at heq
    cases heq

end Meetings

end SlotGraph

end CodeImage
