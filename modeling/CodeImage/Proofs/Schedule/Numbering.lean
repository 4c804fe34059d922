import CodeImage.Proofs.Schedule.Runs
/-!
# Numbering — every run is numbered once, hot ones first

Each half of the numbering only adds runs of its own coldness, none twice (`Extends`), and the fallback behind the walk
adds those that the walk left out.  So `numberRuns` lists all runs of a division, the hot ones in front of the cold
ones (`numberRuns_spec`).
-/
namespace CodeImage

/-- **A numbering under way**: runs visited by the current walk, and all runs numbered so far. -/
structure Numbering where
  visited : List Run
  numbered : List Run
  deriving DecidableEq, Repr

namespace SlotGraph

/-- Number a run of the given coldness if every run that leads to it has been visited. -/
def offer (g : SlotGraph) (cold : Bool) (r : Run) (n : Numbering) : Numbering :=
  if g.runCold r == cold && !n.numbered.contains r
      && (g.inbound r).all (fun l => n.visited.any (·.has l.source)) then
    { n with numbered := n.numbered ++ [r] }
  else n

theorem visited_offer (g : SlotGraph) (cold : Bool) (r : Run) (n : Numbering) : (g.offer cold r n).visited = n.visited := by
  unfold offer
  split
  · rfl
  · rfl

/-- **Walk along the links**, offering every run met to the numbering. -/
def numberWalk (g : SlotGraph) (runs : List Run) (cold : Bool) : Nat → List Run → Numbering → Numbering
  | 0, _, n => n
  | _ + 1, [], n => n
  | fuel + 1, r :: rest, n =>
    let n := g.offer cold r n
    if n.visited.contains r then g.numberWalk runs cold fuel rest n
    else g.numberWalk runs cold fuel ((g.outbound r).filterMap (fun l => runOf runs l.target) ++ rest)
      { n with visited := r :: n.visited }

/-- **Number the runs of one coldness** behind those numbered already. -/
def numberHalf (g : SlotGraph) (runs : List Run) (cold : Bool) (numbered : List Run) : List Run :=
  let starts := g.owners.filterMap (runOf runs)
  let walked := g.numberWalk runs cold (starts.length + g.links.length) starts ⟨[], numbered⟩
  starts.foldl (fun done r => if g.runCold r == cold && !done.contains r then done ++ [r] else done) walked.numbered

/-- **The runs in their final order.** -/
def numberRuns (g : SlotGraph) (runs : List Run) : List Run :=
  g.numberHalf runs true (g.numberHalf runs false [])

end SlotGraph

namespace SlotGraph

/-- **A longer numbering**: runs of one coldness are added behind, each once. -/
structure Extends (g : SlotGraph) (runs : List Run) (cold : Bool) (old new : List Run) : Prop where
  added : ∃ more, new = old ++ more ∧ ∀ r ∈ more, r ∈ runs ∧ g.runCold r = cold
  nodup : old.Nodup → new.Nodup

section Extends

variable {g : SlotGraph} {runs : List Run} {cold : Bool}

theorem Extends.refl (l : List Run) : g.Extends runs cold l l :=
  ⟨⟨[], (List.append_nil l).symm, fun _ h => absurd h List.not_mem_nil⟩, id⟩

theorem Extends.trans {l m n : List Run} (h₁ : g.Extends runs cold l m) (h₂ : g.Extends runs cold m n) :
    g.Extends runs cold l n := by
  obtain ⟨x, rfl, hx⟩ := h₁.added
  obtain ⟨y, rfl, hy⟩ := h₂.added
  refine ⟨⟨x ++ y, List.append_assoc _ _ _, fun r hr => ?_⟩, fun h => h₂.nodup (h₁.nodup h)⟩
  exact (List.mem_append.1 hr).elim (hx r) (hy r)

theorem Extends.mem {l m : List Run} (h : g.Extends runs cold l m) {r : Run} (hr : r ∈ l) : r ∈ m := by
  obtain ⟨x, rfl, -⟩ := h.added
  exact List.mem_append_left _ hr

theorem extends_append {l : List Run} {r : Run} (hr : r ∈ runs) (hc : g.runCold r = cold) (hnew : r ∉ l) :
    g.Extends runs cold l (l ++ [r]) := by
  refine ⟨⟨[r], rfl, fun s hs => by rw [List.mem_singleton.1 hs]; exact ⟨hr, hc⟩⟩, fun hnd => ?_⟩
  rw [List.nodup_append]
  refine ⟨hnd, List.nodup_cons.2 ⟨List.not_mem_nil, List.nodup_nil⟩, fun a ha b hb heq => hnew ?_⟩
  rw [List.mem_singleton.1 hb] at heq
  exact heq ▸ ha

theorem extends_offer {r : Run} (hr : r ∈ runs) (n : Numbering) :
    g.Extends runs cold n.numbered (g.offer cold r n).numbered := by
  unfold offer
  split
  · rename_i hcond
    simp only [Bool.and_eq_true, beq_iff_eq, Bool.not_eq_true', List.contains_eq_mem, decide_eq_false_iff_not] at hcond
    exact extends_append hr hcond.1.1 hcond.1.2
  · exact Extends.refl _

/-- **A walk only adds to the numbering.** -/
theorem extends_numberWalk : ∀ (fuel : Nat) (pending : List Run) (n : Numbering), pending ⊆ runs →
    g.Extends runs cold n.numbered (g.numberWalk runs cold fuel pending n).numbered
  | 0, _, _, _ => Extends.refl _
  | _ + 1, [], _, _ => Extends.refl _
  | fuel + 1, r :: rest, n, hp => by
    have hr : r ∈ runs := hp List.mem_cons_self
    have hrest : rest ⊆ runs := fun s hs => hp (List.mem_cons_of_mem _ hs)
    unfold numberWalk
    simp only
    split
    · exact (extends_offer hr n).trans (extends_numberWalk fuel rest _ hrest)
    · have hnext : (g.outbound r).filterMap (fun l => runOf runs l.target) ++ rest ⊆ runs := by
        intro s hs
        rcases List.mem_append.1 hs with hs | hs
        · obtain ⟨l, -, hl⟩ := List.mem_filterMap.1 hs
          exact (mem_of_runOf hl).1
        · exact hrest hs
      exact (extends_offer hr n).trans (extends_numberWalk fuel _
        { g.offer cold r n with visited := r :: (g.offer cold r n).visited } hnext)

theorem extends_fallback : ∀ (starts done : List Run), starts ⊆ runs →
    g.Extends runs cold done
      (starts.foldl (fun done r => if g.runCold r == cold && !done.contains r then done ++ [r] else done) done) ∧
    ∀ r ∈ starts, g.runCold r = cold →
      r ∈ starts.foldl (fun done r => if g.runCold r == cold && !done.contains r then done ++ [r] else done) done
  | [], done, _ => ⟨Extends.refl _, fun _ h => absurd h List.not_mem_nil⟩
  | r :: starts, done, hs => by
    rw [List.foldl_cons]
    have hstep : g.Extends runs cold done
        (if g.runCold r == cold && !done.contains r then done ++ [r] else done) := by
      split
      · rename_i hcond
        simp only [Bool.and_eq_true, beq_iff_eq, Bool.not_eq_true', List.contains_eq_mem,
          decide_eq_false_iff_not] at hcond
        exact extends_append (hs List.mem_cons_self) hcond.1 hcond.2
      · exact Extends.refl _
    obtain ⟨hext, hall⟩ := extends_fallback starts _ (fun s h => hs (List.mem_cons_of_mem _ h))
    refine ⟨hstep.trans hext, fun s hsr hc => ?_⟩
    rcases List.mem_cons.1 hsr with rfl | hsr
    · refine hext.mem ?_
      by_cases hd : s ∈ done
      · exact hstep.mem hd
      · rw [if_pos (by simp [hc, hd])]
        exact List.mem_append_right _ List.mem_cons_self
    · exact hall s hsr hc

variable (g runs cold) in
/-- **One half of the numbering**: all runs of its coldness are numbered behind the others. -/
theorem extends_numberHalf (numbered : List Run) : g.Extends runs cold numbered (g.numberHalf runs cold numbered) ∧
    ∀ b ∈ g.owners, ∀ r, runOf runs b = some r → g.runCold r = cold → r ∈ g.numberHalf runs cold numbered := by
  have hstarts : g.owners.filterMap (runOf runs) ⊆ runs := by
    intro r hr
    obtain ⟨b, -, hb⟩ := List.mem_filterMap.1 hr
    exact (mem_of_runOf hb).1
  unfold numberHalf
  simp only
  generalize (g.owners.filterMap (runOf runs)).length + g.links.length = fuel
  have hwalk : g.Extends runs cold numbered _ := extends_numberWalk fuel _ ⟨[], numbered⟩ hstarts
  obtain ⟨hext, hall⟩ := extends_fallback _
    (g.numberWalk runs cold fuel (g.owners.filterMap (runOf runs)) ⟨[], numbered⟩).numbered hstarts
  exact ⟨hwalk.trans hext, fun b hb r hr hc => hall r (List.mem_filterMap.2 ⟨b, hb, hr⟩) hc⟩

/-- **The numbering lists every run once, the hot ones in front of the cold ones.** -/
theorem numberRuns_spec (h : g.Divided runs) (hg : g.owners.Nodup) : (g.numberRuns runs).Perm runs ∧
    ∃ hot cold, g.numberRuns runs = hot ++ cold ∧ (∀ r ∈ hot, g.runCold r = false) ∧
      ∀ r ∈ cold, g.runCold r = true := by
  obtain ⟨hhot, hallHot⟩ := extends_numberHalf g runs false []
  obtain ⟨hcold, hallCold⟩ := extends_numberHalf g runs true (g.numberHalf runs false [])
  obtain ⟨hot, hhotEq, hhotAdded⟩ := hhot.added
  obtain ⟨cold, hcoldEq, hcoldAdded⟩ := hcold.added
  rw [List.nil_append] at hhotEq
  have heq : g.numberRuns runs = hot ++ cold := by rw [numberRuns, hcoldEq, hhotEq]
  refine ⟨?_, hot, cold, heq, fun r hr => (hhotAdded r hr).2, fun r hr => (hcoldAdded r hr).2⟩
  refine (List.perm_ext_iff_of_nodup (hcold.nodup (hhot.nodup List.nodup_nil)) (h.nodup hg)).2 fun r => ?_
  constructor
  · intro hr
    rw [hcoldEq, hhotEq] at hr
    exact (List.mem_append.1 hr).elim (fun hr => (hhotAdded r hr).1) (fun hr => (hcoldAdded r hr).1)
  · intro hr
    have hhead : r.head ∈ g.owners := h.perm.mem_iff.1 (List.mem_flatMap.2 ⟨r, hr, r.head_mem_blocks⟩)
    have hrun := h.runOf_eq hg hr r.head_mem_blocks
    cases hc : g.runCold r with
    | false => exact hcold.mem (hallHot _ hhead r hrun hc)
    | true => exact hallCold _ hhead r hrun hc

end Extends

end SlotGraph

end CodeImage
