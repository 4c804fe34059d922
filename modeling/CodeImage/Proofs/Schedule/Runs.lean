import Mathlib.Data.List.Perm.Basic
import Mathlib.Data.List.Nodup
import Mathlib.Data.List.Pairwise
import CodeImage.Proofs.Sorting
import CodeImage.Proofs.Schedule.Join
/-!
# Runs — joining keeps the slots

`SlotGraph.Divided` is what holds of the runs at any time: together they hold every slot once, and the slots of one run
are equally cold.  Whatever pattern a join comes from, it takes two runs of the list that differ and are equally cold
(`joins_of_nextJoin?`), so every join keeps the division (`Divided.join`), and so does joining until no pattern
applies (`divided_joinAll`).
-/
namespace CodeImage

theorem mem_of_runOf {runs : List Run} {b : Nat} {r : Run} (h : runOf runs b = some r) : r ∈ runs ∧ b ∈ r.blocks := by
  refine ⟨List.mem_of_find?_eq_some h, ?_⟩
  have := List.find?_some h
  simpa [Run.has] using this

theorem Run.head_mem_blocks (r : Run) : r.head ∈ r.blocks := List.mem_cons_self

theorem orElse_eq_some {α : Type} {a b : Option α} {x : α} (h : (a <|> b) = some x) : a = some x ∨ b = some x := by
  cases a with
  | none => exact .inr h
  | some y => exact .inl h

namespace SlotGraph

section Patterns

variable {g : SlotGraph} {runs set : List Run} {a b r : Run}

/-- **A join that may be made**: two runs of the list that differ and are equally cold. -/
def Joins (g : SlotGraph) (runs : List Run) (a b : Run) : Prop := a ∈ runs ∧ b ∈ runs ∧ g.joinable a b = true

theorem mem_of_soleTarget? {ends : Bool} (h : g.soleTarget? runs set ends r = some b) : b ∈ runs := by
  unfold soleTarget? at h
  split at h
  · split at h
    · cases h
    · exact (mem_of_runOf h).1
  · cases h

theorem joins_of_straight? (hset : set ⊆ runs) (h : g.straight? runs set = some (a, b)) : g.Joins runs a b := by
  unfold straight? at h
  obtain ⟨r, hr, h⟩ := List.exists_of_findSome?_eq_some h
  split at h
  · rename_i s hs
    split at h
    · rename_i hcond
      cases h
      rw [Bool.and_eq_true] at hcond
      exact ⟨hset hr, mem_of_soleTarget? hs, hcond.2⟩
    · cases h
  · cases h

theorem mem_of_mem_byWeight (h : r ∈ g.byWeight runs set) : r ∈ runs := (List.mem_filter.1 ((mem_sortBy _).1 h)).1

theorem joins_of_loopExit? (h : g.loopExit? runs set = some (a, b)) : g.Joins runs a b := by
  unfold loopExit? at h
  obtain ⟨cold, -, h⟩ := List.exists_of_findSome?_eq_some h
  obtain ⟨r, hr, h⟩ := List.exists_of_findSome?_eq_some h
  split at h
  · simp only at h
    split at h
    · rename_i p hp
      split at h
      · rename_i hj
        cases h
        have hmem : a ∈ [a] := List.mem_cons_self
        rw [← hp, List.mem_eraseDups] at hmem
        obtain ⟨l, -, hl⟩ := List.mem_filterMap.1 hmem
        exact ⟨(mem_of_runOf hl).1, mem_of_mem_byWeight hr, hj⟩
      · cases h
    · cases h
  · cases h

theorem mem_of_twoTargets? {cold : Bool} (h : g.twoTargets? runs cold r = some (a, b)) : a ∈ runs ∧ b ∈ runs := by
  unfold twoTargets? at h
  split at h
  · split at h
    · rename_i ha hb
      cases h
      exact ⟨(mem_of_runOf ha).1, (mem_of_runOf hb).1⟩
    · cases h
  · cases h

theorem eq_of_ifThen? {c x y : Run} (h : g.ifThen? runs set a b c = some (x, y)) :
    (x = a ∧ y = b) ∧ g.joinable a b = true := by
  unfold ifThen? at h
  split at h
  · rename_i hcond
    cases h
    simp only [Bool.and_eq_true] at hcond
    exact ⟨⟨rfl, rfl⟩, hcond.1.1.2⟩
  · cases h

theorem eq_of_ifThenElse? {c x y : Run} (h : g.ifThenElse? runs set a b c = some (x, y)) :
    (x = a ∧ (y = b ∨ y = c)) ∧ g.joinable x y = true := by
  unfold ifThenElse? at h
  split at h
  · simp only at h
    -- which arm is the heavier one
    split at h
    · split at h
      · rename_i hcond
        cases h
        exact ⟨⟨rfl, .inl rfl⟩, (Bool.and_eq_true _ _ ▸ hcond).2⟩
      · cases h
    · split at h
      · rename_i hcond
        cases h
        exact ⟨⟨rfl, .inr rfl⟩, (Bool.and_eq_true _ _ ▸ hcond).2⟩
      · cases h
  · cases h

theorem joins_of_branch? (h : g.branch? runs set = some (a, b)) : g.Joins runs a b := by
  unfold branch? at h
  obtain ⟨cold, -, h⟩ := List.exists_of_findSome?_eq_some h
  obtain ⟨r, hr, h⟩ := List.exists_of_findSome?_eq_some h
  have hr := mem_of_mem_byWeight hr
  split at h
  · split at h
    · rename_i s t hst
      obtain ⟨hs, ht⟩ := mem_of_twoTargets? hst
      split at h
      · rcases orElse_eq_some h with h | h
        · obtain ⟨⟨rfl, rfl⟩, hj⟩ := eq_of_ifThen? h
          exact ⟨hr, hs, hj⟩
        · rcases orElse_eq_some h with h | h
          · obtain ⟨⟨rfl, rfl⟩, hj⟩ := eq_of_ifThen? h
            exact ⟨hr, ht, hj⟩
          · obtain ⟨⟨rfl, harm⟩, hj⟩ := eq_of_ifThenElse? h
            rcases harm with rfl | rfl
            · exact ⟨hr, hs, hj⟩
            · exact ⟨hr, ht, hj⟩
      · cases h
    · cases h
  · cases h

theorem joins_of_joinIn? (hset : set ⊆ runs) (h : g.joinIn? runs set = some (a, b)) : g.Joins runs a b := by
  unfold joinIn? at h
  split at h
  · cases h
  · rcases orElse_eq_some h with h | h
    · exact joins_of_loopExit? h
    · rcases orElse_eq_some h with h | h
      · exact joins_of_branch? h
      · exact joins_of_straight? hset h

theorem loopRuns_subset {loop : List Nat} {cold : Bool} : g.loopRuns runs loop cold ⊆ runs := by
  intro r hr
  unfold loopRuns at hr
  rw [List.mem_eraseDups] at hr
  obtain ⟨b, -, hb⟩ := List.mem_filterMap.1 hr
  exact (mem_of_runOf hb).1

/-- **Every pattern proposes a join that may be made.** -/
theorem joins_of_nextJoin? (h : g.nextJoin? runs = some (a, b)) : g.Joins runs a b := by
  unfold nextJoin? at h
  rcases orElse_eq_some h with h | h
  · exact joins_of_straight? (List.Subset.refl _) h
  · rcases orElse_eq_some h with h | h
    · obtain ⟨loop, -, h⟩ := List.exists_of_findSome?_eq_some h
      obtain ⟨cold, -, h⟩ := List.exists_of_findSome?_eq_some h
      exact joins_of_joinIn? loopRuns_subset h
    · exact joins_of_joinIn? (List.Subset.refl _) h

end Patterns

/-- **Slots and links in order**: each listed once, and links lead from slot to slot. -/
structure Tidy (g : SlotGraph) : Prop where
  owners : g.owners.Nodup
  links : g.links.Nodup
  source : ∀ l ∈ g.links, l.source ∈ g.owners
  target : ∀ l ∈ g.links, l.target ∈ g.owners

/-- **The runs divide the slots**: each slot is in one run, and a run is all hot or all cold. -/
structure Divided (g : SlotGraph) (runs : List Run) : Prop where
  perm : (runs.flatMap Run.blocks).Perm g.owners
  cold : ∀ r ∈ runs, ∀ b ∈ r.blocks, g.isCold b = g.runCold r

section Divided

variable {g : SlotGraph} {runs : List Run}

/-- Runs of a division share no slot. -/
theorem Divided.disjoint (h : g.Divided runs) (hg : g.owners.Nodup) :
    runs.Pairwise (fun r s => List.Disjoint r.blocks s.blocks) :=
  (List.nodup_flatMap.1 (h.perm.nodup_iff.2 hg)).2

theorem Divided.nodup (h : g.Divided runs) (hg : g.owners.Nodup) : runs.Nodup :=
  (h.disjoint hg).imp fun {r s} (hd : List.Disjoint r.blocks s.blocks) (heq : r = s) =>
    hd r.head_mem_blocks (heq ▸ r.head_mem_blocks)

theorem Divided.eq_of_mem (h : g.Divided runs) (hg : g.owners.Nodup) {r s : Run} (hr : r ∈ runs) (hs : s ∈ runs)
    {b : Nat} (hbr : b ∈ r.blocks) (hbs : b ∈ s.blocks) : r = s := by
  have : Std.Symm (fun r s : Run => List.Disjoint r.blocks s.blocks) := ⟨fun _ _ hd _ hs hr => hd hr hs⟩
  by_contra hne
  exact (h.disjoint hg).forall hr hs hne hbr hbs

theorem Divided.runOf_eq (h : g.Divided runs) (hg : g.owners.Nodup) {r : Run} (hr : r ∈ runs) {b : Nat}
    (hb : b ∈ r.blocks) : runOf runs b = some r := by
  cases hrun : runOf runs b with
  | none =>
    have := List.find?_eq_none.1 hrun r hr
    simp [Run.has, hb] at this
  | some s =>
    obtain ⟨hs, hbs⟩ := mem_of_runOf hrun
    rw [h.eq_of_mem hg hs hr hbs hb]

/-- The two that are joined, and the others. -/
theorem perm_rest {α : Type} [DecidableEq α] {l : List α} (hnd : l.Nodup) {a b : α} (ha : a ∈ l) (hb : b ∈ l) (hne : a ≠ b) :
    l.Perm (a :: b :: l.filter fun r => r != a && r != b) := by
  have hrest : (l.erase a).erase b = l.filter fun r => r != a && r != b := by
    rw [(hnd.erase a).erase_eq_filter, hnd.erase_eq_filter, List.filter_filter]
    exact List.filter_congr fun r _ => Bool.and_comm _ _
  have hba : b ∈ l.erase a := (List.mem_erase_of_ne (Ne.symm hne)).2 hb
  rw [← hrest]
  exact (List.perm_cons_erase ha).trans ((List.perm_cons_erase hba).cons a)

theorem join_perm (hnd : runs.Nodup) {a b : Run} (ha : a ∈ runs) (hb : b ∈ runs) (hne : a ≠ b) :
    ((join runs a b).flatMap Run.blocks).Perm (runs.flatMap Run.blocks) := by
  refine List.Perm.trans ?_ ((perm_rest hnd ha hb hne).flatMap_right Run.blocks).symm
  unfold join
  rw [List.flatMap_append, List.flatMap_singleton, Run.blocks_append, List.flatMap_cons, List.flatMap_cons,
    ← List.append_assoc a.blocks]
  exact List.perm_append_comm

theorem Divided.join (h : g.Divided runs) (hg : g.owners.Nodup) {a b : Run} (hj : g.Joins runs a b) :
    g.Divided (join runs a b) := by
  obtain ⟨ha, hb, hj⟩ := hj
  unfold joinable at hj
  simp only [Bool.and_eq_true, bne_iff_ne, beq_iff_eq] at hj
  refine ⟨(join_perm (h.nodup hg) ha hb hj.1).trans h.perm, fun r hr c hc => ?_⟩
  unfold SlotGraph.join at hr
  rcases List.mem_append.1 hr with hr | hr
  · exact h.cold r (List.mem_filter.1 hr).1 c hc
  · rw [List.mem_singleton.1 hr] at hc ⊢
    have hcold : g.runCold (a.append b) = g.runCold a := rfl
    rw [Run.blocks_append] at hc
    rcases List.mem_append.1 hc with hc | hc
    · rw [hcold, h.cold a ha c hc]
    · rw [hcold, h.cold b hb c hc, hj.2]

theorem divided_joinTimes (hg : g.owners.Nodup) : ∀ (fuel : Nat) (runs : List Run), g.Divided runs →
    g.Divided (g.joinTimes fuel runs)
  | 0, _, h => h
  | fuel + 1, runs, h => by
    unfold joinTimes
    split
    · rename_i a b hj
      exact divided_joinTimes hg fuel _ (h.join hg (joins_of_nextJoin? hj))
    · exact h

theorem divided_single (g : SlotGraph) : g.Divided (g.owners.map Run.single) := by
  refine ⟨?_, fun r hr b hb => ?_⟩
  · rw [List.flatMap_map]
    exact List.Perm.of_eq (List.flatMap_singleton' g.owners)
  · obtain ⟨o, -, rfl⟩ := List.mem_map.1 hr
    rw [List.mem_singleton.1 hb]
    rfl

/-- **Joining until no pattern applies keeps the division.** -/
theorem divided_joinAll (hg : g.owners.Nodup) : g.Divided g.joinAll :=
  divided_joinTimes hg _ _ (divided_single g)

end Divided

end SlotGraph

end CodeImage
