import Mathlib.Data.List.Chain
import CodeImage.Proofs.Schedule.Complete
/-!
# Aliasing — a hollow block shares the slot it falls into

`Ownership.Traced` ties owners to falling: a hollow block has the owner of the block it falls into, and falling from a
block comes to its owner.  Whether a chain of hollow blocks runs into an owner, into a solid block or around a cycle, all
of it gets one owner at its end, so following keeps this (`Traced.follow`).  Hence a hollow block owns its slot only on a
cycle of hollow blocks, and each cycle has one owner (`aliasing_exact`).
-/
namespace CodeImage

/-- The last of a chain can be come to from all of it. -/
theorem leads_of_isChain {α : Type} {R : α → α → Prop} {l : List α} {c : α} (h : (l ++ [c]).IsChain R) :
    ∀ z ∈ l ++ [c], Relation.ReflTransGen R z c :=
  h.backwards_induction _ _ (fun _ _ hxy hy => hy.head hxy) fun _ => by rw [List.getLast_append_singleton]

theorem exists_next_of_isChain {α : Type} {R : α → α → Prop} {l : List α} {c z : α} (h : (l ++ [c]).IsChain R)
    (hz : z ∈ l) : ∃ n ∈ l ++ [c], R z n := by
  obtain ⟨front, back, rfl⟩ := List.append_of_mem hz
  rw [List.append_assoc, List.cons_append] at h ⊢
  cases back with
  | nil => exact ⟨c, by simp, List.isChain_pair.1 h.right_of_append⟩
  | cons n back => exact ⟨n, by simp, (List.isChain_cons_cons.1 h.right_of_append).1⟩

namespace Ownership

variable {next : Nat → Option Nat} {own : Ownership}

/-- **Owners that falling finds.** -/
structure Traced (next : Nat → Option Nat) (own : Ownership) : Prop where
  shared : ∀ {b n o}, next b = some n → own.ownerOf b = some o → own.ownerOf n = some o
  leads : ∀ {b o}, own.ownerOf b = some o → Relation.ReflTransGen (fun a n => next a = some n) b o

theorem traced_empty : Traced next empty :=
  ⟨fun _ h => by simp [ownerOf, empty] at h, fun h => by simp [ownerOf, empty] at h⟩

/-- **A chain that gets one owner**, which falling from its last block comes to. -/
theorem Traced.extend (h : own.Traced next) {own' : Ownership} {chain : List Nat} {cur o : Nat}
    (hchain : (chain ++ [cur]).IsChain fun a n => next a = some n)
    (hfree : ∀ z ∈ chain ++ [cur], own.ownerOf z = none ∨ own.ownerOf z = some o)
    (hnew : ∀ z ∈ chain ++ [cur], own'.ownerOf z = some o)
    (hold : ∀ b, b ∉ chain ++ [cur] → own'.ownerOf b = own.ownerOf b)
    (hend : Relation.ReflTransGen (fun a n => next a = some n) cur o)
    (hnext : ∀ n, next cur = some n → n ∈ chain ++ [cur] ∨ own.ownerOf n = some o) : own'.Traced next := by
  have hkeep : ∀ {b p}, own.ownerOf b = some p → own'.ownerOf b = some p := by
    intro b p hb
    by_cases hbc : b ∈ chain ++ [cur]
    · rw [hnew b hbc]
      rcases hfree b hbc with hb' | hb' <;> rw [hb'] at hb
      · cases hb
      · exact hb
    · rw [hold b hbc, hb]
  have hfall : ∀ b ∈ chain ++ [cur], ∀ n, next b = some n → own'.ownerOf n = some o := by
    intro b hb n hn
    rcases List.mem_append.1 hb with hb | hb
    · obtain ⟨n', hn', hstep⟩ := exists_next_of_isChain hchain hb
      cases hn.symm.trans hstep
      exact hnew n hn'
    · rw [List.mem_singleton.1 hb] at hn
      exact (hnext n hn).elim (hnew n) hkeep
  refine ⟨fun {b n p} hn hb => ?_, fun {b p} hb => ?_⟩
  · by_cases hbc : b ∈ chain ++ [cur]
    · rw [← hb, hnew b hbc]
      exact hfall b hbc n hn
    · rw [hold b hbc] at hb
      exact hkeep (h.shared hn hb)
  · by_cases hbc : b ∈ chain ++ [cur]
    · cases (hnew b hbc).symm.trans hb
      exact (leads_of_isChain hchain b hbc).trans hend
    · rw [hold b hbc] at hb
      exact h.leads hb

theorem Traced.adopt (h : own.Traced next) {chain : List Nat} {cur o : Nat}
    (hchain : (chain ++ [cur]).IsChain fun a n => next a = some n) (hfree : ∀ z ∈ chain, own.ownerOf z = none)
    (hcur : own.ownerOf cur = some o) : (own.adopt o chain).Traced next := by
  refine h.extend hchain ?_ (fun z hz => ?_) (fun b hb => ?_) (h.leads hcur) fun n hn => .inr (h.shared hn hcur)
  · intro z hz
    rcases List.mem_append.1 hz with hz | hz
    · exact .inl (hfree z hz)
    · exact .inr (List.mem_singleton.1 hz ▸ hcur)
  · rw [ownerOf_adopt]
    rcases List.mem_append.1 hz with hz | hz
    · simp [hfree z hz, hz]
    · simp [List.mem_singleton.1 hz, hcur]
  · have hbc : b ∉ chain := fun hbc => hb (List.mem_append_left _ hbc)
    simp [ownerOf_adopt, hbc]

/-- A chain at the end of which a slot is founded: it has come around, or control does not fall on. -/
theorem Traced.found (h : own.Traced next) {chain : List Nat} {cur : Nat}
    (hchain : (chain ++ [cur]).IsChain fun a n => next a = some n) (hfree : ∀ z ∈ chain, own.ownerOf z = none)
    (hcur : own.ownerOf cur = none) (hends : cur ∈ chain ∨ next cur = none) :
    ((own.found cur).adopt cur chain).Traced next := by
  have howner : ∀ b, ((own.found cur).adopt cur chain).ownerOf b =
      ((own.ownerOf b).or (if b = cur then some cur else none)).or (if b ∈ chain then some cur else none) := by
    intro b
    rw [ownerOf_adopt, found_eq_settle, ownerOf_settle]
  have hfree' : ∀ z ∈ chain ++ [cur], own.ownerOf z = none := by
    intro z hz
    rcases List.mem_append.1 hz with hz | hz
    · exact hfree z hz
    · exact List.mem_singleton.1 hz ▸ hcur
  refine h.extend hchain (fun z hz => .inl (hfree' z hz)) (fun z hz => ?_) (fun b hb => ?_) .refl fun n hn => ?_
  · rw [howner, hfree' z hz]
    rcases List.mem_append.1 hz with hz | hz
    · by_cases hzc : z = cur <;> simp [hz, hzc]
    · simp [List.mem_singleton.1 hz]
  · rw [List.mem_append, List.mem_singleton, not_or] at hb
    simp [howner, hb.1, hb.2]
  · rcases hends with hcycle | hnone
    · obtain ⟨n', hn', hstep⟩ := exists_next_of_isChain hchain hcycle
      cases hn.symm.trans hstep
      exact .inl hn'
    · rw [hnone] at hn
      cases hn

/-- **Following hollow blocks keeps owners that falling finds.** -/
theorem Traced.follow (h : own.Traced next) : ∀ (fuel : Nat) (chain : List Nat) (cur : Nat),
    (chain ++ [cur]).IsChain (fun a n => next a = some n) → (∀ z ∈ chain, own.ownerOf z = none) →
    (own.follow next fuel chain cur).Traced next
  | 0, _, _, _, _ => h
  | fuel + 1, chain, cur, hchain, hfree => by
    unfold Ownership.follow
    cases ho : own.ownerOf cur with
    | some o => exact h.adopt hchain hfree ho
    | none =>
      by_cases hcycle : cur ∈ chain
      · simp only [List.contains_eq_mem, hcycle, decide_true, if_true]
        exact h.found hchain hfree ho (.inl hcycle)
      · simp only [List.contains_eq_mem, hcycle, decide_false, Bool.false_eq_true, if_false]
        cases hn : next cur with
        | none => exact h.found hchain hfree ho (.inr hn)
        | some n =>
          refine h.follow fuel (chain ++ [cur]) n ?_ fun z hz => ?_
          · rw [List.append_assoc]
            exact List.isChain_split.2 ⟨hchain, List.isChain_pair.2 hn⟩
          · rcases List.mem_append.1 hz with hz | hz
            · exact hfree z hz
            · exact List.mem_singleton.1 hz ▸ ho

theorem aliasOf_eq_some_iff (own : Ownership) (z t : Nat) : own.aliasOf z = some t ↔ own.ownerOf z = some t ∧ z ≠ t := by
  rw [aliasOf, Option.filter_eq_some_iff, bne_iff_ne]
  exact and_congr_right' ne_comm

theorem nodup_aliasesOf (h : (own.entries.map (·.1)).Nodup) (t : Nat) : (own.aliasesOf t).Nodup :=
  h.sublist (List.filter_sublist.map _)

end Ownership

/-! ## Hollow blocks of an outline -/

theorem eq_singleton_iff_of_nodup {α : Type} {l : List α} (h : l.Nodup) (a : α) : l = [a] ↔ ∀ x, x ∈ l ↔ x = a := by
  constructor
  · rintro rfl x
    exact List.mem_singleton
  · intro hmem
    refine List.perm_singleton.1 ((List.perm_ext_iff_of_nodup h (List.nodup_singleton a)).2 fun x => ?_)
    rw [hmem, List.mem_singleton]

namespace Outline

/-- **Control falls from `b` into `n`**: `b` has no bytes, and of the blocks that control reaches exactly `n` follows it
through a normal edge. -/
def FallsInto (o : Outline) (sizes : Array Nat) (b n : Nat) : Prop :=
  o.Reaches b ∧ sizes[b]?.getD 0 = 0 ∧ ∀ s, (o.Steps b s ∧ o.isHandler s = false ∧ o.Reaches s) ↔ s = n

def Hollow (o : Outline) (sizes : Array Nat) (b : Nat) : Prop := ∃ n, o.FallsInto sizes b n

end Outline

namespace FlowGraph

variable {o : Outline} {g : FlowGraph}

theorem fallThrough_eq_some_iff (g : FlowGraph) (sizes : Array Nat) (b n : Nat) :
    g.fallThrough sizes b = some n ↔ sizes[b]?.getD 0 = 0 ∧ g.normalSuccs b = [n] := by
  unfold fallThrough
  split
  · rename_i hsize
    rw [beq_iff_eq] at hsize
    split
    · rename_i s hs
      simp [hsize, hs]
    · rename_i hs
      simp only [hsize, reduceCtorEq, true_and, false_iff]
      exact hs n
  · rename_i hsize
    rw [beq_iff_eq] at hsize
    simp [hsize]

theorem fallsInto_iff (ho : ofOutline o = .ok g) (sizes : Array Nat) (b n : Nat) :
    o.FallsInto sizes b n ↔ g.Reaches b ∧ g.fallThrough sizes b = some n := by
  rw [fallThrough_eq_some_iff, eq_singleton_iff_of_nodup (nodup_normalSuccs_ofOutline ho b), Outline.FallsInto,
    reaches_ofOutline ho]
  refine and_congr_right fun hb => and_congr_right' (forall_congr' fun s => ?_)
  -- what follows a block that control reaches is reached too
  have hreach : o.Steps b s ∧ o.isHandler s = false ∧ o.Reaches s ↔ s ∈ g.normalSuccs b := by
    rw [mem_normalSuccs_ofOutline ho]
    exact ⟨fun h => ⟨h.1, h.2.1⟩, fun h => ⟨h.1, h.2, hb.tail h.1⟩⟩
  rw [hreach]

theorem traced_ownership (g : FlowGraph) (sizes : Array Nat) : (g.ownership sizes).Traced (g.fallThrough sizes) := by
  unfold ownership
  refine List.foldlRecOn _ _ Ownership.traced_empty fun own hown b _ => ?_
  exact hown.follow (g.size + 1) [] b (List.isChain_singleton b) (by simp)

end FlowGraph

namespace Schedule

/-- **A schedule in which hollow blocks share the slots that they fall into**, and no others. -/
structure Aliased (o : Outline) (sizes : Array Nat) (s : Schedule) : Prop where
  owners : ∀ b, b ∈ s.order ↔ o.Reaches b ∧ s.alias? b = none
  /-- A block that is not hollow owns its slot. -/
  solid : ∀ b, o.Reaches b → ¬o.Hollow sizes b → b ∈ s.order
  /-- A hollow block owns its slot only where falling from it comes back to it. -/
  around : ∀ b ∈ s.order, o.Hollow sizes b → Relation.TransGen (o.FallsInto sizes) b b
  /-- Each cycle of hollow blocks has one owner. -/
  oneOwner : ∀ c rest, (c :: rest ++ [c]).IsChain (o.FallsInto sizes) → ∃! b, b ∈ c :: rest ∧ b ∈ s.order
  /-- Falling from an alias comes to the owner of its slot through aliases of that owner. -/
  falls : ∀ z t, s.alias? z = some t →
    ∃ passed, (z :: passed ++ [t]).IsChain (o.FallsInto sizes) ∧ ∀ y ∈ passed, s.alias? y = some t
  notAgain : ∀ z t, s.alias? z = some t → s.alias? t = none
  /-- The aliases of a block are listed, each once. -/
  listed : ∀ t, (s.aliasesOf t).Nodup ∧ ∀ z, z ∈ s.aliasesOf t ↔ s.alias? z = some t

section Of

variable {o : Outline} {g : FlowGraph} (ho : FlowGraph.ofOutline o = .ok g) {forest : LoopForest} (sizes : Array Nat)

include ho

theorem alias?_eq_some_iff (z t : Nat) :
    (byRuns g forest sizes).alias? z = some t ↔ (g.ownership sizes).ownerOf z = some t ∧ z ≠ t := by
  rw [alias?_of (FlowGraph.closed_ofOutline ho), Ownership.aliasOf_eq_some_iff]

theorem fallsInto_of_ownerOf {b n t : Nat} (hb : (g.ownership sizes).ownerOf b = some t)
    (hn : g.fallThrough sizes b = some n) : o.FallsInto sizes b n := by
  refine (FlowGraph.fallsInto_iff ho sizes b n).2 ⟨?_, hn⟩
  rw [← FlowGraph.ownerOf_isSome_iff (FlowGraph.closed_ofOutline ho) sizes, hb]
  rfl

theorem ownerOf_fallsInto {b n t : Nat} (h : o.FallsInto sizes b n) (hb : (g.ownership sizes).ownerOf b = some t) :
    (g.ownership sizes).ownerOf n = some t :=
  (g.traced_ownership sizes).shared ((FlowGraph.fallsInto_iff ho sizes b n).1 h).2 hb

/-- **Falling to an owner**: up to where it is met first, everything passed shares its slot. -/
theorem exists_passed {z t : Nat} (h : (g.ownership sizes).ownerOf z = some t) (hne : z ≠ t) :
    ∃ passed, (z :: passed ++ [t]).IsChain (o.FallsInto sizes) ∧
      ∀ y ∈ passed, (g.ownership sizes).ownerOf y = some t ∧ y ≠ t := by
  have hleads := (g.traced_ownership sizes).leads h
  induction hleads using Relation.ReflTransGen.head_induction_on with
  | refl => exact absurd rfl hne
  | @head z n hn _ ih =>
    have hfall := fallsInto_of_ownerOf ho sizes h hn
    have howner := ownerOf_fallsInto ho sizes hfall h
    by_cases hnt : n = t
    · subst hnt
      exact ⟨[], List.isChain_pair.2 hfall, by simp⟩
    · obtain ⟨passed, hchain, hpassed⟩ := ih howner hnt
      exact ⟨n :: passed, List.isChain_cons_cons.2 ⟨hfall, hchain⟩, List.forall_mem_cons.2 ⟨⟨howner, hnt⟩, hpassed⟩⟩

/-- **A hollow owner lies on a cycle**: the block it falls into has the same owner, and falling leads back. -/
theorem around_of_owner {b n : Nat} (hb : (g.ownership sizes).ownerOf b = some b) (hfall : o.FallsInto sizes b n) :
    Relation.TransGen (o.FallsInto sizes) b b := by
  have howner := ownerOf_fallsInto ho sizes hfall hb
  by_cases hnb : n = b
  · subst hnb
    exact .single hfall
  · obtain ⟨passed, hchain, -⟩ := exists_passed ho sizes howner hnb
    exact .head' hfall (leads_of_isChain hchain n (by simp))

theorem existsUnique_owner {c : Nat} {rest : List Nat} (hcycle : (c :: rest ++ [c]).IsChain (o.FallsInto sizes)) :
    ∃! b, b ∈ c :: rest ∧ b ∈ (byRuns g forest sizes).order := by
  have hg := FlowGraph.closed_ofOutline ho
  have hc : o.Reaches c := by
    obtain ⟨n, -, hfall⟩ := exists_next_of_isChain hcycle List.mem_cons_self
    exact hfall.1
  rw [← FlowGraph.reaches_ofOutline ho, ← FlowGraph.ownerOf_isSome_iff hg sizes, Option.isSome_iff_exists] at hc
  obtain ⟨t, ht⟩ := hc
  have howner : ∀ b ∈ c :: rest ++ [c], (g.ownership sizes).ownerOf b = some t :=
    hcycle.induction _ _ (fun _ _ hfall hb => ownerOf_fallsInto ho sizes hfall hb) fun _ => ht
  -- falling from the cycle stays on it, so the owner is on it
  have hmem : t ∈ c :: rest := by
    have hclosed : ∀ {b n}, b ∈ c :: rest → g.fallThrough sizes b = some n → n ∈ c :: rest := by
      intro b n hb hn
      obtain ⟨n', hn', hfall⟩ := exists_next_of_isChain hcycle hb
      cases hn.symm.trans ((FlowGraph.fallsInto_iff ho sizes b n').1 hfall).2
      rcases List.mem_append.1 hn' with hn' | hn'
      · exact hn'
      · exact List.mem_singleton.1 hn' ▸ List.mem_cons_self
    have hleads := (g.traced_ownership sizes).leads ht
    clear ht howner
    induction hleads with
    | refl => exact List.mem_cons_self
    | tail _ hn ih => exact hclosed ih hn
  have htt := (FlowGraph.settled_ownership hg sizes).owner c t ht
  refine ⟨t, ⟨hmem, (mem_order_of hg sizes t).2 htt⟩, fun b ⟨hb, horder⟩ => ?_⟩
  rw [mem_order_of hg] at horder
  exact Option.some.inj (horder.symm.trans (howner b (List.mem_append_left _ hb)))

theorem nodup_aliasesOf_of (t : Nat) : ((byRuns g forest sizes).aliasesOf t).Nodup := by
  have hset := FlowGraph.settled_ownership (FlowGraph.closed_ofOutline ho) sizes
  rw [aliasesOf, aliases_of, List.getElem?_map]
  cases (List.range g.size)[t]? with
  | none => exact List.nodup_nil
  | some b => exact Ownership.nodup_aliasesOf hset.nodup b

theorem aliased_of : Aliased o sizes (byRuns g forest sizes) := by
  have hg := FlowGraph.closed_ofOutline ho
  have hreach := FlowGraph.reaches_ofOutline ho
  refine ⟨fun b => (mem_order_iff hg sizes b).trans (and_congr_left' (hreach b)), fun b hb hsolid => ?_,
    fun b hb ⟨n, hfall⟩ => ?_, fun c rest => existsUnique_owner ho sizes, fun z t halias => ?_, fun z t halias => ?_,
    fun t => ⟨nodup_aliasesOf_of ho sizes t, fun z => mem_aliasesOf_of hg sizes t z⟩⟩
  · rw [mem_order_iff hg]
    refine ⟨(hreach b).2 hb, Option.eq_none_iff_forall_ne_some.2 fun t halias => hsolid ?_⟩
    obtain ⟨n, hn, -⟩ := falls_of hg sizes halias
    exact ⟨n, (FlowGraph.fallsInto_iff ho sizes b n).2 ⟨(hreach b).2 hb, hn⟩⟩
  · exact around_of_owner ho sizes ((mem_order_of hg sizes b).1 hb) hfall
  · obtain ⟨howner, hne⟩ := (alias?_eq_some_iff ho sizes z t).1 halias
    obtain ⟨passed, hchain, hpassed⟩ := exists_passed ho sizes howner hne
    exact ⟨passed, hchain, fun y hy => (alias?_eq_some_iff ho sizes y t).2 (hpassed y hy)⟩
  · exact ((mem_order_iff hg sizes t).1 (shared_of hg sizes halias).1).2

end Of

/-- **Aliasing is exact.**  Every outline whose entry and successors exist has a schedule in which exactly the hollow
blocks share slots, one block of each hollow cycle apart. -/
theorem aliasing_exact (o : Outline) (sizes : Array Nat) (h : o.InRange) :
    ∃ g s, FlowGraph.ofOutline o = .ok g ∧ Schedule.of g sizes = .ok s ∧ Aliased o sizes s := by
  obtain ⟨g, hg⟩ := FlowGraph.exists_ofOutline h
  obtain ⟨-, forest, -, -, -, -, hof⟩ := exists_of hg sizes
  exact ⟨g, _, hg, hof, aliased_of hg sizes⟩

/-- Block one falls into the cycle of blocks two and three; blocks four and five fall into block six, a solid one that
leads back to block five. -/
def hollowPaths : Outline :=
  ⟨0, [⟨[1, 4], false, false, false, []⟩, ⟨[2], false, false, false, []⟩, ⟨[3], false, false, false, []⟩,
    ⟨[2], false, false, false, []⟩, ⟨[5], false, false, false, []⟩, ⟨[6], false, false, false, []⟩,
    ⟨[5], false, false, false, []⟩]⟩

theorem aliasing_exact_hollowPaths : hollowPaths.InRange ∧ ∃ g s, FlowGraph.ofOutline hollowPaths = .ok g ∧
    Schedule.of g #[4, 0, 0, 0, 0, 0, 4] = .ok s ∧ Aliased hollowPaths #[4, 0, 0, 0, 0, 0, 4] s ∧
    s.aliasOf = [none, some 2, none, some 2, some 6, some 6, none] := by
  have h : hollowPaths.InRange := ⟨by decide, by decide⟩
  obtain ⟨g, s, hg, hs, haliased⟩ := aliasing_exact hollowPaths #[4, 0, 0, 0, 0, 0, 4] h
  have heval : (FlowGraph.ofOutline hollowPaths).toOption.map
      (fun g => (Schedule.of g #[4, 0, 0, 0, 0, 0, 4]).toOption.map Schedule.aliasOf) =
        some (some [none, some 2, none, some 2, some 6, some 6, none]) := by decide +kernel
  exact ⟨h, g, s, hg, hs, haliased, Outcome.eq_of_eval hs (Outcome.eq_of_eval hg heval)⟩

end Schedule

end CodeImage
