import Mathlib.Data.List.Perm.Subperm
import CodeImage.Schedule.Ownership
import CodeImage.Proofs.Flow.Walk
/-!
# Ownership — every reachable block has an owner

`Ownership.Settled` is what holds of an ownership at any time: a block has one owner, owners own themselves, and a
block that does not own its slot falls into a block of the same owner.  Following hollow blocks keeps it
(`Settled.follow`), so it holds of a graph's ownership, in which exactly the blocks that control reaches have owners
(`settled_ownership`, `ownerOf_isSome_iff`).
-/
namespace CodeImage

namespace Ownership

/-- **An ownership in order.** -/
structure Settled (next : Nat → Option Nat) (own : Ownership) : Prop where
  nodup : (own.entries.map (·.1)).Nodup
  owner : ∀ b o, own.ownerOf b = some o → own.ownerOf o = some o
  falls : ∀ b o, own.ownerOf b = some o → b ≠ o → ∃ n, next b = some n ∧ own.ownerOf n = some o

theorem settled_empty (next : Nat → Option Nat) : Settled next empty :=
  ⟨List.nodup_nil, fun _ _ h => by simp [ownerOf, empty] at h, fun _ _ h => by simp [ownerOf, empty] at h⟩

theorem ownerOf_eq_none_iff (own : Ownership) (b : Nat) : own.ownerOf b = none ↔ b ∉ own.entries.map (·.1) := by
  unfold ownerOf
  rw [List.lookup_eq_none_iff, List.mem_map]
  constructor
  · rintro h ⟨e, he, rfl⟩
    simpa using h e he
  · intro h e he
    simpa using fun heq => h ⟨e, he, heq.symm⟩

theorem mem_of_ownerOf {own : Ownership} {b o : Nat} (h : own.ownerOf b = some o) : (b, o) ∈ own.entries := by
  obtain ⟨l₁, l₂, heq, -⟩ := List.lookup_eq_some_iff.1 h
  rw [heq]
  exact List.mem_append_right _ List.mem_cons_self

theorem Settled.ownerOf_iff {next : Nat → Option Nat} {own : Ownership} (h : own.Settled next) (b o : Nat) :
    own.ownerOf b = some o ↔ (b, o) ∈ own.entries := by
  refine ⟨mem_of_ownerOf, fun hmem => ?_⟩
  cases hb : own.ownerOf b with
  | none => exact absurd (List.mem_map.2 ⟨(b, o), hmem, rfl⟩) ((ownerOf_eq_none_iff own b).1 hb)
  | some o' => rw [List.inj_on_of_nodup_map h.nodup (mem_of_ownerOf hb) hmem rfl |> Prod.mk.inj |>.2]

/-- One more entry. -/
def settle (own : Ownership) (z o : Nat) : Ownership := ⟨own.entries ++ [(z, o)]⟩

theorem ownerOf_settle (own : Ownership) (z o b : Nat) :
    (own.settle z o).ownerOf b = (own.ownerOf b).or (if b = z then some o else none) := by
  unfold settle ownerOf
  rw [List.lookup_append]
  by_cases hb : b = z
  · subst hb; simp
  · have : (b == z) = false := by simpa using hb
    simp [hb, List.lookup_cons, this]

theorem nodup_settle {own : Ownership} {z o : Nat} (hnd : (own.entries.map (·.1)).Nodup) (hz : own.ownerOf z = none) :
    ((own.settle z o).entries.map (·.1)).Nodup := by
  have hnew := (ownerOf_eq_none_iff own z).1 hz
  simp only [settle, List.map_append, List.map_cons, List.map_nil]
  rw [List.nodup_append]
  refine ⟨hnd, List.nodup_cons.2 ⟨List.not_mem_nil, List.nodup_nil⟩, fun a ha b hb heq => hnew ?_⟩
  rw [List.mem_singleton.1 hb] at heq
  exact heq ▸ ha

theorem found_eq_settle (own : Ownership) (b : Nat) : own.found b = own.settle b b := rfl

theorem adopt_cons (own : Ownership) (o z : Nat) (chain : List Nat) : own.adopt o (z :: chain) =
    (if (own.ownerOf z).isSome then own else own.settle z o).adopt o chain := rfl

/-- **Adoption gives the blocks of a chain that have no owner their new one.** -/
theorem ownerOf_adopt (o b : Nat) : ∀ (chain : List Nat) (own : Ownership),
    (own.adopt o chain).ownerOf b = (own.ownerOf b).or (if b ∈ chain then some o else none)
  | [], own => by simp [adopt]
  | z :: chain, own => by
    rw [adopt_cons, ownerOf_adopt o b chain]
    cases hz : own.ownerOf z with
    | some o' =>
      simp only [Option.isSome_some, if_true]
      by_cases hb : b = z
      · subst hb; simp [hz]
      · simp [hb]
    | none =>
      rw [if_neg (by simp), ownerOf_settle]
      by_cases hb : b = z
      · subst hb; simp [hz]
      · simp [hb]

theorem nodup_adopt (o : Nat) : ∀ (chain : List Nat) (own : Ownership), (own.entries.map (·.1)).Nodup →
    ((own.adopt o chain).entries.map (·.1)).Nodup
  | [], _, h => h
  | z :: chain, own, h => by
    rw [adopt_cons]
    cases hz : own.ownerOf z with
    | some o' => exact nodup_adopt o chain own h
    | none => exact nodup_adopt o chain _ (nodup_settle h hz)

theorem Settled.found {next : Nat → Option Nat} {own : Ownership} (h : own.Settled next) {c : Nat}
    (hc : own.ownerOf c = none) : (own.found c).Settled next := by
  rw [found_eq_settle]
  have hkeep : ∀ {b o}, own.ownerOf b = some o → (own.settle c c).ownerOf b = some o := by
    intro b o hb
    rw [ownerOf_settle, hb]; rfl
  have hold : ∀ {b o}, (own.settle c c).ownerOf b = some o → own.ownerOf b = some o ∨ (b = c ∧ o = c) := by
    intro b o hb
    rw [ownerOf_settle] at hb
    cases hob : own.ownerOf b with
    | some o' => rw [hob] at hb; exact .inl hb
    | none =>
      rw [hob] at hb
      by_cases hbc : b = c
      · simp [hbc] at hb; exact .inr ⟨hbc, hb.symm⟩
      · simp [hbc] at hb
  refine ⟨nodup_settle h.nodup hc, fun b o hb => ?_, fun b o hb hne => ?_⟩
  · rcases hold hb with hb | ⟨rfl, rfl⟩
    · exact hkeep (h.owner b o hb)
    · exact hb
  · rcases hold hb with hb | ⟨rfl, rfl⟩
    · obtain ⟨n, hn, ho⟩ := h.falls b o hb hne
      exact ⟨n, hn, hkeep ho⟩
    · exact absurd rfl hne

/-- **A chain of hollow blocks that leads to a block of owner `o` can share its slot.** -/
theorem Settled.adopt {next : Nat → Option Nat} {own : Ownership} (h : own.Settled next) {o cur : Nat}
    {chain : List Nat} (hcur : own.ownerOf cur = some o)
    (hlink : ∀ z ∈ chain, ∃ n, next z = some n ∧ (n ∈ chain ∨ n = cur))
    (hfree : ∀ z ∈ chain, own.ownerOf z = none ∨ own.ownerOf z = some o) : (own.adopt o chain).Settled next := by
  have hkeep : ∀ {b p}, own.ownerOf b = some p → (own.adopt o chain).ownerOf b = some p := by
    intro b p hb
    rw [ownerOf_adopt, hb]; rfl
  have hchain : ∀ z ∈ chain, (own.adopt o chain).ownerOf z = some o := by
    intro z hz
    rw [ownerOf_adopt, if_pos hz]
    rcases hfree z hz with h | h <;> rw [h] <;> rfl
  have hold : ∀ {b p}, (own.adopt o chain).ownerOf b = some p → own.ownerOf b = some p ∨ (b ∈ chain ∧ p = o) := by
    intro b p hb
    by_cases hbc : b ∈ chain
    · rw [hchain b hbc] at hb
      exact .inr ⟨hbc, (Option.some.inj hb).symm⟩
    · rw [ownerOf_adopt, if_neg hbc, Option.or_none] at hb
      exact .inl hb
  refine ⟨nodup_adopt o chain own h.nodup, fun b p hb => ?_, fun b p hb hne => ?_⟩
  · rcases hold hb with hb | ⟨-, rfl⟩
    · exact hkeep (h.owner b p hb)
    · exact hkeep (h.owner cur p hcur)
  · rcases hold hb with hb | ⟨hbc, rfl⟩
    · obtain ⟨n, hn, ho⟩ := h.falls b p hb hne
      exact ⟨n, hn, hkeep ho⟩
    · obtain ⟨n, hn, hnc⟩ := hlink b hbc
      rcases hnc with hnc | rfl
      · exact ⟨n, hn, hchain n hnc⟩
      · exact ⟨n, hn, hkeep hcur⟩

/-- **What following hollow blocks settles**: the ownership stays in order, keeps what it had and gives owners to the
blocks followed and to no block outside `R`. -/
structure Follows (next : Nat → Option Nat) (R : Nat → Prop) (own own' : Ownership) (blocks : List Nat) : Prop where
  settled : own'.Settled next
  keeps : ∀ b o, own.ownerOf b = some o → own'.ownerOf b = some o
  owned : ∀ b ∈ blocks, (own'.ownerOf b).isSome = true
  within : ∀ b, (own'.ownerOf b).isSome = true → R b

/-- A chain that ends at a block which owns a slot, or is given one. -/
theorem Settled.follows_adopt {next : Nat → Option Nat} {R : Nat → Prop} {own own₁ : Ownership} {o cur : Nat}
    {chain : List Nat} (h : own₁.Settled next) (hcur : own₁.ownerOf cur = some o)
    (hlink : ∀ z ∈ chain, ∃ n, next z = some n ∧ (n ∈ chain ∨ n = cur))
    (hfree : ∀ z ∈ chain, own₁.ownerOf z = none ∨ own₁.ownerOf z = some o)
    (hkeep : ∀ b p, own.ownerOf b = some p → own₁.ownerOf b = some p)
    (hR : ∀ b, (own₁.ownerOf b).isSome = true → R b) (hRc : ∀ z ∈ chain, R z) :
    Follows next R own (own₁.adopt o chain) (chain ++ [cur]) := by
  refine ⟨h.adopt hcur hlink hfree, fun b p hb => ?_, fun b hb => ?_, fun b hb => ?_⟩
  · rw [ownerOf_adopt, hkeep b p hb]; rfl
  · rw [ownerOf_adopt]
    rcases List.mem_append.1 hb with hb | hb
    · rw [if_pos hb]; cases own₁.ownerOf b <;> rfl
    · rw [List.mem_singleton.1 hb, hcur]; rfl
  · rw [ownerOf_adopt] at hb
    by_cases hbc : b ∈ chain
    · exact hRc b hbc
    · rw [if_neg hbc, Option.or_none] at hb
      exact hR b hb

/-- A chain that ends at a block which has no owner yet, and founds a slot. -/
theorem Settled.follows_found {next : Nat → Option Nat} {R : Nat → Prop} {own : Ownership} {cur : Nat}
    {chain : List Nat} (h : own.Settled next) (ho : own.ownerOf cur = none)
    (hR : ∀ b, (own.ownerOf b).isSome = true → R b) (hRc : ∀ z ∈ chain, R z) (hcur : R cur)
    (hfree : ∀ z ∈ chain, own.ownerOf z = none)
    (hlink : ∀ z ∈ chain, ∃ n, next z = some n ∧ (n ∈ chain ∨ n = cur)) :
    Follows next R own ((own.found cur).adopt cur chain) (chain ++ [cur]) := by
  have hnew : (own.found cur).ownerOf cur = some cur := by
    rw [found_eq_settle, ownerOf_settle, ho, if_pos rfl]; rfl
  have hsame : ∀ b, b ≠ cur → (own.found cur).ownerOf b = own.ownerOf b := by
    intro b hb
    rw [found_eq_settle, ownerOf_settle, if_neg hb, Option.or_none]
  have hkeep : ∀ b p, own.ownerOf b = some p → (own.found cur).ownerOf b = some p := by
    intro b p hb
    rw [hsame b (fun heq => by rw [heq, ho] at hb; cases hb), hb]
  refine (h.found ho).follows_adopt hnew hlink (fun z hz => ?_) hkeep (fun b hb => ?_) hRc
  · by_cases hzc : z = cur
    · exact .inr (hzc ▸ hnew)
    · exact .inl (by rw [hsame z hzc]; exact hfree z hz)
  · by_cases hbc : b = cur
    · exact hbc ▸ hcur
    · rw [hsame b hbc] at hb
      exact hR b hb

/-- **Following hollow blocks settles them.**  The chain passed so far has no block twice, so the fuel outlasts it. -/
theorem Settled.follow {next : Nat → Option Nat} {R : Nat → Prop} {size : Nat} (hlt : ∀ b, R b → b < size)
    (hnext : ∀ b n, R b → next b = some n → R n) {own : Ownership} (h : own.Settled next)
    (hR : ∀ b, (own.ownerOf b).isSome = true → R b) : ∀ (fuel : Nat) (chain : List Nat) (cur : Nat),
    size < chain.length + fuel → chain.Nodup → (∀ z ∈ chain, R z) → R cur → (∀ z ∈ chain, own.ownerOf z = none) →
    (∀ z ∈ chain, ∃ n, next z = some n ∧ (n ∈ chain ∨ n = cur)) →
      Follows next R own (own.follow next fuel chain cur) (chain ++ [cur])
  | 0, chain, cur, hf, hnd, hRc, _, _, _ => by
    have hsub : chain ⊆ List.range size := fun z hz => List.mem_range.2 (hlt z (hRc z hz))
    have := (List.subperm_of_subset hnd hsub).length_le
    rw [List.length_range] at this
    omega
  | fuel + 1, chain, cur, hf, hnd, hRc, hcur, hfree, hlink => by
    unfold Ownership.follow
    split
    · rename_i o ho
      exact h.follows_adopt ho hlink (fun z hz => .inl (hfree z hz)) (fun _ _ hb => hb) hR hRc
    · rename_i ho
      -- a chain ends at `cur` where it closes a cycle, and where control does not fall through
      have hfound := h.follows_found ho hR hRc hcur hfree hlink
      split
      · exact hfound
      · rename_i hnot
        split
        · rename_i n hn
          have hnot : cur ∉ chain := by simpa using hnot
          have hall : ∀ {P : Nat → Prop}, (∀ z ∈ chain, P z) → P cur → ∀ z ∈ chain ++ [cur], P z := by
            intro P hc hp z hz
            rcases List.mem_append.1 hz with hz | hz
            · exact hc z hz
            · rw [List.mem_singleton.1 hz]; exact hp
          have hrec := Settled.follow hlt hnext h hR fuel (chain ++ [cur]) n
            (by rw [List.length_append, List.length_singleton]; omega)
            (hnd.append (List.nodup_cons.2 ⟨List.not_mem_nil, List.nodup_nil⟩)
              (fun z hz hz' => hnot (List.mem_singleton.1 hz' ▸ hz)))
            (hall hRc hcur) (hnext cur n hcur hn) (hall hfree ho)
            (hall (fun z hz => by
              obtain ⟨m, hm, hmc⟩ := hlink z hz
              refine ⟨m, hm, .inl ?_⟩
              rcases hmc with hmc | rfl
              · exact List.mem_append_left _ hmc
              · exact List.mem_append_right _ List.mem_cons_self) ⟨n, hn, .inr rfl⟩)
          exact ⟨hrec.settled, hrec.keeps, fun b hb => hrec.owned b (List.mem_append_left _ hb), hrec.within⟩
        · exact hfound

/-! ## Owners and those who share -/

section Settled

variable {next : Nat → Option Nat} {own : Ownership}

theorem mem_owners (h : own.Settled next) (o : Nat) : o ∈ own.owners ↔ own.ownerOf o = some o := by
  rw [h.ownerOf_iff]
  unfold owners
  constructor
  · intro ho
    obtain ⟨⟨b, p⟩, he, rfl⟩ := List.mem_map.1 ho
    obtain ⟨he, heq⟩ := List.mem_filter.1 he
    have : b = p := by simpa using heq
    exact this ▸ he
  · intro ho
    exact List.mem_map.2 ⟨(o, o), List.mem_filter.2 ⟨ho, by simp⟩, rfl⟩

theorem nodup_owners (h : own.Settled next) : own.owners.Nodup :=
  h.nodup.sublist (List.filter_sublist.map _)

theorem mem_aliasesOf (h : own.Settled next) (b z : Nat) : z ∈ own.aliasesOf b ↔ own.aliasOf z = some b := by
  unfold aliasesOf aliasOf
  rw [Option.filter_eq_some_iff, h.ownerOf_iff]
  constructor
  · intro hz
    obtain ⟨⟨z', b'⟩, hmem, rfl⟩ := List.mem_map.1 hz
    obtain ⟨he, hcond⟩ := List.mem_filter.1 hmem
    simp only [Bool.and_eq_true, beq_iff_eq, bne_iff_ne] at hcond
    obtain ⟨rfl, hne⟩ := hcond
    exact ⟨he, by simpa using Ne.symm hne⟩
  · rintro ⟨he, hne⟩
    have hne : b ≠ z := by simpa using hne
    exact List.mem_map.2 ⟨(z, b), List.mem_filter.2 ⟨he, by simp [Ne.symm hne]⟩, rfl⟩

/-- The blocks of a slot are those that its owner owns. -/
theorem mem_cons_aliasesOf (h : own.Settled next) {o : Nat} (ho : own.ownerOf o = some o) (b : Nat) :
    b ∈ o :: own.aliasesOf o ↔ own.ownerOf b = some o := by
  rw [List.mem_cons, mem_aliasesOf h, aliasOf, Option.filter_eq_some_iff, bne_iff_ne]
  constructor
  · rintro (rfl | hb)
    · exact ho
    · exact hb.1
  · intro hb
    by_cases hbo : b = o
    · exact .inl hbo
    · exact .inr ⟨hb, Ne.symm hbo⟩

/-- Only owners have a slot that others share. -/
theorem aliasesOf_eq_nil (h : own.Settled next) {b : Nat} (hb : b ∉ own.owners) : own.aliasesOf b = [] := by
  refine List.eq_nil_iff_forall_not_mem.2 fun z hz => hb ?_
  have halias := (mem_aliasesOf h b z).1 hz
  exact (mem_owners h b).2 (h.owner z b (Option.filter_eq_some_iff.1 halias).1)

end Settled

end Ownership

namespace FlowGraph

open Ownership (Settled Follows)

theorem mem_succs_of_fallThrough {g : FlowGraph} {sizes : Array Nat} {b n : Nat}
    (h : g.fallThrough sizes b = some n) : n ∈ g.succs b := by
  unfold fallThrough at h
  split at h
  · split at h
    · rename_i s hs
      cases h
      exact mem_succs_of_mem_normalSuccs (hs ▸ List.mem_cons_self)
    · cases h
  · cases h

theorem reaches_of_mem_slotRequests {g : FlowGraph} (hg : g.Closed) {b : Nat} (h : b ∈ g.slotRequests) :
    g.Reaches b := by
  obtain ⟨a, ha, hb⟩ := List.mem_flatMap.1 h
  have hra := (mem_order hg a).1 ha
  rcases List.mem_cons.1 hb with rfl | hb
  · exact hra
  · exact hra.step (mem_succs_of_mem_normalSuccs hb)

theorem follows_requests {g : FlowGraph} (hg : g.Closed) (sizes : Array Nat) : ∀ (l : List Nat) (own : Ownership),
    (∀ b ∈ l, g.Reaches b) → own.Settled (g.fallThrough sizes) → (∀ b, (own.ownerOf b).isSome = true → g.Reaches b) →
    Follows (g.fallThrough sizes) g.Reaches own
      (l.foldl (fun own b => own.follow (g.fallThrough sizes) (g.size + 1) [] b) own) l
  | [], own, _, h, hR => ⟨h, fun _ _ hb => hb, fun _ hb => absurd hb List.not_mem_nil, hR⟩
  | b :: l, own, hl, h, hR => by
    have h₁ := h.follow (fun _ => hg.lt_of_reaches) (fun a n ha hn => ha.step (mem_succs_of_fallThrough hn)) hR
      (g.size + 1) [] b (by simp) List.nodup_nil (fun _ hz => absurd hz List.not_mem_nil) (hl b List.mem_cons_self)
      (fun _ hz => absurd hz List.not_mem_nil) (fun _ hz => absurd hz List.not_mem_nil)
    have h₂ := follows_requests hg sizes l _ (fun a ha => hl a (List.mem_cons_of_mem _ ha)) h₁.settled h₁.within
    rw [List.foldl_cons]
    refine ⟨h₂.settled, fun a o ha => h₂.keeps a o (h₁.keeps a o ha), fun a ha => ?_, h₂.within⟩
    rcases List.mem_cons.1 ha with rfl | ha
    · obtain ⟨o, ho⟩ := Option.isSome_iff_exists.1 (h₁.owned a List.mem_cons_self)
      rw [h₂.keeps a o ho]; rfl
    · exact h₂.owned a ha

theorem follows_ownership {g : FlowGraph} (hg : g.Closed) (sizes : Array Nat) :
    Follows (g.fallThrough sizes) g.Reaches Ownership.empty (g.ownership sizes) g.slotRequests :=
  follows_requests hg sizes g.slotRequests Ownership.empty (fun _ => reaches_of_mem_slotRequests hg)
    (Ownership.settled_empty _) (fun b hb => by simp [Ownership.ownerOf, Ownership.empty] at hb)

theorem settled_ownership {g : FlowGraph} (hg : g.Closed) (sizes : Array Nat) :
    (g.ownership sizes).Settled (g.fallThrough sizes) := (follows_ownership hg sizes).settled

/-- **Exactly the blocks that control reaches have owners.** -/
theorem ownerOf_isSome_iff {g : FlowGraph} (hg : g.Closed) (sizes : Array Nat) (b : Nat) :
    ((g.ownership sizes).ownerOf b).isSome = true ↔ g.Reaches b := by
  refine ⟨(follows_ownership hg sizes).within b, fun h => (follows_ownership hg sizes).owned b ?_⟩
  exact List.mem_flatMap.2 ⟨b, (mem_order hg b).2 h, List.mem_cons_self⟩

end FlowGraph

end CodeImage
