import Mathlib.Logic.Relation
import Mathlib.Data.List.Nodup
import CodeImage.Schedule.Forest
import CodeImage.Proofs.Schedule.Runs
/-!
# Forest — what slots are made of, and who is at the top

`Grown` is what holds of the slots at any time: the atomic slots stand first, every other slot is the compound of two older
ones (`Made`), and a slot has a parent exactly when it is part of a compound.  So facts about a slot go by induction over
what it is made of (`Grown.induct`): its atomic slots lie in it, the outermost ones are its first and last, and all are
equally cold.  The shortcuts stay on the way up (`Leads`); hence looking for the top of a slot finds the root of its parents
and keeps the shortcuts so (`tells_top`).  Whenever two slots fit, their compound leaves all this as it was, and the slots at
the top together still hold every atomic slot once (`Standing.compound`).
-/
namespace CodeImage

namespace SlotForest

/-- The run of blocks that a slot stands for. -/
def row (f : SlotForest) (s : Nat) : Run := match (f.enumerate s).map f.blockOf with
  | b :: blocks => ⟨b, blocks⟩
  | [] => .single s

/-- The runs of all slots at the top. -/
def rows (f : SlotForest) : List Run := f.tops.map f.row

/-- Slot `p` is the parent of slot `s`. -/
def IsParent (slots : Array Slot) (s p : Nat) : Prop := ∃ x, slots[s]? = some x ∧ x.parent = some p

/-- Slot `t` is slot `s`, or one of its parents' line. -/
abbrev Within (slots : Array Slot) : Nat → Nat → Prop := Relation.ReflTransGen (IsParent slots)

/-- **A slot without a parent.** -/
def AtTop (slots : Array Slot) (t : Nat) : Prop := ∃ x, slots[t]? = some x ∧ x.parent = none

/-- **The root of the parents of a slot.** -/
structure Root (slots : Array Slot) (s r : Nat) : Prop where
  within : Within slots s r
  atTop : AtTop slots r

/-- **A compound of two older slots**, whose parent it is. -/
structure Made (slots : Array Slot) (c : Nat) (x : Slot) (a : Nat) (xa : Slot) (b : Nat) (xb : Slot) : Prop where
  left : slots[a]? = some xa
  right : slots[b]? = some xb
  left_lt : a < c
  right_lt : b < c
  left_parent : xa.parent = some c
  right_parent : xb.parent = some c
  eq : x = ⟨.compound a b, max xa.weight xb.weight, x.parent, xa.first, xb.last, xa.cold⟩
  cold : xa.cold = xb.cold

/-- **Slots as they grow**: one atomic slot for each owner, and compounds of older slots. -/
structure Grown (g : SlotGraph) (slots : Array Slot) : Prop where
  atom : ∀ {i b : Nat}, g.owners[i]? = some b → ∃ parent, slots[i]? = some { g.atom i b with parent }
  made : ∀ {c : Nat} {x : Slot}, slots[c]? = some x → g.owners.length ≤ c → ∃ a xa b xb, Made slots c x a xa b xb
  parent : ∀ {s p : Nat}, IsParent slots s p → ∃ y a xa b xb, slots[p]? = some y ∧ Made slots p y a xa b xb ∧ (s = a ∨ s = b)

section Grown

variable {g : SlotGraph} {slots : Array Slot}

/-- **Induction over what a slot is made of.** -/
theorem Grown.induct (h : Grown g slots) {P : Nat → Slot → Prop}
    (atom : ∀ i b x, g.owners[i]? = some b → slots[i]? = some x → x = { g.atom i b with parent := x.parent } → P i x)
    (made : ∀ c x a xa b xb, slots[c]? = some x → Made slots c x a xa b xb → P a xa → P b xb → P c x) :
    ∀ {s : Nat} {x : Slot}, slots[s]? = some x → P s x := by
  intro s
  induction s using Nat.strongRecOn with
  | ind s ih =>
    intro x hx
    by_cases hs : s < g.owners.length
    · obtain ⟨parent, hatom⟩ := h.atom (List.getElem?_eq_getElem hs)
      cases hx.symm.trans hatom
      exact atom s _ _ (List.getElem?_eq_getElem hs) hatom rfl
    · obtain ⟨a, xa, b, xb, hmade⟩ := h.made hx (Nat.le_of_not_lt hs)
      exact made s x a xa b xb hx hmade (ih a hmade.left_lt hmade.left) (ih b hmade.right_lt hmade.right)

theorem Grown.lt_of_isParent (h : Grown g slots) {s p : Nat} (hp : IsParent slots s p) : s < p ∧ p < slots.size := by
  obtain ⟨y, a, xa, b, xb, hy, hmade, rfl | rfl⟩ := h.parent hp
  · exact ⟨hmade.left_lt, (Array.getElem?_eq_some_iff.1 hy).1⟩
  · exact ⟨hmade.right_lt, (Array.getElem?_eq_some_iff.1 hy).1⟩

theorem Grown.le_of_within (h : Grown g slots) {s t : Nat} (hw : Within slots s t) : s ≤ t := by
  induction hw with
  | refl => exact Nat.le_refl _
  | tail _ hp ih => exact Nat.le_trans ih (Nat.le_of_lt (h.lt_of_isParent hp).1)

theorem Grown.lt_of_within (h : Grown g slots) {s t : Nat} (hs : s < slots.size) (hw : Within slots s t) : t < slots.size := by
  induction hw with
  | refl => exact hs
  | tail _ hp _ => exact (h.lt_of_isParent hp).2

theorem AtTop.eq_of_within {t u : Nat} (h : AtTop slots t) (hw : Within slots t u) : u = t := by
  rcases hw.cases_head with heq | ⟨p, ⟨x, hx, hp⟩, -⟩
  · exact heq.symm
  · obtain ⟨y, hy, hnone⟩ := h
    cases hx.symm.trans hy
    rw [hnone] at hp
    cases hp

theorem within_total {s t u : Nat} (ht : Within slots s t) (hu : Within slots s u) : Within slots t u ∨ Within slots u t := by
  refine Relation.ReflTransGen.total_of_right_unique ?_ ht hu
  rintro s p q ⟨x, hx, hp⟩ ⟨y, hy, hq⟩
  cases hx.symm.trans hy
  exact Option.some.inj (hp.symm.trans hq)

/-- Whatever lies over a slot has its root. -/
theorem Root.of_within {s t r : Nat} (h : Root slots s r) (hw : Within slots s t) : Root slots t r := by
  refine ⟨?_, h.atTop⟩
  rcases within_total hw h.within with hw | hw
  · exact hw
  · rw [h.atTop.eq_of_within hw]

theorem Root.unique {s r q : Nat} (h : Root slots s r) (h' : Root slots s q) : r = q :=
  h'.atTop.eq_of_within (h.of_within h'.within).within

theorem Grown.exists_root (h : Grown g slots) {s : Nat} (hs : s < slots.size) : ∃ r, Root slots s r := by
  induction hk : slots.size - s using Nat.strongRecOn generalizing s with
  | ind k ih =>
    cases hp : (slots[s]).parent with
    | none => exact ⟨s, .refl, _, Array.getElem?_eq_getElem hs, hp⟩
    | some p =>
      have hparent : IsParent slots s p := ⟨_, Array.getElem?_eq_getElem hs, hp⟩
      obtain ⟨hlt, hsize⟩ := h.lt_of_isParent hparent
      obtain ⟨r, hr⟩ := ih (slots.size - p) (by omega) hsize rfl
      exact ⟨r, hr.within.head hparent, hr.atTop⟩

end Grown

/-! ## Shortcuts -/

/-- **The shortcuts stay on the way up**, and only a slot at the top leads to itself. -/
structure Leads (slots : Array Slot) (leaders : Leaders) : Prop where
  size : leaders.size = slots.size
  within : ∀ {s l : Nat}, leaders[s]? = some l → Within slots s l
  atTop : ∀ {s : Nat}, leaders[s]? = some s → AtTop slots s

/-- **What a search answers** and that it keeps the shortcuts in order. -/
def Tells {α : Type} (slots : Array Slot) (m : StateM Leaders α) (P : α → Prop) : Prop :=
  ∀ leaders, Leads slots leaders → P (m.run leaders).1 ∧ Leads slots (m.run leaders).2

section Tells

variable {α β : Type} {slots : Array Slot} {m : StateM Leaders α} {P Q : α → Prop}

theorem tells_pure {a : α} (h : P a) : Tells slots (pure a : StateM Leaders α) P := fun _ hl => ⟨h, hl⟩

theorem Tells.bind {k : α → StateM Leaders β} {R : β → Prop} (h : Tells slots m P) (hk : ∀ a, P a → Tells slots (k a) R) :
    Tells slots (m >>= k) R := by
  intro leaders hl
  obtain ⟨hp, hl⟩ := h leaders hl
  exact hk _ hp _ hl

theorem Tells.mono (h : Tells slots m P) (hpq : ∀ a, P a → Q a) : Tells slots m Q :=
  fun leaders hl => ⟨hpq _ (h leaders hl).1, (h leaders hl).2⟩

end Tells

section Leads

variable {g : SlotGraph} {slots : Array Slot} {leaders : Leaders}

theorem Leads.climb (h : Leads slots leaders) (hg : Grown g slots) : ∀ (fuel : Nat) {s : Nat}, s < slots.size →
    slots.size ≤ s + fuel → Root slots s (leaders.climb fuel s)
  | 0, s, hs, hfuel => by omega
  | fuel + 1, s, hs, hfuel => by
    have hlt : s < leaders.size := h.size ▸ hs
    have hget : leaders[s]? = some leaders[s] := Array.getElem?_eq_getElem hlt
    have hwithin := h.within hget
    unfold Leaders.climb
    rw [hget]
    simp only [beq_iff_eq]
    split
    · rename_i heq
      exact ⟨.refl, h.atTop (hget.trans (congrArg some heq))⟩
    · rename_i hne
      have hle := hg.le_of_within hwithin
      have hroot := Leads.climb h hg fuel (hg.lt_of_within hs hwithin) (by omega)
      exact ⟨hwithin.trans hroot.within, hroot.atTop⟩

theorem Leads.setIfInBounds (h : Leads slots leaders) {s r : Nat} (hw : Within slots s r) (hne : s ≠ r) :
    Leads slots (leaders.setIfInBounds s r) := by
  refine ⟨by rw [Array.size_setIfInBounds, h.size], fun {u l} hl => ?_, fun {u} hl => ?_⟩
  · rw [Array.getElem?_setIfInBounds] at hl
    split at hl
    · rename_i heq
      split at hl
      · cases hl
        exact heq ▸ hw
      · cases hl
    · exact h.within hl
  · rw [Array.getElem?_setIfInBounds] at hl
    split at hl
    · rename_i heq
      split at hl
      · exact absurd (heq.trans (Option.some.inj hl).symm) hne
      · cases hl
    · exact h.atTop hl

theorem Leads.compress {r : Nat} : ∀ (fuel : Nat) {s : Nat} {leaders : Leaders}, Leads slots leaders → Root slots s r →
    Leads slots (Leaders.compress r fuel s leaders)
  | 0, _, _, h, _ => h
  | fuel + 1, s, leaders, h, hr => by
    unfold Leaders.compress
    split
    · exact h
    · rename_i hne
      split
      · rename_i next hnext
        exact Leads.compress fuel (h.setIfInBounds hr.within (by simpa using hne)) (hr.of_within (h.within hnext))
      · exact h

/-- **Looking for the top of a slot finds the root of its parents.** -/
theorem tells_top (hg : Grown g slots) {s : Nat} (hs : s < slots.size) : Tells slots (Leaders.top s) (Root slots s) := by
  intro leaders h
  have hroot := h.climb hg leaders.size hs (by rw [h.size]; omega)
  exact ⟨hroot, h.compress _ hroot⟩

end Leads

/-! ## What a slot holds -/

section Enumerate

variable {g : SlotGraph} {f : SlotForest}

theorem unroll_eq (hg : Grown g f.slots) {s : Nat} {x : Slot} (hx : f.slots[s]? = some x) :
    ∀ fuel, s < fuel → unroll f.slots fuel s = f.enumerate s := by
  refine hg.induct (P := fun s _ => ∀ fuel, s < fuel → unroll f.slots fuel s = f.enumerate s) ?_ ?_ hx
  · intro i b x _ hx heq fuel hfuel
    obtain ⟨k, rfl⟩ : ∃ k, fuel = k + 1 := ⟨fuel - 1, by omega⟩
    have hkind : x.kind = .atomic b := by rw [heq]; rfl
    simp [enumerate, unroll, hx, hkind]
  · intro c x a xa b xb hx hmade iha ihb fuel hfuel
    obtain ⟨k, rfl⟩ : ∃ k, fuel = k + 1 := ⟨fuel - 1, by omega⟩
    have hkind : x.kind = .compound a b := by rw [hmade.eq]
    have ha := hmade.left_lt
    have hb := hmade.right_lt
    simp only [enumerate, unroll, hx, hkind, Option.map_some]
    rw [iha k (by omega), ihb k (by omega), iha c ha, ihb c hb]

theorem enumerate_atom (hg : Grown g f.slots) {i : Nat} (hi : i < g.owners.length) : f.enumerate i = [i] := by
  obtain ⟨parent, hx⟩ := hg.atom (List.getElem?_eq_getElem hi)
  simp [enumerate, unroll, hx, SlotGraph.atom]

theorem enumerate_made (hg : Grown g f.slots) {c : Nat} {x : Slot} {a : Nat} {xa : Slot} {b : Nat} {xb : Slot}
    (hx : f.slots[c]? = some x) (h : Made f.slots c x a xa b xb) : f.enumerate c = f.enumerate a ++ f.enumerate b := by
  have hkind : x.kind = .compound a b := by rw [h.eq]
  rw [← unroll_eq hg h.left c h.left_lt, ← unroll_eq hg h.right c h.right_lt]
  simp [enumerate, unroll, hx, hkind]

/-- **The outermost atomic slots of a slot are its first and its last.** -/
theorem ends_enumerate (hg : Grown g f.slots) {s : Nat} {x : Slot} (hx : f.slots[s]? = some x) :
    (f.enumerate s).head? = some x.first ∧ (f.enumerate s).getLast? = some x.last := by
  refine hg.induct (P := fun s x => (f.enumerate s).head? = some x.first ∧ (f.enumerate s).getLast? = some x.last) ?_ ?_ hx
  · intro i b x hi _ heq
    rw [enumerate_atom hg (List.getElem?_eq_some_iff.1 hi).1, heq]
    exact ⟨rfl, rfl⟩
  · intro c x a xa b xb hx hmade iha ihb
    rw [enumerate_made hg hx hmade, List.head?_append, List.getLast?_append, iha.1, ihb.2, hmade.eq]
    exact ⟨rfl, rfl⟩

theorem lt_of_mem_enumerate (hg : Grown g f.slots) {s : Nat} {x : Slot} (hx : f.slots[s]? = some x) {i : Nat}
    (hi : i ∈ f.enumerate s) : i < g.owners.length := by
  revert hi
  refine hg.induct (P := fun s _ => i ∈ f.enumerate s → i < g.owners.length) ?_ ?_ hx
  · intro j b x hj _ _ hi
    have hlt := (List.getElem?_eq_some_iff.1 hj).1
    rw [enumerate_atom hg hlt] at hi
    exact List.mem_singleton.1 hi ▸ hlt
  · intro c x a xa b xb hx hmade iha ihb hi
    rw [enumerate_made hg hx hmade] at hi
    exact (List.mem_append.1 hi).elim iha ihb

theorem isCold_atom (hg : Grown g f.slots) {i b : Nat} (hi : g.owners[i]? = some b) : f.isCold i = g.isCold b := by
  obtain ⟨parent, hx⟩ := hg.atom hi
  simp [isCold, hx, SlotGraph.atom]

theorem blockOf_atom (hg : Grown g f.slots) {i b : Nat} (hi : g.owners[i]? = some b) : f.blockOf i = b := by
  obtain ⟨parent, hx⟩ := hg.atom hi
  simp [blockOf, hx, SlotGraph.atom]

/-- **The atomic slots of a slot are equally cold.** -/
theorem isCold_of_mem_enumerate (hg : Grown g f.slots) {s : Nat} {x : Slot} (hx : f.slots[s]? = some x) {i : Nat}
    (hi : i ∈ f.enumerate s) : f.isCold i = f.isCold s := by
  have hcold : ∀ {s x}, f.slots[s]? = some x → f.isCold s = x.cold := fun hx => by simp [isCold, hx]
  rw [hcold hx]
  revert hi
  refine hg.induct (P := fun s x => i ∈ f.enumerate s → f.isCold i = x.cold) ?_ ?_ hx
  · intro j b x hj hx _ hi
    rw [enumerate_atom hg (List.getElem?_eq_some_iff.1 hj).1] at hi
    rw [List.mem_singleton.1 hi, hcold hx]
  · intro c x a xa b xb hx hmade iha ihb hi
    have heq : x.cold = xa.cold := by rw [hmade.eq]
    rw [enumerate_made hg hx hmade] at hi
    rw [heq]
    exact (List.mem_append.1 hi).elim iha fun hi => (ihb hi).trans hmade.cold.symm

theorem within_of_mem_enumerate (hg : Grown g f.slots) {s : Nat} {x : Slot} (hx : f.slots[s]? = some x) {i : Nat}
    (hi : i ∈ f.enumerate s) : Within f.slots i s := by
  revert hi
  refine hg.induct (P := fun s _ => i ∈ f.enumerate s → Within f.slots i s) ?_ ?_ hx
  · intro j b x hj _ _ hi
    rw [enumerate_atom hg (List.getElem?_eq_some_iff.1 hj).1] at hi
    rw [List.mem_singleton.1 hi]
  · intro c x a xa b xb hx hmade iha ihb hi
    rw [enumerate_made hg hx hmade] at hi
    rcases List.mem_append.1 hi with hi | hi
    · exact (iha hi).tail ⟨xa, hmade.left, hmade.left_parent⟩
    · exact (ihb hi).tail ⟨xb, hmade.right, hmade.right_parent⟩

theorem mem_enumerate_of_within (hg : Grown g f.slots) {i s : Nat} (hi : i < g.owners.length) (h : Within f.slots i s) :
    i ∈ f.enumerate s := by
  induction h with
  | refl =>
    rw [enumerate_atom hg hi]
    exact List.mem_cons_self
  | tail _ hp ih =>
    obtain ⟨y, a, xa, b, xb, hy, hmade, rfl | rfl⟩ := hg.parent hp
    · rw [enumerate_made hg hy hmade]
      exact List.mem_append_left _ ih
    · rw [enumerate_made hg hy hmade]
      exact List.mem_append_right _ ih

/-- **An atomic slot lies in a slot at the top exactly when that is its root.** -/
theorem root_iff_mem_enumerate (hg : Grown g f.slots) {i t : Nat} (hi : i < g.owners.length) (ht : AtTop f.slots t) :
    Root f.slots i t ↔ i ∈ f.enumerate t := by
  obtain ⟨x, hx, hnone⟩ := ht
  exact ⟨fun h => mem_enumerate_of_within hg hi h.within, fun h => ⟨within_of_mem_enumerate hg hx h, x, hx, hnone⟩⟩

end Enumerate

/-! ## Compounds -/

/-- **Two slots that fit**: they differ, are at the top and are equally cold. -/
structure Fits (f : SlotForest) (a : Nat) (xa : Slot) (b : Nat) (xb : Slot) : Prop where
  left : f.slots[a]? = some xa
  right : f.slots[b]? = some xb
  left_top : xa.parent = none
  right_top : xb.parent = none
  ne : a ≠ b
  cold : xa.cold = xb.cold

theorem exists_fits {f : SlotForest} {a b : Nat} (h : f.canMerge a b = true) : ∃ xa xb, Fits f a xa b xb := by
  simp only [canMerge, isTop, isCold, Bool.and_eq_true, bne_iff_ne, beq_iff_eq, Option.any_eq_true, Option.isNone_iff_eq_none]
    at h
  obtain ⟨⟨⟨hne, xa, ha, hta⟩, xb, hb, htb⟩, hcold⟩ := h
  rw [ha, hb] at hcold
  exact ⟨xa, xb, ha, hb, hta, htb, hne, hcold⟩

section Compound

variable {g : SlotGraph} {f : SlotForest} {a b : Nat} {xa xb : Slot}

theorem Fits.left_lt (h : Fits f a xa b xb) : a < f.slots.size := (Array.getElem?_eq_some_iff.1 h.left).1

theorem Fits.right_lt (h : Fits f a xa b xb) : b < f.slots.size := (Array.getElem?_eq_some_iff.1 h.right).1

/-- The compound itself. -/
theorem Fits.getElem?_new (h : Fits f a xa b xb) : (f.compound a b).slots[f.slots.size]? =
    some ⟨.compound a b, max xa.weight xb.weight, none, xa.first, xb.last, xa.cold⟩ := by
  have ha := h.left_lt
  have hb := h.right_lt
  simp only [compound, Array.getElem?_modify, Array.getElem?_push, weightOf, firstOf, lastOf, isCold, h.left, h.right]
  rw [if_neg (by omega), if_neg (by omega), if_pos trivial]
  rfl

/-- An older slot is as it was, except that the two parts have a parent. -/
theorem Fits.getElem?_old (h : Fits f a xa b xb) {s : Nat} (hs : s ≠ f.slots.size) : (f.compound a b).slots[s]? =
    f.slots[s]?.map fun x => if s = a ∨ s = b then { x with parent := some f.slots.size } else x := by
  simp only [compound, Array.getElem?_modify, Array.getElem?_push, if_neg hs]
  by_cases ha : a = s
  · have hb : ¬b = s := fun hb => h.ne (ha.trans hb.symm)
    simp [ha, hb]
  · by_cases hb : b = s
    · simp [ha, hb]
    · simp [ha, hb, Ne.symm ha, Ne.symm hb]

theorem size_compound (f : SlotForest) (a b : Nat) : (f.compound a b).slots.size = f.slots.size + 1 := by
  simp [compound]

/-- Slots that had a parent are as they were. -/
theorem Fits.getElem?_of_parent (h : Fits f a xa b xb) {s p : Nat} {x : Slot} (hx : f.slots[s]? = some x)
    (hp : x.parent = some p) : (f.compound a b).slots[s]? = some x := by
  have hs := (Array.getElem?_eq_some_iff.1 hx).1
  have hnot : ¬(s = a ∨ s = b) := by
    rintro (rfl | rfl)
    · cases h.left.symm.trans hx
      rw [h.left_top] at hp
      cases hp
    · cases h.right.symm.trans hx
      rw [h.right_top] at hp
      cases hp
  rw [h.getElem?_old (by omega), hx]
  simp [hnot]

theorem Fits.getElem?_left (h : Fits f a xa b xb) :
    (f.compound a b).slots[a]? = some { xa with parent := some f.slots.size } := by
  rw [h.getElem?_old (Nat.ne_of_lt h.left_lt), h.left]
  simp

theorem Fits.getElem?_right (h : Fits f a xa b xb) :
    (f.compound a b).slots[b]? = some { xb with parent := some f.slots.size } := by
  rw [h.getElem?_old (Nat.ne_of_lt h.right_lt), h.right]
  simp

theorem Fits.isParent (h : Fits f a xa b xb) {s p : Nat} (hp : IsParent f.slots s p) : IsParent (f.compound a b).slots s p := by
  obtain ⟨x, hx, hp⟩ := hp
  exact ⟨x, h.getElem?_of_parent hx hp, hp⟩

theorem Fits.within (h : Fits f a xa b xb) {s t : Nat} (hw : Within f.slots s t) : Within (f.compound a b).slots s t :=
  hw.lift id fun _ _ => h.isParent

theorem Fits.made_new (h : Fits f a xa b xb) : Made (f.compound a b).slots f.slots.size
    ⟨.compound a b, max xa.weight xb.weight, none, xa.first, xb.last, xa.cold⟩ a { xa with parent := some f.slots.size }
      b { xb with parent := some f.slots.size } :=
  ⟨h.getElem?_left, h.getElem?_right, h.left_lt, h.right_lt, rfl, rfl, rfl, h.cold⟩

theorem Fits.made_old (h : Fits f a xa b xb) {c : Nat} {x y : Slot} {l : Nat} {xl : Slot} {r : Nat} {xr : Slot}
    (hmade : Made f.slots c x l xl r xr) (hy : y = { x with parent := y.parent }) : Made (f.compound a b).slots c y l xl r xr := by
  refine ⟨h.getElem?_of_parent hmade.left hmade.left_parent, h.getElem?_of_parent hmade.right hmade.right_parent,
    hmade.left_lt, hmade.right_lt, hmade.left_parent, hmade.right_parent, ?_, hmade.cold⟩
  rw [hy, hmade.eq]

/-- The slot that stood in the place of an older slot. -/
theorem Fits.exists_old (h : Fits f a xa b xb) {s : Nat} {y : Slot} (hs : s ≠ f.slots.size)
    (hy : (f.compound a b).slots[s]? = some y) : ∃ x, f.slots[s]? = some x ∧ y = { x with parent := y.parent } := by
  rw [h.getElem?_old hs, Option.map_eq_some_iff] at hy
  obtain ⟨x, hx, rfl⟩ := hy
  refine ⟨x, hx, ?_⟩
  split <;> rfl

theorem Grown.compound (hg : Grown g f.slots) (h : Fits f a xa b xb) : Grown g (f.compound a b).slots := by
  refine ⟨fun {i o} hi => ?_, fun {c y} hy hc => ?_, fun {s p} hp => ?_⟩
  · obtain ⟨parent, hx⟩ := hg.atom hi
    have hlt := (Array.getElem?_eq_some_iff.1 hx).1
    rw [h.getElem?_old (by omega), hx, Option.map_some]
    split
    · exact ⟨_, rfl⟩
    · exact ⟨_, rfl⟩
  · by_cases hnew : c = f.slots.size
    · subst hnew
      cases h.getElem?_new.symm.trans hy
      exact ⟨a, _, b, _, h.made_new⟩
    · obtain ⟨x, hx, heq⟩ := h.exists_old hnew hy
      obtain ⟨l, xl, r, xr, hmade⟩ := hg.made hx hc
      exact ⟨l, xl, r, xr, h.made_old hmade heq⟩
  · obtain ⟨y, hy, hp⟩ := hp
    have hs : s ≠ f.slots.size := by
      rintro rfl
      cases h.getElem?_new.symm.trans hy
      cases hp
    have hparts : s = a ∨ s = b → p = f.slots.size := by
      rintro (rfl | rfl)
      · cases h.getElem?_left.symm.trans hy
        exact (Option.some.inj hp).symm
      · cases h.getElem?_right.symm.trans hy
        exact (Option.some.inj hp).symm
    by_cases hpart : s = a ∨ s = b
    · rw [hparts hpart]
      exact ⟨_, a, _, b, _, h.getElem?_new, h.made_new, hpart⟩
    · rw [h.getElem?_old hs, Option.map_eq_some_iff] at hy
      obtain ⟨x, hx, rfl⟩ := hy
      rw [if_neg hpart] at hp
      obtain ⟨z, l, xl, r, xr, hz, hmade, hside⟩ := hg.parent ⟨x, hx, hp⟩
      have hlt := (Array.getElem?_eq_some_iff.1 hz).1
      refine ⟨_, l, xl, r, xr, (h.getElem?_old (by omega)).trans (by rw [hz]; rfl), h.made_old hmade ?_, hside⟩
      split <;> rfl

theorem Fits.atTop_iff (h : Fits f a xa b xb) (t : Nat) :
    AtTop (f.compound a b).slots t ↔ t = f.slots.size ∨ AtTop f.slots t ∧ t ≠ a ∧ t ≠ b := by
  by_cases hnew : t = f.slots.size
  · subst hnew
    exact iff_of_true ⟨_, h.getElem?_new, rfl⟩ (.inl rfl)
  · simp only [AtTop, h.getElem?_old hnew, Option.map_eq_some_iff, hnew, false_or]
    constructor
    · rintro ⟨y, ⟨x, hx, rfl⟩, hnone⟩
      split at hnone
      · cases hnone
      · rename_i hnot
        exact ⟨⟨x, hx, hnone⟩, fun heq => hnot (.inl heq), fun heq => hnot (.inr heq)⟩
    · rintro ⟨⟨x, hx, hnone⟩, ha, hb⟩
      exact ⟨x, ⟨x, hx, if_neg (by simp [ha, hb])⟩, hnone⟩

/-- **The shortcuts after a merge.** -/
theorem Leads.compound {leaders : Leaders} (hl : Leads f.slots leaders) (h : Fits f a xa b xb) :
    Leads (f.compound a b).slots
      (((leaders.push f.slots.size).setIfInBounds a f.slots.size).setIfInBounds b f.slots.size) := by
  have ha := h.left_lt
  have hb := h.right_lt
  have hget : ∀ {s l}, (((leaders.push f.slots.size).setIfInBounds a f.slots.size).setIfInBounds b f.slots.size)[s]? = some l →
      (s = f.slots.size ∨ s = a ∨ s = b) ∧ l = f.slots.size ∨ (s ≠ a ∧ s ≠ b) ∧ leaders[s]? = some l := by
    intro s l hs
    simp only [Array.getElem?_setIfInBounds, Array.getElem?_push, Array.size_setIfInBounds, Array.size_push, hl.size] at hs
    grind
  refine ⟨by simp [size_compound, hl.size], fun {s l} hs => ?_, fun {s} hs => ?_⟩
  · rcases hget hs with ⟨rfl | rfl | rfl, rfl⟩ | ⟨-, hs⟩
    · exact .refl
    · exact .single ⟨_, h.getElem?_left, rfl⟩
    · exact .single ⟨_, h.getElem?_right, rfl⟩
    · exact h.within (hl.within hs)
  · rcases hget hs with ⟨-, rfl⟩ | ⟨⟨hsa, hsb⟩, hs⟩
    · exact (h.atTop_iff _).2 (.inl rfl)
    · exact (h.atTop_iff _).2 (.inr ⟨hl.atTop hs, hsa, hsb⟩)

theorem Fits.enumerate_old (h : Fits f a xa b xb) (hg : Grown g f.slots) {s : Nat} {x : Slot} (hx : f.slots[s]? = some x) :
    (f.compound a b).enumerate s = f.enumerate s := by
  have hg' := hg.compound h
  refine hg.induct (P := fun s _ => (f.compound a b).enumerate s = f.enumerate s) ?_ ?_ hx
  · intro i o x hi _ _
    have hlt := (List.getElem?_eq_some_iff.1 hi).1
    rw [enumerate_atom hg hlt, enumerate_atom hg' hlt]
  · intro c x l xl r xr hx hmade ihl ihr
    have hlt := (Array.getElem?_eq_some_iff.1 hx).1
    rw [enumerate_made hg hx hmade, ← ihl, ← ihr]
    refine enumerate_made hg' ((h.getElem?_old (Nat.ne_of_lt hlt)).trans (by rw [hx]; rfl)) (h.made_old hmade ?_)
    split <;> rfl

theorem Fits.enumerate_new (h : Fits f a xa b xb) (hg : Grown g f.slots) :
    (f.compound a b).enumerate f.slots.size = f.enumerate a ++ f.enumerate b := by
  rw [enumerate_made (hg.compound h) h.getElem?_new h.made_new, h.enumerate_old hg h.left, h.enumerate_old hg h.right]

end Compound

/-- **A forest at any time**: the slots at the top are those without a parent, from the oldest on; together they hold every
atomic slot once; and each merge has left one less of them. -/
structure Standing (g : SlotGraph) (f : SlotForest) : Prop where
  grown : Grown g f.slots
  tops : ∀ t, t ∈ f.tops ↔ AtTop f.slots t
  sorted : f.tops.Pairwise (· < ·)
  perm : (f.tops.flatMap f.enumerate).Perm (List.range g.owners.length)
  count : f.tops.length + f.merges = g.owners.length

section Standing

variable {g : SlotGraph} {f : SlotForest} {a b : Nat} {xa xb : Slot}

theorem Standing.exists_slot (h : Standing g f) {t : Nat} (ht : t ∈ f.tops) : ∃ x, f.slots[t]? = some x ∧ x.parent = none :=
  (h.tops t).1 ht

theorem Standing.lt_size (h : Standing g f) {t : Nat} (ht : t ∈ f.tops) : t < f.slots.size := by
  obtain ⟨x, hx, -⟩ := h.exists_slot ht
  exact (Array.getElem?_eq_some_iff.1 hx).1

theorem Standing.nodup_tops (h : Standing g f) : f.tops.Nodup := h.sorted.imp Nat.ne_of_lt

theorem Standing.compound (h : Standing g f) (hf : Fits f a xa b xb) : Standing g (f.compound a b) := by
  have ha : a ∈ f.tops := (h.tops a).2 ⟨xa, hf.left, hf.left_top⟩
  have hb : b ∈ f.tops := (h.tops b).2 ⟨xb, hf.right, hf.right_top⟩
  have hrest := SlotGraph.perm_rest h.nodup_tops ha hb hf.ne
  refine ⟨h.grown.compound hf, fun t => ?_, ?_, ?_, ?_⟩
  · rw [hf.atTop_iff, ← h.tops]
    simp only [SlotForest.compound, List.mem_append, List.mem_filter, Bool.and_eq_true, bne_iff_ne, List.mem_singleton]
    exact or_comm
  · refine List.pairwise_append.2 ⟨h.sorted.filter _, List.pairwise_singleton _ _, fun s hs c hc => ?_⟩
    rw [List.mem_singleton.1 hc]
    exact h.lt_size (List.mem_filter.1 hs).1
  · have hold : (f.tops.filter fun s => s != a && s != b).flatMap (f.compound a b).enumerate =
        (f.tops.filter fun s => s != a && s != b).flatMap f.enumerate := by
      refine List.flatMap_congr fun s hs => ?_
      obtain ⟨x, hx, -⟩ := h.exists_slot (List.mem_filter.1 hs).1
      exact hf.enumerate_old h.grown hx
    have hnew : ((f.compound a b).tops.flatMap (f.compound a b).enumerate) =
        (f.tops.filter fun s => s != a && s != b).flatMap f.enumerate ++ (f.enumerate a ++ f.enumerate b) := by
      rw [← hf.enumerate_new h.grown, ← hold]
      simp only [SlotForest.compound, List.flatMap_append, List.flatMap_singleton]
    rw [hnew]
    refine List.Perm.trans ?_ h.perm
    refine List.Perm.trans ?_ (hrest.flatMap_right f.enumerate).symm
    rw [List.flatMap_cons, List.flatMap_cons, ← List.append_assoc (f.enumerate a)]
    exact List.perm_append_comm
  · have hlength := hrest.length_eq
    have hcount := h.count
    simp only [List.length_cons] at hlength
    simp only [SlotForest.compound, List.length_append, List.length_singleton]
    omega

/-- Before the first merge every slot is atomic and at the top. -/
theorem standing_atoms (g : SlotGraph) : Standing g g.atoms := by
  have hslots : ∀ i, g.atoms.slots[i]? = g.owners[i]?.map (g.atom i) := fun i => by simp [SlotGraph.atoms]
  have hatom : ∀ {i x}, g.atoms.slots[i]? = some x → i < g.owners.length ∧ x.parent = none := by
    intro i x hx
    rw [hslots, Option.map_eq_some_iff] at hx
    obtain ⟨b, hb, rfl⟩ := hx
    exact ⟨(List.getElem?_eq_some_iff.1 hb).1, rfl⟩
  have hgrown : Grown g g.atoms.slots := by
    refine ⟨fun {i b} hi => ⟨none, by rw [hslots, hi]; rfl⟩, fun {c x} hx hc => ?_, fun {s p} hp => ?_⟩
    · have := (hatom hx).1
      omega
    · obtain ⟨x, hx, hp⟩ := hp
      rw [(hatom hx).2] at hp
      cases hp
  refine ⟨hgrown, fun t => ?_, List.pairwise_lt_range, ?_, ?_⟩
  · simp only [SlotGraph.atoms, List.mem_range]
    refine ⟨fun ht => ?_, fun ⟨x, hx, _⟩ => (hatom hx).1⟩
    exact ⟨_, (hslots t).trans (by rw [List.getElem?_eq_getElem ht]; rfl), rfl⟩
  · have hflat : g.atoms.tops.flatMap g.atoms.enumerate = (List.range g.owners.length).flatMap fun i => [i] :=
      List.flatMap_congr fun i hi => enumerate_atom hgrown (List.mem_range.1 hi)
    rw [hflat, List.flatMap_singleton']
  · simp [SlotGraph.atoms]

/-- **Two slots at the top share no atomic slot.** -/
theorem Standing.eq_of_mem (h : Standing g f) {i t u : Nat} (ht : t ∈ f.tops) (hu : u ∈ f.tops) (hit : i ∈ f.enumerate t)
    (hiu : i ∈ f.enumerate u) : t = u := by
  obtain ⟨x, hx, htop⟩ := h.exists_slot ht
  obtain ⟨y, hy, hutop⟩ := h.exists_slot hu
  exact (Root.mk (within_of_mem_enumerate h.grown hx hit) ⟨x, hx, htop⟩).unique
    ⟨within_of_mem_enumerate h.grown hy hiu, y, hy, hutop⟩

theorem Standing.nodup_enumerate (h : Standing g f) {t : Nat} (ht : t ∈ f.tops) : (f.enumerate t).Nodup :=
  (List.nodup_flatMap.1 (h.perm.nodup_iff.2 List.nodup_range)).1 t ht

end Standing

end SlotForest

end CodeImage
