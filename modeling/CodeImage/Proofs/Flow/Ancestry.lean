import Mathlib.Logic.Relation
import CodeImage.Proofs.Flow.Walk
/-!
# Ancestry — the tree that a walk grows, and the class of an edge by it

A walk meets a block after the block it comes from, so the list of blocks met is a tree that grows at its leaves
(`Grown`): what it says of two blocks stays true as it grows (`Grown.above_cons`).  The climb that looks for an ancestor
and stops early answers exactly (`Grown.climbs_iff`), and so the class given to an edge when it is taken is the one that
fits the tree (`fits_classify`), then and for good (`fits_cons`).
-/
namespace CodeImage

/-- **Whether an edge from `u` to `v` is of a class**, where `up b p` says that `b` hangs from `p` in the tree. -/
def EdgeClass.Fits (up : Nat → Nat → Prop) (u v : Nat) : EdgeClass → Prop
  | .tree => up v u
  | .back => Relation.ReflTransGen up u v
  | .forward => Relation.ReflTransGen up v u ∧ u ≠ v ∧ ¬up v u
  | .cross => ¬Relation.ReflTransGen up u v ∧ ¬Relation.ReflTransGen up v u

/-- **Only one class fits**, where no block hangs from what hangs from it. -/
theorem EdgeClass.Fits.unique {up : Nat → Nat → Prop} (hacyclic : ∀ b p, up b p → ¬Relation.ReflTransGen up p b)
    {u v : Nat} {c d : EdgeClass} (hc : c.Fits up u v) (hd : d.Fits up u v) : c = d := by
  have hproper : Relation.ReflTransGen up v u → u ≠ v → ¬Relation.ReflTransGen up u v := fun hvu hne huv => by
    obtain rfl | ⟨p, hp, hpu⟩ := hvu.cases_head
    · exact hne rfl
    · exact hacyclic v p hp (hpu.trans huv)
  have htree : up v u → ¬Relation.ReflTransGen up u v := hacyclic v u
  have hsingle : up v u → Relation.ReflTransGen up v u := Relation.ReflTransGen.single
  cases c <;> cases d <;> simp only [Fits] at hc hd <;> tauto

namespace Walk

/-- **A tree grown block by block**: each new block hangs from one met before, or from none. -/
def Grown : List (Nat × Option Nat) → Prop
  | [] => True
  | (b, parent) :: older => b ∉ older.map (·.1) ∧ (∀ p ∈ parent, p ∈ older.map (·.1)) ∧ Grown older

/-- `b` hangs from `p`. -/
def Hangs (met : List (Nat × Option Nat)) (b p : Nat) : Prop := (b, some p) ∈ met

theorem Hangs.mem {met : List (Nat × Option Nat)} {b p : Nat} (h : Hangs met b p) : b ∈ met.map (·.1) :=
  List.mem_map.2 ⟨_, h, rfl⟩

namespace Grown

variable {met older : List (Nat × Option Nat)} {parent : Option Nat} {a b c p u v : Nat}

theorem nodup : ∀ {met : List (Nat × Option Nat)}, Grown met → (met.map (·.1)).Nodup
  | [], _ => List.nodup_nil
  | _ :: _, h => List.nodup_cons.2 ⟨h.1, h.2.2.nodup⟩

theorem parent_mem : ∀ {met : List (Nat × Option Nat)}, Grown met → Hangs met b p → p ∈ met.map (·.1)
  | (_, _) :: _, h, hp => by
    rcases List.mem_cons.1 hp with heq | hp
    · cases heq
      exact List.mem_cons_of_mem _ (h.2.1 p rfl)
    · exact List.mem_cons_of_mem _ (h.2.2.parent_mem hp)

theorem mem_of_above (h : Grown met) (hb : b ∈ met.map (·.1)) (hab : Relation.ReflTransGen (Hangs met) b a) :
    a ∈ met.map (·.1) := by
  induction hab with
  | refl => exact hb
  | tail _ hp _ => exact h.parent_mem hp

theorem hangs_cons (h : Grown ((c, parent) :: older)) (hb : b ∈ older.map (·.1)) :
    Hangs ((c, parent) :: older) b p ↔ Hangs older b p := by
  refine ⟨fun hp => (List.mem_cons.1 hp).resolve_left fun heq => ?_, List.mem_cons_of_mem _⟩
  cases heq
  exact h.1 hb

/-- **A new block changes nothing above those met before.** -/
theorem above_cons (h : Grown ((c, parent) :: older)) (hb : b ∈ older.map (·.1)) :
    Relation.ReflTransGen (Hangs ((c, parent) :: older)) b a ↔ Relation.ReflTransGen (Hangs older) b a := by
  refine ⟨fun hab => ?_, fun hab => Relation.ReflTransGen.mono (fun _ _ => List.mem_cons_of_mem _) _ _ hab⟩
  induction hab with
  | refl => exact .refl
  | tail _ hp ih => exact ih.tail ((h.hangs_cons (h.2.2.mem_of_above hb ih)).1 hp)

theorem climbs_cons (a b c : Nat) (parent : Option Nat) (older : List (Nat × Option Nat)) :
    climbs a ((c, parent) :: older) b =
      if c == b then a == b || parent.any (climbs a older) else c != a && climbs a older b := by
  cases parent <;> rfl

/-- **The climb answers exactly.** -/
theorem climbs_iff : ∀ {met : List (Nat × Option Nat)} {b : Nat}, Grown met → b ∈ met.map (·.1) →
    (climbs a met b = true ↔ Relation.ReflTransGen (Hangs met) b a)
  | (c, parent) :: older, b, h, hb => by
    obtain ⟨hnew, hparent, holder⟩ := h
    have hgrown : Grown ((c, parent) :: older) := ⟨hnew, hparent, holder⟩
    rw [climbs_cons]
    by_cases hcb : c = b
    · subst hcb
      rw [if_pos (beq_self_eq_true c), Bool.or_eq_true, beq_iff_eq, Relation.ReflTransGen.cases_head_iff]
      refine or_congr eq_comm ?_
      -- the block met last hangs from its parent only
      have hup : ∀ p, Hangs ((c, parent) :: older) c p ↔ parent = some p := fun p => by
        refine ⟨fun hp => ?_, fun hp => hp ▸ List.mem_cons_self⟩
        rcases List.mem_cons.1 hp with heq | hp
        · exact (Prod.mk.inj heq).2.symm
        · exact absurd (Hangs.mem hp) hnew
      simp only [hup]
      cases parent with
      | none => simp
      | some p =>
        have hp := hparent p rfl
        simp only [Option.any_some, Option.some.injEq, exists_eq_left', hgrown.above_cons hp]
        exact holder.climbs_iff hp
    · -- what lies above an older block is older, so the climb may stop at `a`
      have hb := (List.mem_cons.1 hb).resolve_left fun h => hcb h.symm
      rw [if_neg (by simpa using hcb), Bool.and_eq_true, bne_iff_ne, hgrown.above_cons hb, holder.climbs_iff hb]
      exact and_iff_right_of_imp fun hab hca => hnew (hca ▸ holder.mem_of_above hb hab)

/-- **Every climb ends at a block that hangs from none.** -/
theorem exists_root : ∀ {met : List (Nat × Option Nat)} {b : Nat}, Grown met → b ∈ met.map (·.1) →
    ∃ r, (r, none) ∈ met ∧ Relation.ReflTransGen (Hangs met) b r
  | (c, parent) :: older, b, h, hb => by
    have hgrown := h
    obtain ⟨-, hparent, holder⟩ := h
    rcases List.mem_cons.1 hb with rfl | hb
    · cases parent with
      | none => exact ⟨_, List.mem_cons_self, .refl⟩
      | some p =>
        have hp := hparent p rfl
        obtain ⟨r, hr, hpr⟩ := holder.exists_root hp
        exact ⟨r, List.mem_cons_of_mem _ hr, .head List.mem_cons_self ((hgrown.above_cons hp).2 hpr)⟩
    · obtain ⟨r, hr, hbr⟩ := holder.exists_root hb
      exact ⟨r, List.mem_cons_of_mem _ hr, (hgrown.above_cons hb).2 hbr⟩

/-- A block is met after the one it hangs from. -/
theorem findIdx_lt : ∀ {met : List (Nat × Option Nat)}, Grown met → Hangs met b p →
    met.findIdx (·.1 == b) < met.findIdx (·.1 == p)
  | (c, parent) :: older, h, hp => by
    obtain ⟨hnew, hparent, holder⟩ := h
    have hcp : c ≠ p := by
      rintro rfl
      rcases List.mem_cons.1 hp with heq | hp
      · cases heq
        exact hnew (hparent _ rfl)
      · exact hnew (holder.parent_mem hp)
    rw [List.findIdx_cons, List.findIdx_cons, beq_eq_false_iff_ne.2 hcp]
    by_cases hcb : c = b
    · simp [hcb]
    · have hp : Hangs older b p := (List.mem_cons.1 hp).resolve_left fun heq => hcb (Prod.mk.inj heq).1.symm
      rw [beq_eq_false_iff_ne.2 hcb]
      exact Nat.succ_lt_succ (holder.findIdx_lt hp)

theorem findIdx_le (h : Grown met) (hab : Relation.ReflTransGen (Hangs met) b a) :
    met.findIdx (·.1 == b) ≤ met.findIdx (·.1 == a) := by
  induction hab with
  | refl => exact Nat.le_refl _
  | tail _ hp ih => exact Nat.le_trans ih (Nat.le_of_lt (h.findIdx_lt hp))

theorem acyclic (h : Grown met) (hp : Hangs met b p) : ¬Relation.ReflTransGen (Hangs met) p b := fun hpb => by
  have := h.findIdx_lt hp
  have := h.findIdx_le hpb
  omega

/-- Of two blocks the proper ancestor was met first. -/
theorem findIdx_lt_of_above (h : Grown met) (hab : Relation.ReflTransGen (Hangs met) b a) (hne : b ≠ a) :
    met.findIdx (·.1 == b) < met.findIdx (·.1 == a) := by
  obtain rfl | ⟨p, hp, hpa⟩ := hab.cases_head
  · exact absurd rfl hne
  · exact Nat.lt_of_lt_of_le (h.findIdx_lt hp) (h.findIdx_le hpa)

end Grown

/-- **The class given to an edge is the one that fits.** -/
theorem fits_classify {w : Walk} (h : Grown w.met) {u v : Nat} (hu : u ∈ w.met.map (·.1)) (hv : v ∈ w.met.map (·.1))
    (hnot : ¬Hangs w.met v u) : (w.classify u v).Fits (Hangs w.met) u v := by
  unfold classify age
  split_ifs with hage hclimb hclimb
  · refine ⟨(h.climbs_iff hv).1 hclimb, ?_, hnot⟩
    rintro rfl
    exact Nat.lt_irrefl _ hage
  · exact ⟨fun huv => absurd (h.findIdx_le huv) (by omega), fun hvu => hclimb ((h.climbs_iff hv).2 hvu)⟩
  · exact (h.climbs_iff hu).1 hclimb
  · refine ⟨fun huv => hclimb ((h.climbs_iff hu).2 huv), fun hvu => hage (h.findIdx_lt_of_above hvu ?_)⟩
    rintro rfl
    exact hclimb ((h.climbs_iff hu).2 .refl)

/-- **The class of an edge stays** as the tree grows. -/
theorem fits_cons {older : List (Nat × Option Nat)} {b : Nat} {parent : Option Nat} (h : Grown ((b, parent) :: older))
    {u v : Nat} (hu : u ∈ older.map (·.1)) (hv : v ∈ older.map (·.1)) {c : EdgeClass} :
    c.Fits (Hangs ((b, parent) :: older)) u v ↔ c.Fits (Hangs older) u v := by
  cases c <;> simp only [EdgeClass.Fits, h.above_cons hu, h.above_cons hv, h.hangs_cons hv]

end Walk

end CodeImage
