import Mathlib.Logic.Relation
import CodeImage.Proofs.Schedule.Threads
/-!
# Layers — joins make no cycles

Runs are layered when no link leads back within a run and levels can be given to the runs so that every equally cold link
between two of them leads up (`Layered`).  Two runs may become one where the first leads to the second and there is no
other way between them (`Adjoins`); then layers are kept (`Layered.join`).  Without loops every pattern that a join comes
from is of that kind (`adjoins_of_nextJoin?`).
-/
namespace CodeImage

namespace SlotGraph

/-- **An equally cold link leads from run `a` to run `b`.** -/
def Leads (g : SlotGraph) (a b : Run) : Prop := ∃ l, g.Leaves a l ∧ l.target ∈ b.blocks

/-- Control passes from one run of the list to another. -/
def Passes (g : SlotGraph) (runs : List Run) (a b : Run) : Prop := a ∈ runs ∧ b ∈ runs ∧ g.Leads a b

/-- **Runs in layers.** -/
structure Layered (g : SlotGraph) (runs : List Run) : Prop where
  /-- No link leads back within a run. -/
  row : ∀ r ∈ runs, r.blocks.Pairwise fun x y => ⟨y, x⟩ ∉ g.links
  /-- Links between runs lead up. -/
  level : ∃ level : Run → Nat, ∀ a b, g.Passes runs a b → level a < level b

/-- **Two runs that may become one**: `a` leads to `b`, and there is no other way from the one to the other. -/
structure Adjoins (g : SlotGraph) (runs : List Run) (a b : Run) : Prop where
  leads : g.Leads a b
  sole : ∀ c, g.Passes runs a c → c ≠ b → ¬Relation.ReflTransGen (g.Passes runs) c b

section Layered

variable {g : SlotGraph} {runs : List Run} {a b c : Run}

theorem Leads.ne (h : g.Leads a b) : a ≠ b := by
  rintro rfl
  obtain ⟨l, hl, htarget⟩ := h
  exact hl.2.2.1 htarget

theorem level_le {level : Run → Nat} (hlevel : ∀ a b, g.Passes runs a b → level a < level b)
    (h : Relation.ReflTransGen (g.Passes runs) a b) : level a ≤ level b := by
  induction h with
  | refl => exact Nat.le_refl _
  | tail _ hstep ih => exact Nat.le_of_lt (Nat.lt_of_le_of_lt ih (hlevel _ _ hstep))

theorem Leads.of_append_left (h : g.Leads (a.append b) c) : g.Leads a c ∨ g.Leads b c := by
  obtain ⟨l, hl, htarget⟩ := h
  exact hl.of_append.1.imp (fun hl => ⟨l, hl, htarget⟩) fun hl => ⟨l, hl, htarget⟩

theorem Leads.of_append_right (h : g.Leads c (a.append b)) : g.Leads c a ∨ g.Leads c b := by
  obtain ⟨l, hl, htarget⟩ := h
  rw [Run.blocks_append, List.mem_append] at htarget
  exact htarget.imp (fun htarget => ⟨l, hl, htarget⟩) fun htarget => ⟨l, hl, htarget⟩

theorem Divided.append_not_mem (h : g.Divided runs) (hg : g.owners.Nodup) (ha : a ∈ runs) (hb : b ∈ runs) (hne : a ≠ b) :
    a.append b ∉ runs := by
  intro hmem
  have heq : a.append b = a :=
    h.eq_of_mem hg hmem ha (Run.head_mem_blocks _) (show (a.append b).head ∈ a.blocks from a.head_mem_blocks)
  have hin : b.head ∈ (a.append b).blocks := by
    rw [Run.blocks_append]
    exact List.mem_append_right _ b.head_mem_blocks
  rw [heq] at hin
  exact hne (h.eq_of_mem hg ha hb hin b.head_mem_blocks)

/-- **Levels after a join**: the joined run takes the level of `b`, and whatever does not lead to `b` moves up behind
it. -/
theorem Adjoins.exists_level (hab : g.Adjoins runs a b) (ha : a ∈ runs) (hb : b ∈ runs) (hfresh : a.append b ∉ runs)
    {level : Run → Nat} (hlevel : ∀ a b, g.Passes runs a b → level a < level b) :
    ∃ level : Run → Nat, ∀ x y, g.Passes (join runs a b) x y → level x < level y := by
  classical
  have hpass : g.Passes runs a b := ⟨ha, hb, hab.leads⟩
  have hold : ∀ r ∈ join runs a b, r ≠ a.append b → r ∈ runs := fun r hr hne => (mem_join hr).resolve_right hne
  let below (r : Run) : Prop := Relation.ReflTransGen (g.Passes runs) r b
  let raised (r : Run) : Nat :=
    if r = a.append b then level b else if below r then level r else level r + level b + 1
  have hjoined : raised (a.append b) = level b := if_pos rfl
  have hraised : ∀ r ∈ runs, raised r = if below r then level r else level r + level b + 1 := fun r hr =>
    if_neg (ne_of_mem_of_not_mem hr hfresh)
  refine ⟨raised, fun x y ⟨hx, hy, hxy⟩ => ?_⟩
  by_cases hxj : x = a.append b
  · -- out of the joined run: nothing that leads to `b`
    subst hxj
    have hy := hold y hy hxy.ne.symm
    have hnot : ¬below y := by
      rcases hxy.of_append_left with hay | hby
      · refine hab.sole y ⟨ha, hy, hay⟩ ?_
        rintro rfl
        obtain ⟨l, hl, htarget⟩ := hxy
        exact hl.2.2.1 (by rw [Run.blocks_append]; exact List.mem_append_right _ htarget)
      · intro hyb
        exact absurd (hlevel b y ⟨hb, hy, hby⟩) (Nat.not_lt.2 (level_le hlevel hyb))
    rw [hjoined, hraised y hy, if_neg hnot]
    omega
  have hx := hold x hx hxj
  by_cases hyj : y = a.append b
  · -- into the joined run: from what leads to `b`
    subst hyj
    have hlt : level x < level b ∧ below x := by
      rcases hxy.of_append_right with hxa | hxb
      · have hpassed : g.Passes runs x a := ⟨hx, ha, hxa⟩
        exact ⟨Nat.lt_trans (hlevel x a hpassed) (hlevel a b hpass), .head hpassed (.single hpass)⟩
      · have hpassed : g.Passes runs x b := ⟨hx, hb, hxb⟩
        exact ⟨hlevel x b hpassed, .single hpassed⟩
    rw [hjoined, hraised x hx, if_pos hlt.2]
    exact hlt.1
  have hpassed : g.Passes runs x y := ⟨hx, hold y hy hyj, hxy⟩
  have hlt := hlevel x y hpassed
  rw [hraised x hx, hraised y hpassed.2.1]
  by_cases hby : below y
  · rw [if_pos hby, if_pos (show below x from .head hpassed hby)]
    exact hlt
  · rw [if_neg hby]
    split <;> omega

/-- **Joining two runs that may become one keeps the layers.** -/
theorem Layered.join (h : g.Layered runs) (hg : g.owners.Nodup) (hdiv : g.Divided runs) (hj : g.Joins runs a b)
    (hab : g.Adjoins runs a b) : g.Layered (join runs a b) := by
  obtain ⟨ha, hb, hjoin⟩ := hj
  obtain ⟨level, hlevel⟩ := h.level
  refine ⟨fun r hr => ?_, hab.exists_level ha hb (hdiv.append_not_mem hg ha hb hab.leads.ne) hlevel⟩
  rcases mem_join hr with hr | rfl
  · exact h.row r hr
  rw [Run.blocks_append, List.pairwise_append]
  refine ⟨h.row a ha, h.row b hb, fun x hx y hy hlink => ?_⟩
  -- a link back from `b` to `a` would lead down
  have hcold : g.isCold y = g.isCold x := by
    simp only [joinable, Bool.and_eq_true, beq_iff_eq] at hjoin
    rw [hdiv.cold a ha x hx, hdiv.cold b hb y hy, hjoin.2]
  have hback : g.Leads b a := ⟨⟨y, x⟩, ⟨hlink, hy, hdiv.not_mem hg ha hb hab.leads.ne hx, hcold⟩, hx⟩
  exact Nat.lt_asymm (hlevel a b ⟨ha, hb, hab.leads⟩) (hlevel b a ⟨hb, ha, hback⟩)

end Layered

/-! ## Patterns -/

section Patterns

variable {g : SlotGraph} {runs : List Run} {a b c : Run}

/-- A run that leads to a single other one can be put in front of it. -/
theorem adjoins_of_leaves (hg : g.owners.Nodup) (h : g.Divided runs) (hb : b ∈ runs) {l : Link}
    (hleaves : ∀ x, g.Leaves a x ↔ x = l) (htarget : l.target ∈ b.blocks) : g.Adjoins runs a b := by
  refine ⟨⟨l, (hleaves l).2 rfl, htarget⟩, fun c ⟨_, hc, x, hx, hxc⟩ hne => absurd ?_ hne⟩
  rw [(hleaves x).1 hx] at hxc
  exact h.eq_of_mem hg hc hb hxc htarget

/-- A run that a single other one leads to can be put behind it. -/
theorem adjoins_of_enters (hg : g.owners.Nodup) (h : g.Divided runs) (hl : g.Layered runs) (ha : a ∈ runs) (hb : b ∈ runs)
    {l : Link} (henters : ∀ x, g.Enters b x ↔ x = l) (hsource : l.source ∈ a.blocks) : g.Adjoins runs a b := by
  obtain ⟨hlink, htarget, hout, hcold⟩ := (henters l).2 rfl
  have hne : a ≠ b := fun heq => hout (heq ▸ hsource)
  refine ⟨⟨l, ⟨hlink, hsource, h.not_mem hg hb ha (Ne.symm hne) htarget, hcold.symm⟩, htarget⟩, fun c hac hcb hpath => ?_⟩
  obtain ⟨level, hlevel⟩ := hl.level
  -- the last step to `b` comes from `a`
  rcases Relation.ReflTransGen.cases_tail hpath with heq | ⟨z, hcz, hz, -, x, hx, hxb⟩
  · exact hcb heq.symm
  · have hxl := (henters x).1 ⟨hx.1, hxb, fun hin => hx.2.2.1 (h.eq_of_mem hg hz hb hx.2.1 hin ▸ hxb), hx.2.2.2.symm⟩
    have hza : z = a := h.eq_of_mem hg hz ha hx.2.1 (hxl ▸ hsource)
    subst hza
    exact absurd (hlevel z c hac) (Nat.not_lt.2 (level_le hlevel hcz))

theorem exists_sole (near far : Link → Nat) (hg : g.Tidy) (h : g.Divided runs) (hfar : ∀ l ∈ g.links, far l ∈ g.owners)
    (ha : a ∈ runs) {ends : Bool}
    (hsole : (match (g.across near far a).filter fun l => g.isCold (far l) == g.runCold a && runs.any (·.has (far l)) with
      | [l] => if ends && !l.meetsEnds runs then none else runOf runs (far l)
      | _ => none) = some b) :
    ∃ l, (∀ x, g.Crosses near far a x ↔ x = l) ∧ b ∈ runs ∧ far l ∈ b.blocks := by
  split at hsole
  · rename_i l hl
    split at hsole
    · cases hsole
    · exact ⟨l, (eq_singleton_across near far hg h hfar ha l).1 hl, mem_of_runOf hsole⟩
  · cases hsole

theorem exists_leaves_of_soleTarget? (hg : g.Tidy) (h : g.Divided runs) (ha : a ∈ runs) {ends : Bool}
    (hsole : g.soleTarget? runs runs ends a = some b) :
    ∃ l, (∀ x, g.Leaves a x ↔ x = l) ∧ b ∈ runs ∧ l.target ∈ b.blocks :=
  exists_sole Link.source Link.target hg h hg.target ha hsole

theorem exists_enters_of_soleSource? (hg : g.Tidy) (h : g.Divided runs) (hb : b ∈ runs) {ends : Bool}
    (hsole : g.soleSource? runs runs ends b = some a) :
    ∃ l, (∀ x, g.Enters b x ↔ x = l) ∧ a ∈ runs ∧ l.source ∈ a.blocks :=
  exists_sole Link.target Link.source hg h hg.source hb hsole

theorem exists_leaves_of_twoTargets? (h : g.Divided runs) (ha : a ∈ runs)
    (htwo : g.twoTargets? runs (g.runCold a) a = some (b, c)) : ∃ l m, (∀ x, g.Leaves a x ↔ x = l ∨ x = m) ∧
      l.target ∈ b.blocks ∧ m.target ∈ c.blocks := by
  unfold twoTargets? at htwo
  split at htwo
  · rename_i l m hlm
    split at htwo
    · rename_i s t hs ht
      cases htwo
      refine ⟨l, m, fun x => ?_, (mem_of_runOf hs).2, (mem_of_runOf ht).2⟩
      have hmem : x ∈ (g.outbound a).filter (fun l => g.isCold l.target == g.runCold a) ↔ x = l ∨ x = m := by
        rw [hlm]
        simp
      have hout : x ∈ g.outbound a ↔ _ := mem_across Link.source Link.target a x
      rw [← hmem, List.mem_filter, hout, beq_iff_eq, and_assoc, and_assoc]
      refine and_congr_right fun _ => and_congr_right fun hin => and_congr_right fun _ => ?_
      rw [h.cold a ha _ hin]
      exact eq_comm
    · cases htwo
  · cases htwo

theorem adjoins_of_straight? (hg : g.Tidy) (h : g.Divided runs) (hs : g.straight? runs runs = some (a, b)) :
    g.Adjoins runs a b := by
  obtain ⟨-, hb, -⟩ := joins_of_straight? (List.Subset.refl _) hs
  obtain ⟨l, hmeets⟩ := meets_of_straight? hg h hs
  exact adjoins_of_leaves hg.owners h hb hmeets.leaves (hmeets.target ▸ b.head_mem_blocks)

theorem adjoins_of_ifThen? (hg : g.Tidy) (h : g.Divided runs) (hl : g.Layered runs) (hb : b ∈ runs) {x y : Run}
    (hif : g.ifThen? runs runs a b c = some (x, y)) : g.Adjoins runs x y := by
  obtain ⟨⟨rfl, rfl⟩, -⟩ := eq_of_ifThen? hif
  unfold ifThen? at hif
  split at hif
  · rename_i hcond
    simp only [Bool.and_eq_true, beq_iff_eq] at hcond
    obtain ⟨l, henters, hx, hsource⟩ := exists_enters_of_soleSource? hg h hb hcond.2
    exact adjoins_of_enters hg.owners h hl hx hb henters hsource
  · cases hif

/-- **The arms of a branch that lead on to one run**: no way leads from the one to the other, or it would lead on from
there and come around. -/
theorem adjoins_of_arm (hl : g.Layered runs) {arm other x : Run} (harm : arm ∈ runs) (hx : x ∈ runs)
    (hleads : g.Leads a arm) (honly : ∀ z ∈ runs, g.Leads a z → z = arm ∨ z = other) (harmTo : g.Leads arm x)
    (hotherTo : ∀ z ∈ runs, g.Leads other z → z = x) : g.Adjoins runs a arm := by
  obtain ⟨level, hlevel⟩ := hl.level
  refine ⟨hleads, fun z ⟨_, hz, haz⟩ hne hpath => ?_⟩
  have hz : z = other := (honly z hz haz).resolve_left hne
  subst hz
  rcases Relation.ReflTransGen.cases_head hpath with heq | ⟨y, ⟨-, hy, hzy⟩, hpath⟩
  · exact hne heq
  · rw [hotherTo y hy hzy] at hpath
    exact absurd (hlevel arm x ⟨harm, hx, harmTo⟩) (Nat.not_lt.2 (level_le hlevel hpath))

theorem adjoins_of_ifThenElse? (hg : g.Tidy) (h : g.Divided runs) (hl : g.Layered runs) (ha : a ∈ runs) (hb : b ∈ runs)
    (hc : c ∈ runs) (htwo : g.twoTargets? runs (g.runCold a) a = some (b, c)) {x y : Run}
    (hif : g.ifThenElse? runs runs a b c = some (x, y)) : g.Adjoins runs x y := by
  obtain ⟨⟨rfl, harm⟩, -⟩ := eq_of_ifThenElse? hif
  obtain ⟨l, m, hleaves, hlb, hmc⟩ := exists_leaves_of_twoTargets? h ha htwo
  have honly : ∀ z ∈ runs, g.Leads x z → z = b ∨ z = c := by
    rintro z hz ⟨k, hk, hkz⟩
    rcases (hleaves k).1 hk with rfl | rfl
    · exact .inl (h.eq_of_mem hg.owners hz hb hkz hlb)
    · exact .inr (h.eq_of_mem hg.owners hz hc hkz hmc)
  unfold ifThenElse? at hif
  split at hif
  · rename_i s t hs ht
    obtain ⟨k, hk, hsRun, hks⟩ := exists_leaves_of_soleTarget? hg h hb hs
    obtain ⟨n, hn, htRun, hnt⟩ := exists_leaves_of_soleTarget? hg h hc ht
    have hst : s = t := by
      simp only at hif
      split at hif
      all_goals
        split at hif
        · rename_i hcond
          simp only [Bool.and_eq_true, beq_iff_eq] at hcond
          exact hcond.1
        · cases hif
    subst hst
    have hsole : ∀ {r : Run} {e : Link}, (∀ x, g.Leaves r x ↔ x = e) → e.target ∈ s.blocks → ∀ z ∈ runs, g.Leads r z → z = s := by
      rintro r e he hes z hz ⟨q, hq, hqz⟩
      rw [(he q).1 hq] at hqz
      exact h.eq_of_mem hg.owners hz hsRun hqz hes
    rcases harm with rfl | rfl
    · exact adjoins_of_arm hl hb hsRun ⟨l, (hleaves l).2 (.inl rfl), hlb⟩ honly
        ⟨k, (hk k).2 rfl, hks⟩ (hsole hn hnt)
    · exact adjoins_of_arm hl hc hsRun ⟨m, (hleaves m).2 (.inr rfl), hmc⟩
        (fun z hz hxz => (honly z hz hxz).symm) ⟨n, (hn n).2 rfl, hnt⟩ (hsole hk hks)
  · cases hif

theorem adjoins_of_branch? (hg : g.Tidy) (h : g.Divided runs) (hl : g.Layered runs)
    (hbranch : g.branch? runs runs = some (a, b)) : g.Adjoins runs a b := by
  unfold branch? at hbranch
  obtain ⟨cold, -, hbranch⟩ := List.exists_of_findSome?_eq_some hbranch
  obtain ⟨r, hr, hbranch⟩ := List.exists_of_findSome?_eq_some hbranch
  have hr := mem_of_mem_byWeight hr
  split at hbranch
  · rename_i hcold
    rw [beq_iff_eq] at hcold
    subst hcold
    split at hbranch
    · rename_i s t hst
      obtain ⟨hs, ht⟩ := mem_of_twoTargets? hst
      split at hbranch
      · rcases orElse_eq_some hbranch with hbranch | hbranch
        · exact adjoins_of_ifThen? hg h hl hs hbranch
        · rcases orElse_eq_some hbranch with hbranch | hbranch
          · exact adjoins_of_ifThen? hg h hl ht hbranch
          · exact adjoins_of_ifThenElse? hg h hl hr hs ht hst hbranch
      · cases hbranch
    · cases hbranch
  · cases hbranch

/-- **Without loops, every join is of two runs that may become one.** -/
theorem adjoins_of_nextJoin? (hg : g.Tidy) (h : g.Divided runs) (hl : g.Layered runs) (hloops : g.loops = [])
    (hexits : ∀ b, g.isLoopExit b = false) (hnext : g.nextJoin? runs = some (a, b)) : g.Adjoins runs a b := by
  have hexit : g.loopExit? runs runs = none := by
    simp [loopExit?, hexits]
  rw [nextJoin?, hloops, joinIn?, hexit] at hnext
  rcases orElse_eq_some hnext with hnext | hnext
  · exact adjoins_of_straight? hg h hnext
  · rcases orElse_eq_some hnext with hnext | hnext
    · cases hnext
    · split at hnext
      · cases hnext
      · rcases orElse_eq_some hnext with hnext | hnext
        · cases hnext
        · rcases orElse_eq_some hnext with hnext | hnext
          · exact adjoins_of_branch? hg h hl hnext
          · exact adjoins_of_straight? hg h hnext

theorem layered_joinTimes (hg : g.Tidy) (hloops : g.loops = []) (hexits : ∀ b, g.isLoopExit b = false) :
    ∀ (fuel : Nat) (runs : List Run), g.Divided runs → g.Layered runs → g.Layered (g.joinTimes fuel runs)
  | 0, _, _, hl => hl
  | fuel + 1, runs, h, hl => by
    unfold joinTimes
    split
    · rename_i a b hnext
      have hjoins := joins_of_nextJoin? hnext
      exact layered_joinTimes hg hloops hexits fuel _ (h.join hg.owners hjoins)
        (hl.join hg.owners h hjoins (adjoins_of_nextJoin? hg h hl hloops hexits hnext))
    · exact hl

/-- **Joining to the end keeps the layers** of a graph without loops whose links all lead up. -/
theorem layered_joinAll (hg : g.Tidy) (hloops : g.loops = []) (hexits : ∀ b, g.isLoopExit b = false) (rank : Nat → Nat)
    (hrank : ∀ l ∈ g.links, rank l.source < rank l.target) : g.Layered g.joinAll := by
  refine layered_joinTimes hg hloops hexits _ _ (divided_single g) ⟨fun r hr => ?_, fun r => rank r.head, ?_⟩
  · obtain ⟨b, -, rfl⟩ := List.mem_map.1 hr
    exact List.pairwise_singleton _ b
  · rintro a b ⟨ha, hb, l, ⟨hl, hsource, -⟩, htarget⟩
    obtain ⟨x, -, rfl⟩ := List.mem_map.1 ha
    obtain ⟨y, -, rfl⟩ := List.mem_map.1 hb
    have hlt := hrank l hl
    rwa [List.mem_singleton.1 hsource, List.mem_singleton.1 htarget] at hlt

end Patterns

end SlotGraph

end CodeImage
