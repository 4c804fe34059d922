import Mathlib.Data.List.Chain
import CodeImage.Proofs.Schedule.Aliasing
/-!
# Threads — no join parts a straight line

While straight lines are joined, and nothing else is before none is left, a run is threaded: each of its slots is linked to
the next, and equally cold links leave it at its last slot and enter it at its first (`Threaded`).  So when no straight
line is left, the ends of a straight pair can only be the ends of one run, which no equally cold link enters or leaves
(`Threaded.bound`).  Later joins put runs in front of each other and part nothing (`bound_joinTimes`).
-/
namespace CodeImage

namespace Run

theorem has_iff (r : Run) (b : Nat) : r.has b = true ↔ b ∈ r.blocks := by
  simp [has]

theorem getLast?_blocks (r : Run) : r.blocks.getLast? = some r.last := List.getLast?_cons

theorem last_mem_blocks (r : Run) : r.last ∈ r.blocks := List.mem_of_getLast? r.getLast?_blocks

theorem last_append (a b : Run) : (a.append b).last = b.last := by
  have h := (a.append b).getLast?_blocks
  rw [blocks_append, List.getLast?_append, b.getLast?_blocks] at h
  exact (Option.some.inj h).symm

end Run

namespace SlotGraph

/-- The links of a run that cross its border, `near` being the end inside. -/
def across (g : SlotGraph) (near far : Link → Nat) (r : Run) : List Link :=
  (r.blocks.flatMap fun b => g.links.filter (near · == b)).filter fun l => !r.has (far l)

/-- A link crosses the border of a run between slots that are equally cold. -/
def Crosses (g : SlotGraph) (near far : Link → Nat) (r : Run) (l : Link) : Prop :=
  l ∈ g.links ∧ near l ∈ r.blocks ∧ far l ∉ r.blocks ∧ g.isCold (near l) = g.isCold (far l)

/-- An equally cold link out of a run. -/
abbrev Leaves (g : SlotGraph) : Run → Link → Prop := g.Crosses Link.source Link.target

/-- An equally cold link into a run. -/
abbrev Enters (g : SlotGraph) : Run → Link → Prop := g.Crosses Link.target Link.source

section Links

variable {g : SlotGraph} {runs : List Run} {a b : Run} (near far : Link → Nat)

theorem mem_across (r : Run) (l : Link) :
    l ∈ g.across near far r ↔ l ∈ g.links ∧ near l ∈ r.blocks ∧ far l ∉ r.blocks := by
  simp [across, Run.has, and_assoc, and_left_comm]

theorem nodup_across (hg : g.Tidy) {r : Run} (hr : r.blocks.Nodup) : (g.across near far r).Nodup := by
  refine (List.nodup_flatMap.2 ⟨fun b _ => hg.links.sublist List.filter_sublist, ?_⟩).sublist List.filter_sublist
  -- a link has one slot at its near end
  refine hr.imp fun {b c} hbc l hb hc => hbc ?_
  exact (beq_iff_eq.1 (List.mem_filter.1 hb).2).symm.trans (beq_iff_eq.1 (List.mem_filter.1 hc).2)

theorem Divided.nodup_blocks (h : g.Divided runs) (hg : g.owners.Nodup) (ha : a ∈ runs) : a.blocks.Nodup :=
  (List.nodup_flatMap.1 (h.perm.nodup_iff.2 hg)).1 a ha

theorem Divided.exists_run (h : g.Divided runs) {c : Nat} (hc : c ∈ g.owners) : ∃ r ∈ runs, c ∈ r.blocks :=
  List.mem_flatMap.1 (h.perm.mem_iff.2 hc)

theorem Divided.not_mem (h : g.Divided runs) (hg : g.owners.Nodup) (ha : a ∈ runs) (hb : b ∈ runs) (hne : a ≠ b) {c : Nat}
    (hc : c ∈ a.blocks) : c ∉ b.blocks := fun hcb => hne (h.eq_of_mem hg ha hb hc hcb)

/-- **The links that count** when a straight line is looked for among all runs. -/
theorem eq_singleton_across (hg : g.Tidy) (h : g.Divided runs) (hfar : ∀ l ∈ g.links, far l ∈ g.owners) (ha : a ∈ runs)
    (l : Link) : ((g.across near far a).filter fun l => g.isCold (far l) == g.runCold a && runs.any (·.has (far l))) =
      [l] ↔ ∀ x, g.Crosses near far a x ↔ x = l := by
  have hnodup := nodup_across near far hg (h.nodup_blocks hg.owners ha)
  rw [eq_singleton_iff_of_nodup (hnodup.sublist List.filter_sublist)]
  refine forall_congr' fun x => iff_congr ?_ Iff.rfl
  rw [List.mem_filter, mem_across, Bool.and_eq_true, beq_iff_eq]
  constructor
  · rintro ⟨⟨hx, hin, hout⟩, hcold, -⟩
    exact ⟨hx, hin, hout, (h.cold a ha _ hin).trans hcold.symm⟩
  · rintro ⟨hx, hin, hout, hcold⟩
    obtain ⟨r, hr, hmem⟩ := h.exists_run (hfar x hx)
    exact ⟨⟨hx, hin, hout⟩, hcold.symm.trans (h.cold a ha _ hin), List.any_eq_true.2 ⟨r, hr, (r.has_iff _).2 hmem⟩⟩

theorem sole_eq_some_iff (hg : g.Tidy) (h : g.Divided runs) (hfar : ∀ l ∈ g.links, far l ∈ g.owners) (ha : a ∈ runs) :
    (match (g.across near far a).filter fun l => g.isCold (far l) == g.runCold a && runs.any (·.has (far l)) with
      | [l] => if true && !l.meetsEnds runs then none else runOf runs (far l)
      | _ => none) = some b ↔
    ∃ l, (∀ x, g.Crosses near far a x ↔ x = l) ∧ l.meetsEnds runs = true ∧ b ∈ runs ∧ far l ∈ b.blocks := by
  constructor
  · intro hsole
    split at hsole
    · rename_i l hl
      split at hsole
      · cases hsole
      · rename_i hends
        exact ⟨l, (eq_singleton_across near far hg h hfar ha l).1 hl, by simpa using hends, mem_of_runOf hsole⟩
    · cases hsole
  · rintro ⟨l, hl, hends, hb, hmem⟩
    rw [(eq_singleton_across near far hg h hfar ha l).2 hl]
    simp [hends, h.runOf_eq hg.owners hb hmem]

theorem Divided.meetsEnds_iff (h : g.Divided runs) (hg : g.owners.Nodup) (ha : a ∈ runs) (hb : b ∈ runs) {l : Link}
    (hs : l.source ∈ a.blocks) (ht : l.target ∈ b.blocks) :
    l.meetsEnds runs = true ↔ l.source = a.last ∧ l.target = b.head := by
  rw [Link.meetsEnds, h.runOf_eq hg ha hs, h.runOf_eq hg hb ht, Bool.and_eq_true, Option.any_some, Option.any_some,
    beq_iff_eq, beq_iff_eq]
  exact and_congr eq_comm eq_comm

/-- **A straight line of runs**: one equally cold link leaves `a` and it enters `b`, where no other does; it leads from
the end of `a` to the start of `b`. -/
structure Meets (g : SlotGraph) (a b : Run) (l : Link) : Prop where
  leaves : ∀ x, g.Leaves a x ↔ x = l
  enters : ∀ x, g.Enters b x ↔ x = l
  source : l.source = a.last
  target : l.target = b.head

theorem soleTarget?_eq_some_iff (hg : g.Tidy) (h : g.Divided runs) (ha : a ∈ runs) :
    g.soleTarget? runs runs true a = some b ↔
      ∃ l, (∀ x, g.Leaves a x ↔ x = l) ∧ l.meetsEnds runs = true ∧ b ∈ runs ∧ l.target ∈ b.blocks :=
  sole_eq_some_iff Link.source Link.target hg h hg.target ha

theorem soleSource?_eq_some_iff (hg : g.Tidy) (h : g.Divided runs) (hb : b ∈ runs) :
    g.soleSource? runs runs true b = some a ↔
      ∃ l, (∀ x, g.Enters b x ↔ x = l) ∧ l.meetsEnds runs = true ∧ a ∈ runs ∧ l.source ∈ a.blocks :=
  sole_eq_some_iff Link.target Link.source hg h hg.source hb

/-- **What a straight line that is found looks like.** -/
theorem meets_of_straight? (hg : g.Tidy) (h : g.Divided runs) (hs : g.straight? runs runs = some (a, b)) :
    ∃ l, g.Meets a b l := by
  obtain ⟨ha, hb, hjoin⟩ := joins_of_straight? (List.Subset.refl _) hs
  have hne : a ≠ b := by
    simp only [joinable, Bool.and_eq_true, bne_iff_ne] at hjoin
    exact hjoin.1
  obtain ⟨r, -, hs⟩ := List.exists_of_findSome?_eq_some hs
  split at hs
  · rename_i t htarget
    split at hs
    · rename_i hcond
      cases hs
      rw [Bool.and_eq_true, beq_iff_eq] at hcond
      obtain ⟨l, hleaves, hends, -, ht⟩ := (soleTarget?_eq_some_iff hg h ha).1 htarget
      obtain ⟨m, henters, -⟩ := (soleSource?_eq_some_iff hg h hb).1 hcond.1
      -- the link that leaves `a` enters `b`, so it is the one that does
      obtain ⟨hl, hsource, -, hcold⟩ := (hleaves l).2 rfl
      obtain ⟨hlast, hhead⟩ := (h.meetsEnds_iff hg.owners ha hb hsource ht).1 hends
      have hlm : l = m := (henters l).1 ⟨hl, ht, h.not_mem hg.owners ha hb hne hsource, hcold.symm⟩
      exact ⟨l, hleaves, hlm ▸ henters, hlast, hhead⟩
    · cases hs
  · cases hs

theorem straight?_ne_none (hg : g.Tidy) (h : g.Divided runs) (ha : a ∈ runs) (hb : b ∈ runs) (hne : a ≠ b) {l : Link}
    (hmeets : g.Meets a b l) : g.straight? runs runs ≠ none := by
  intro hnone
  obtain ⟨-, hs, -, hcold⟩ := (hmeets.leaves l).2 rfl
  have ht : l.target ∈ b.blocks := hmeets.target ▸ b.head_mem_blocks
  have hends := (h.meetsEnds_iff hg.owners ha hb hs ht).2 ⟨hmeets.source, hmeets.target⟩
  have htarget := (soleTarget?_eq_some_iff hg h ha).2 ⟨l, hmeets.leaves, hends, hb, ht⟩
  have hsource := (soleSource?_eq_some_iff hg h hb).2 ⟨l, hmeets.enters, hends, ha, hs⟩
  have hjoin : g.joinable a b = true := by
    simp [joinable, hne, ← h.cold a ha _ hs, ← h.cold b hb _ ht, hcold]
  have := List.findSome?_eq_none_iff.1 hnone a ha
  simp [htarget, hsource, hjoin] at this

end Links

/-! ## Threaded runs -/

/-- **Runs as joining straight lines leaves them**: slots linked one to the next, equally cold links only at the ends. -/
structure Threaded (g : SlotGraph) (runs : List Run) : Prop where
  linked : ∀ r ∈ runs, r.blocks.IsChain fun a b => ⟨a, b⟩ ∈ g.links
  leaves : ∀ r ∈ runs, ∀ l, g.Leaves r l → l.source = r.last
  enters : ∀ r ∈ runs, ∀ l, g.Enters r l → l.target = r.head

theorem threaded_single (g : SlotGraph) : g.Threaded (g.owners.map Run.single) := by
  refine ⟨fun r hr => ?_, fun r hr l hl => ?_, fun r hr l hl => ?_⟩
  all_goals obtain ⟨b, -, rfl⟩ := List.mem_map.1 hr
  · exact List.isChain_singleton b
  · exact List.mem_singleton.1 hl.2.1
  · exact List.mem_singleton.1 hl.2.1

section Threaded

variable {g : SlotGraph} {runs : List Run} {a b : Run}

theorem mem_join {r : Run} (hr : r ∈ join runs a b) : r ∈ runs ∨ r = a.append b := by
  unfold join at hr
  rcases List.mem_append.1 hr with hr | hr
  · exact .inl (List.mem_filter.1 hr).1
  · exact .inr (List.mem_singleton.1 hr)

/-- A link that crosses the border of a joined run crosses that of one of its parts. -/
theorem Crosses.of_append {near far : Link → Nat} {l : Link} (h : g.Crosses near far (a.append b) l) :
    (g.Crosses near far a l ∨ g.Crosses near far b l) ∧ far l ∉ a.blocks ∧ far l ∉ b.blocks := by
  obtain ⟨hl, hin, hout, hcold⟩ := h
  rw [Run.blocks_append, List.mem_append] at hin hout
  rw [not_or] at hout
  exact ⟨hin.imp (fun hin => ⟨hl, hin, hout.1, hcold⟩) fun hin => ⟨hl, hin, hout.2, hcold⟩, hout⟩

/-- **Joining a straight line keeps runs threaded.** -/
theorem Threaded.join (h : g.Threaded runs) (ha : a ∈ runs) (hb : b ∈ runs) {l : Link} (hmeets : g.Meets a b l) :
    g.Threaded (join runs a b) := by
  refine ⟨fun r hr => ?_, fun r hr x hx => ?_, fun r hr x hx => ?_⟩
  all_goals rcases mem_join hr with hr | rfl
  · exact h.linked r hr
  · rw [Run.blocks_append]
    refine (h.linked a ha).append (h.linked b hb) fun u hu v hv => ?_
    cases hu.symm.trans a.getLast?_blocks
    cases hv
    have hlink : (⟨l.source, l.target⟩ : Link) ∈ g.links := ((hmeets.leaves l).2 rfl).1
    rwa [hmeets.source, hmeets.target] at hlink
  · exact h.leaves r hr x hx
  · -- the one link that leaves `a` leads into `b`
    obtain ⟨hx | hx, -, hout⟩ := hx.of_append
    · rw [(hmeets.leaves x).1 hx, hmeets.target] at hout
      exact absurd b.head_mem_blocks hout
    · rw [Run.last_append]
      exact h.leaves b hb x hx
  · exact h.enters r hr x hx
  · obtain ⟨hx | hx, hout, -⟩ := hx.of_append
    · exact h.enters a ha x hx
    · rw [(hmeets.enters x).1 hx, hmeets.source] at hout
      exact absurd a.last_mem_blocks hout

end Threaded

/-! ## Straight pairs of slots -/

/-- **A straight pair**: of the slots as cold as the two, only `b` follows `a` and only `a` comes before `b`. -/
structure Straight (g : SlotGraph) (a b : Nat) : Prop where
  link : ⟨a, b⟩ ∈ g.links
  cold : g.isCold a = g.isCold b
  onlyTarget : ∀ v, ⟨a, v⟩ ∈ g.links → g.isCold a = g.isCold v → v = b
  onlySource : ∀ u, ⟨u, b⟩ ∈ g.links → g.isCold u = g.isCold b → u = a

/-- **A ring from `b` to `a`**: slots linked one to the next that no equally cold link enters or leaves. -/
structure Ring (g : SlotGraph) (ring : List Nat) (a b : Nat) : Prop where
  first : ring.head? = some b
  last : ring.getLast? = some a
  linked : ring.IsChain fun u v => ⟨u, v⟩ ∈ g.links
  closed : ∀ l ∈ g.links, g.isCold l.source = g.isCold l.target → (l.source ∈ ring ↔ l.target ∈ ring)

/-- **A straight pair that stays together**, or a ring that does. -/
def Bound (g : SlotGraph) (runs : List Run) (a b : Nat) : Prop :=
  ∃ r ∈ runs, [a, b] <:+: r.blocks ∨ ∃ ring, ring <:+: r.blocks ∧ g.Ring ring a b

section Straight

variable {g : SlotGraph} {runs : List Run} {a b : Nat}

theorem Straight.eq_last (h : g.Straight a b) {r : Run} (hlinked : r.blocks.IsChain fun a b => ⟨a, b⟩ ∈ g.links)
    (hcold : ∀ c ∈ r.blocks, g.isCold c = g.runCold r) (ha : a ∈ r.blocks) : [a, b] <:+: r.blocks ∨ a = r.last := by
  obtain ⟨front, back, hsplit⟩ := List.append_of_mem ha
  cases back with
  | nil =>
    have hlast := r.getLast?_blocks
    rw [hsplit, List.getLast?_append] at hlast
    exact .inr (Option.some.inj hlast)
  | cons c back =>
    rw [hsplit] at hlinked
    have hlink := (List.isChain_append_cons_cons.1 hlinked).2.1
    have hc : c ∈ r.blocks := by simp [hsplit]
    cases h.onlyTarget c hlink ((hcold a ha).trans (hcold c hc).symm)
    exact .inl ⟨front, back, by simp [hsplit]⟩

theorem Straight.eq_head (h : g.Straight a b) {r : Run} (hlinked : r.blocks.IsChain fun a b => ⟨a, b⟩ ∈ g.links)
    (hcold : ∀ c ∈ r.blocks, g.isCold c = g.runCold r) (hb : b ∈ r.blocks) : [a, b] <:+: r.blocks ∨ b = r.head := by
  obtain ⟨front, back, hsplit⟩ := List.append_of_mem hb
  rcases List.eq_nil_or_concat front with rfl | ⟨front, c, rfl⟩
  · exact .inr (List.cons.inj hsplit).1.symm
  · rw [List.concat_eq_append, List.append_assoc] at hsplit
    rw [hsplit] at hlinked
    have hlink := (List.isChain_append_cons_cons.1 hlinked).2.1
    have hc : c ∈ r.blocks := by simp [hsplit]
    cases h.onlySource c hlink ((hcold c hc).trans (hcold b hb).symm)
    exact .inl ⟨front, back, by simp [hsplit]⟩

/-- **When no straight line is left, every straight pair is bound.** -/
theorem Threaded.bound (h : g.Threaded runs) (hg : g.Tidy) (hdiv : g.Divided runs)
    (hnone : g.straight? runs runs = none) (hs : g.Straight a b) : g.Bound runs a b := by
  obtain ⟨r, hr, ha⟩ := hdiv.exists_run (hg.source _ hs.link)
  obtain ⟨q, hq, hb⟩ := hdiv.exists_run (hg.target _ hs.link)
  rcases hs.eq_last (h.linked r hr) (hdiv.cold r hr) ha with hpair | hlast
  · exact ⟨r, hr, .inl hpair⟩
  rcases hs.eq_head (h.linked q hq) (hdiv.cold q hq) hb with hpair | hhead
  · exact ⟨q, hq, .inl hpair⟩
  -- links at the two ends are the pair's own
  have hleaves : ∀ l, g.Leaves r l → l = ⟨a, b⟩ := by
    rintro ⟨u, v⟩ hl
    have hu : u = a := (h.leaves r hr _ hl).trans hlast.symm
    subst hu
    rw [hs.onlyTarget v hl.1 hl.2.2.2]
  have henters : ∀ l, g.Enters q l → l = ⟨a, b⟩ := by
    rintro ⟨u, v⟩ hl
    have hv : v = b := (h.enters q hq _ hl).trans hhead.symm
    subst hv
    rw [hs.onlySource u hl.1 hl.2.2.2.symm]
  by_cases hrq : r = q
  · subst hrq
    refine ⟨r, hr, .inr ⟨r.blocks, List.infix_rfl, hhead ▸ rfl, hlast ▸ r.getLast?_blocks, h.linked r hr, ?_⟩⟩
    intro l hl hcold
    constructor
    · intro hin
      by_contra hout
      rw [hleaves l ⟨hl, hin, hout, hcold⟩] at hout
      exact hout hb
    · intro hin
      by_contra hout
      rw [henters l ⟨hl, hin, hout, hcold.symm⟩] at hout
      exact hout ha
  · have hmeets : g.Meets r q ⟨a, b⟩ := by
      refine ⟨fun x => ⟨hleaves x, ?_⟩, fun x => ⟨henters x, ?_⟩, hlast, hhead⟩
      · rintro rfl
        exact ⟨hs.link, ha, hdiv.not_mem hg.owners hq hr (Ne.symm hrq) hb, hs.cold⟩
      · rintro rfl
        exact ⟨hs.link, hb, hdiv.not_mem hg.owners hr hq hrq ha, hs.cold.symm⟩
    exact absurd hnone (straight?_ne_none hg hdiv hr hq hrq hmeets)

/-- A run is found, row for row, in the runs after a join. -/
theorem exists_infix_join {r x y : Run} (hr : r ∈ runs) : ∃ q ∈ join runs x y, r.blocks <:+: q.blocks := by
  unfold join
  by_cases hx : r = x
  · exact ⟨x.append y, by simp, [], y.blocks, by rw [hx, Run.blocks_append, List.nil_append]⟩
  by_cases hy : r = y
  · exact ⟨x.append y, by simp, x.blocks, [], by rw [hy, Run.blocks_append, List.append_nil]⟩
  · exact ⟨r, List.mem_append_left _ (List.mem_filter.2 ⟨hr, by simp [hx, hy]⟩), List.infix_rfl⟩

/-- **No join parts what is bound.** -/
theorem Bound.join (h : g.Bound runs a b) (x y : Run) : g.Bound (join runs x y) a b := by
  obtain ⟨r, hr, hbound⟩ := h
  obtain ⟨q, hq, hrow⟩ := exists_infix_join (x := x) (y := y) hr
  refine ⟨q, hq, hbound.imp (·.trans hrow) ?_⟩
  rintro ⟨ring, hring, h⟩
  exact ⟨ring, hring.trans hrow, h⟩

theorem length_join (hnd : runs.Nodup) {x y : Run} (hj : g.Joins runs x y) : (join runs x y).length + 1 = runs.length := by
  obtain ⟨hx, hy, hj⟩ := hj
  simp only [joinable, Bool.and_eq_true, bne_iff_ne] at hj
  rw [(perm_rest hnd hx hy hj.1).length_eq, SlotGraph.join]
  simp

/-- **Joining to the end binds every straight pair.**  Straight lines are joined first, so runs stay threaded until none
is left; from then on the pairs are bound. -/
theorem bound_joinTimes (hg : g.Tidy) (hs : g.Straight a b) : ∀ (fuel : Nat) (runs : List Run), g.Divided runs →
    runs.length ≤ fuel → g.Threaded runs ∨ g.Bound runs a b → g.Bound (g.joinTimes fuel runs) a b
  | 0, runs, hdiv, hfuel, _ => by
    obtain ⟨r, hr, -⟩ := hdiv.exists_run (hg.source _ hs.link)
    rw [List.length_eq_zero_iff.1 (Nat.le_zero.1 hfuel)] at hr
    cases hr
  | fuel + 1, runs, hdiv, hfuel, h => by
    have hbound : g.straight? runs runs = none → g.Bound runs a b :=
      fun hnone => h.elim (fun ht => ht.bound hg hdiv hnone hs) id
    unfold joinTimes
    split
    · rename_i x y hnext
      have hjoins := joins_of_nextJoin? hnext
      have hlength := length_join (hdiv.nodup hg.owners) hjoins
      refine bound_joinTimes hg hs fuel _ (hdiv.join hg.owners hjoins) (by omega) ?_
      cases hstraight : g.straight? runs runs with
      | none => exact .inr ((hbound hstraight).join x y)
      | some found =>
        rcases h with h | h
        · have hfound : found = (x, y) := by
            rw [nextJoin?, hstraight] at hnext
            exact Option.some.inj hnext
          rw [hfound] at hstraight
          obtain ⟨l, hmeets⟩ := meets_of_straight? hg hdiv hstraight
          exact .inl (h.join hjoins.1 hjoins.2.1 hmeets)
        · exact .inr (h.join x y)
    · rename_i hnext
      refine hbound ?_
      cases hstraight : g.straight? runs runs with
      | none => rfl
      | some found =>
        rw [nextJoin?, hstraight] at hnext
        cases hnext

theorem bound_joinAll (hg : g.Tidy) (hs : g.Straight a b) : g.Bound g.joinAll a b :=
  bound_joinTimes hg hs _ _ (divided_single g) (by simp) (.inl (threaded_single g))

end Straight

end SlotGraph

end CodeImage
