import CodeImage.Proofs.Schedule.Borders
import CodeImage.Schedule.Merging
/-!
# Rows — a forest seen as runs

The slots at the top stand for runs of blocks, and these divide the owners (`Standing.divided_rows`).  What a search asks of
a slot at the top can be asked of its run: its coldness, its weight, its ends, the links across its border
(`Mirrored.map_edgesOf`), whether an edge meets the ends of both its slots (`Mirrored.isBoundary_eq`), and whether an atomic
slot lies in a working set (`Mirrored.inSet_eq`).
-/
namespace CodeImage

theorem eraseDups_map {α β : Type} [BEq α] [LawfulBEq α] [BEq β] [LawfulBEq β] (f : α → β) : ∀ l : List α,
    (∀ a ∈ l, ∀ b ∈ l, f a = f b → a = b) → (l.map f).eraseDups = l.eraseDups.map f
  | [], _ => rfl
  | a :: l, hinj => by
    have hfilter : (l.map f).filter (fun y => !y == f a) = (l.filter fun b => !b == a).map f := by
      rw [List.filter_map]
      refine congrArg _ (List.filter_congr fun b hb => ?_)
      have hiff : f b = f a ↔ b = a :=
        ⟨hinj b (List.mem_cons_of_mem _ hb) a List.mem_cons_self, fun heq => heq ▸ rfl⟩
      rw [Function.comp_apply, Bool.eq_iff_iff]
      simp [hiff]
    rw [List.map_cons, List.eraseDups_cons, hfilter, List.eraseDups_cons, List.map_cons]
    rw [eraseDups_map f (l.filter fun b => !b == a) fun b hb c hc =>
      hinj b (List.mem_cons_of_mem _ (List.mem_filter.1 hb).1) c (List.mem_cons_of_mem _ (List.mem_filter.1 hc).1)]
termination_by l => l.length
decreasing_by
  exact Nat.lt_succ_of_le (List.length_filter_le _ _)

/-- The end of a link that lies outside when it is seen in the given direction. -/
def Link.far (outward : Bool) (l : Link) : Nat := if outward then l.target else l.source

theorem Run.eq_of_blocks {a b : Run} (h : a.blocks = b.blocks) : a = b := by
  obtain ⟨head, tail⟩ := a
  obtain ⟨head', tail'⟩ := b
  cases h
  rfl

namespace SlotGraph

theorem runWeight_append (g : SlotGraph) (a b : Run) : g.runWeight (a.append b) = max (g.runWeight a) (g.runWeight b) := by
  have hmax : ∀ (l : List Nat) (w v : Int), l.foldl (fun w b => max w (g.weight b)) (max w v) =
      max w (l.foldl (fun w b => max w (g.weight b)) v) := by
    intro l
    induction l with
    | nil => exact fun _ _ => rfl
    | cons b l ih =>
      intro w v
      rw [List.foldl_cons, List.foldl_cons, Int.max_assoc, ih]
  rw [runWeight, Run.append, List.foldl_append, Run.blocks, List.foldl_cons, hmax]
  rfl

/-- The links of a run in one direction. -/
def linksOf (g : SlotGraph) (outward : Bool) (r : Run) : List Link := if outward then g.outbound r else g.inbound r

end SlotGraph

open Border (endsAt borders)

namespace SlotForest

/-- The link that an edge stands for. -/
def link (f : SlotForest) (p : Nat × Nat) : Link := ⟨f.blockOf p.1, f.blockOf p.2⟩

/-- **A forest under way**, whose slots at the top can be read as runs. -/
structure Mirrored (g : SlotGraph) (f : SlotForest) : Prop where
  tidy : g.Tidy
  standing : Standing g f
  bordered : Bordered g f

section Standing

variable {g : SlotGraph} {f : SlotForest} {i j t u : Nat}

theorem getElem?_owners (hg : Grown g f.slots) (hi : i < g.owners.length) : g.owners[i]? = some (f.blockOf i) := by
  rw [List.getElem?_eq_getElem hi, blockOf_atom hg (List.getElem?_eq_getElem hi)]

theorem map_blockOf_range (hg : Grown g f.slots) : (List.range g.owners.length).map f.blockOf = g.owners := by
  refine List.ext_getElem? fun i => ?_
  by_cases hi : i < g.owners.length
  · rw [List.getElem?_map, List.getElem?_range hi, getElem?_owners hg hi]
    rfl
  · rw [List.getElem?_eq_none (by simpa using hi), List.getElem?_eq_none (by simpa using hi)]

theorem isCold_blockOf (hg : Grown g f.slots) (hi : i < g.owners.length) : g.isCold (f.blockOf i) = f.isCold i :=
  (isCold_atom hg (getElem?_owners hg hi)).symm

theorem blockOf_inj (hg : Grown g f.slots) (hnd : g.owners.Nodup) (hi : i < g.owners.length) (hj : j < g.owners.length) :
    f.blockOf i = f.blockOf j ↔ i = j := by
  refine ⟨fun heq => ?_, fun heq => heq ▸ rfl⟩
  exact (List.getElem?_inj hi hnd).1 (by rw [getElem?_owners hg hi, getElem?_owners hg hj, heq])

theorem blocks_row_of_slot (hg : Grown g f.slots) {s : Nat} {x : Slot} (hx : f.slots[s]? = some x) :
    (f.row s).blocks = (f.enumerate s).map f.blockOf := by
  unfold row
  split
  · rename_i b blocks heq
    exact heq.symm
  · rename_i heq
    rw [List.map_eq_nil_iff] at heq
    have hhead := (ends_enumerate hg hx).1
    rw [heq] at hhead
    cases hhead

theorem row_made (hg : Grown g f.slots) {c : Nat} {x : Slot} {a : Nat} {xa : Slot} {b : Nat} {xb : Slot}
    (hx : f.slots[c]? = some x) (h : Made f.slots c x a xa b xb) : f.row c = (f.row a).append (f.row b) := by
  refine Run.eq_of_blocks ?_
  rw [Run.blocks_append, blocks_row_of_slot hg hx, enumerate_made hg hx h, List.map_append, blocks_row_of_slot hg h.left,
    blocks_row_of_slot hg h.right]

/-- Slots are as heavy as their runs. -/
theorem runWeight_row (hg : Grown g f.slots) {s : Nat} {x : Slot} (hx : f.slots[s]? = some x) :
    g.runWeight (f.row s) = x.weight := by
  refine hg.induct (P := fun s x => g.runWeight (f.row s) = x.weight) ?_ ?_ hx
  · intro i b x hi hx heq
    have hrow : f.row i = Run.single b := Run.eq_of_blocks (by
      rw [blocks_row_of_slot hg hx, enumerate_atom hg (List.getElem?_eq_some_iff.1 hi).1, List.map_singleton,
        blockOf_atom hg hi]
      rfl)
    rw [hrow, heq]
    rfl
  · intro c x a xa b xb hx hmade iha ihb
    rw [row_made hg hx hmade, SlotGraph.runWeight_append, iha, ihb, hmade.eq]

variable (h : Standing g f)

include h

theorem Standing.blocks_row (ht : t ∈ f.tops) : (f.row t).blocks = (f.enumerate t).map f.blockOf := by
  obtain ⟨x, hx, -⟩ := h.exists_slot ht
  exact blocks_row_of_slot h.grown hx

theorem Standing.getLast?_enumerate (ht : t ∈ f.tops) : (f.enumerate t).getLast? = some (f.lastOf t) := by
  obtain ⟨x, hx, -⟩ := h.exists_slot ht
  rw [(ends_enumerate h.grown hx).2, lastOf, hx]
  rfl

theorem Standing.head?_enumerate (ht : t ∈ f.tops) : (f.enumerate t).head? = some (f.firstOf t) := by
  obtain ⟨x, hx, -⟩ := h.exists_slot ht
  rw [(ends_enumerate h.grown hx).1, firstOf, hx]
  rfl

theorem Standing.head_row (ht : t ∈ f.tops) : (f.row t).head = f.blockOf (f.firstOf t) := by
  have hhead : (f.row t).blocks.head? = some (f.row t).head := rfl
  rw [h.blocks_row ht, List.head?_map, h.head?_enumerate ht] at hhead
  exact (Option.some.inj hhead).symm

theorem Standing.last_row (ht : t ∈ f.tops) : (f.row t).last = f.blockOf (f.lastOf t) := by
  have hlast : (f.row t).blocks.getLast? = some (f.row t).last := List.getLast?_cons
  rw [h.blocks_row ht, List.getLast?_map, h.getLast?_enumerate ht] at hlast
  exact (Option.some.inj hlast).symm

theorem Standing.firstOf_mem (ht : t ∈ f.tops) : f.firstOf t ∈ f.enumerate t := List.mem_of_head? (h.head?_enumerate ht)

theorem Standing.lastOf_mem (ht : t ∈ f.tops) : f.lastOf t ∈ f.enumerate t := List.mem_of_getLast? (h.getLast?_enumerate ht)

theorem Standing.runCold_row (ht : t ∈ f.tops) : g.runCold (f.row t) = f.isCold t := by
  obtain ⟨x, hx, -⟩ := h.exists_slot ht
  have hfirst := h.firstOf_mem ht
  rw [SlotGraph.runCold, h.head_row ht, isCold_blockOf h.grown (h.atom_lt ht hfirst).1,
    isCold_of_mem_enumerate h.grown hx hfirst]

/-- **The runs of the slots at the top divide the owners.** -/
theorem Standing.divided_rows : g.Divided f.rows := by
  refine ⟨?_, fun r hr b hb => ?_⟩
  · have hflat : f.rows.flatMap Run.blocks = (f.tops.flatMap f.enumerate).map f.blockOf := by
      rw [rows, List.flatMap_map, List.map_flatMap]
      exact List.flatMap_congr fun t ht => h.blocks_row ht
    rw [hflat]
    exact (h.perm.map f.blockOf).trans (.of_eq (map_blockOf_range h.grown))
  · obtain ⟨t, ht, rfl⟩ := List.mem_map.1 hr
    rw [h.blocks_row ht] at hb
    obtain ⟨i, hi, rfl⟩ := List.mem_map.1 hb
    obtain ⟨x, hx, -⟩ := h.exists_slot ht
    rw [h.runCold_row ht, isCold_blockOf h.grown (h.atom_lt ht hi).1, isCold_of_mem_enumerate h.grown hx hi]

theorem Standing.weightOf_eq (ht : t ∈ f.tops) : f.weightOf t = g.runWeight (f.row t) := by
  obtain ⟨x, hx, -⟩ := h.exists_slot ht
  rw [runWeight_row h.grown hx, weightOf, hx]
  rfl

theorem Standing.has_row (hnd : g.owners.Nodup) (ht : t ∈ f.tops) (hi : i < g.owners.length) :
    (f.row t).has (f.blockOf i) = decide (i ∈ f.enumerate t) := by
  rw [Bool.eq_iff_iff, Run.has, h.blocks_row ht, List.contains_iff_mem, List.mem_map, decide_eq_true_eq]
  constructor
  · rintro ⟨j, hj, heq⟩
    exact (blockOf_inj h.grown hnd (h.atom_lt ht hj).1 hi).1 heq ▸ hj
  · exact fun hmem => ⟨i, hmem, rfl⟩

theorem Standing.row_inj (hnd : g.owners.Nodup) (ht : t ∈ f.tops) (hu : u ∈ f.tops) : f.row t = f.row u ↔ t = u := by
  refine ⟨fun heq => ?_, fun heq => heq ▸ rfl⟩
  have hfirst := h.firstOf_mem ht
  have hlt := (h.atom_lt ht hfirst).1
  have hmem := h.has_row hnd hu hlt
  rw [← heq, h.has_row hnd ht hlt, decide_eq_true hfirst, eq_comm, decide_eq_true_eq] at hmem
  exact h.eq_of_mem ht hu hfirst hmem

theorem Standing.bne_row (hnd : g.owners.Nodup) (ht : t ∈ f.tops) (hu : u ∈ f.tops) : (f.row t != f.row u) = (t != u) := by
  rw [Bool.eq_iff_iff, bne_iff_ne, bne_iff_ne, Ne, Ne, h.row_inj hnd ht hu]

theorem Standing.runOf_rows (hnd : g.owners.Nodup) (ht : t ∈ f.tops) (hi : i ∈ f.enumerate t) :
    runOf f.rows (f.blockOf i) = some (f.row t) := by
  refine h.divided_rows.runOf_eq hnd (List.mem_map_of_mem ht) ?_
  rw [h.blocks_row ht]
  exact List.mem_map_of_mem hi

end Standing

/-! ## Edges and links -/

section Links

variable {g : SlotGraph} {f : SlotForest}

theorem exists_slotOf (hgrown : Grown g f.slots) {b : Nat} (hb : b ∈ g.owners) : ∃ i, g.slotOf b = some i ∧ f.blockOf i = b := by
  obtain ⟨i, hi⟩ := Option.isSome_iff_exists.1 (List.isSome_idxOf?.2 hb)
  obtain ⟨hlt, heq, -⟩ := List.idxOf?_eq_some_iff.1 hi
  exact ⟨i, hi, by rw [blockOf_atom hgrown (List.getElem?_eq_getElem hlt), heq]⟩

/-- The slots at the two ends of a passage lead back to its owners; those of a passage to itself are not distinct. -/
theorem filter_passages (hgrown : Grown g f.slots) : ∀ (l : List Link),
    (∀ x ∈ l, x.source ≠ x.target → x.source ∈ g.owners ∧ x.target ∈ g.owners) →
    l.filter (fun x => x.source != x.target) = ((l.filterMap g.slotsOf).filter fun p => p.1 != p.2).map f.link
  | [], _ => rfl
  | x :: l, hl => by
    have ih := filter_passages hgrown l fun y hy => hl y (List.mem_cons_of_mem _ hy)
    by_cases hx : x.source = x.target
    · rw [List.filter_cons_of_neg (by simpa using hx), ih, List.filterMap_cons, SlotGraph.slotsOf, hx]
      cases g.slotOf x.target with
      | none => rfl
      | some d => simp
    · obtain ⟨hs, hd⟩ := hl x List.mem_cons_self hx
      obtain ⟨s, hs, hbs⟩ := exists_slotOf hgrown hs
      obtain ⟨d, hd, hbd⟩ := exists_slotOf hgrown hd
      have hsd : s ≠ d := by
        rintro rfl
        exact hx (hbs.symm.trans hbd)
      rw [List.filter_cons_of_pos (by simpa using hx), ih, List.filterMap_cons, SlotGraph.slotsOf, hs, hd]
      simp [hsd, link, hbs, hbd]

theorem links_eq (hg : g.Tidy) (hgrown : Grown g f.slots) : g.links = g.pairs.map f.link := by
  have hends : ∀ x ∈ g.passages, x.source ≠ x.target → x.source ∈ g.owners ∧ x.target ∈ g.owners := by
    intro x hx hne
    have hmem : x ∈ g.links := List.mem_eraseDups.2 (List.mem_filter.2 ⟨hx, by simpa using hne⟩)
    exact ⟨hg.source x hmem, hg.target x hmem⟩
  rw [SlotGraph.links, filter_passages hgrown g.passages hends]
  refine eraseDups_map f.link _ fun p hp q hq heq => ?_
  obtain ⟨hps, hpd⟩ := SlotGraph.lt_of_mem_connections (List.mem_filter.1 hp).1
  obtain ⟨hqs, hqd⟩ := SlotGraph.lt_of_mem_connections (List.mem_filter.1 hq).1
  obtain ⟨hs, hd⟩ := Link.mk.inj heq
  exact Prod.ext ((blockOf_inj hgrown hg.owners hps hqs).1 hs) ((blockOf_inj hgrown hg.owners hpd hqd).1 hd)

theorem endsAt_filter (pairs : List (Nat × Nat)) (outward : Bool) (i : Nat) :
    (endsAt pairs i).filter (·.outward == outward) =
      (pairs.filter fun p => (if outward then p.1 else p.2) == i).map fun p => ⟨p.1, p.2, outward⟩ := by
  induction pairs with
  | nil => rfl
  | cons p pairs ih =>
    have hcons : endsAt (p :: pairs) i = ((if p.1 = i then [⟨p.1, p.2, true⟩] else []) ++
        if p.2 = i then [⟨p.1, p.2, false⟩] else []) ++ endsAt pairs i := List.flatMap_cons
    rw [hcons, List.filter_append, ih]
    cases outward with
    | true => by_cases hs : p.1 = i <;> by_cases hd : p.2 = i <;> simp [hs, hd]
    | false => by_cases hs : p.1 = i <;> by_cases hd : p.2 = i <;> simp [hs, hd]

theorem borders_filter (pairs : List (Nat × Nat)) (outward : Bool) (atoms : List Nat) :
    (borders pairs atoms).filter (·.outward == outward) =
      ((atoms.flatMap fun i => pairs.filter fun p => (if outward then p.1 else p.2) == i).filter fun p =>
        (if outward then p.2 else p.1) ∉ atoms).map fun p => ⟨p.1, p.2, outward⟩ := by
  have hmap : (atoms.flatMap (endsAt pairs)).filter (·.outward == outward) =
      (atoms.flatMap fun i => pairs.filter fun p => (if outward then p.1 else p.2) == i).map fun p => ⟨p.1, p.2, outward⟩ := by
    rw [List.filter_flatMap, List.map_flatMap]
    exact List.flatMap_congr fun i _ => endsAt_filter pairs outward i
  rw [borders, List.filter_comm, hmap, List.filter_map]
  rfl

namespace Mirrored

variable (h : Mirrored g f) {t : Nat} (ht : t ∈ f.tops) {outward : Bool}

include h ht

/-- What is known of an edge that a slot at the top holds. -/
theorem exists_border {e : SlotEdge} (he : e ∈ f.edgesOf t outward) : (e.source, e.target) ∈ g.pairs ∧ e.outward = outward ∧
    e.far ∉ f.enumerate t ∧ ∀ v ∈ f.tops, ∀ w ∈ f.tops, e.source ∈ f.enumerate v → e.target ∈ f.enumerate w → v ≠ w ∧
      e.sourceInternal = (e.source != f.lastOf v) ∧ e.targetInternal = (e.target != f.firstOf w) := by
  obtain ⟨marks, hlists, hmarks⟩ := h.bordered
  rw [edgesOf, hlists.edges t ht, Option.getD_some, List.mem_filter, beq_iff_eq] at he
  obtain ⟨hmem, houtward⟩ := he
  obtain ⟨x, hx, rfl⟩ := List.mem_map.1 hmem
  obtain ⟨hpair, hnear, hfar⟩ := Border.mem_borders.1 hx
  refine ⟨hpair, houtward, hfar, fun v hv w hw hs hd => ?_⟩
  have hne : v ≠ w := by
    rintro rfl
    have hends : x.near ∈ f.enumerate v ∧ x.far ∈ f.enumerate v := by
      obtain ⟨s, d, o⟩ := x
      cases o with
      | true => exact ⟨hs, hd⟩
      | false => exact ⟨hd, hs⟩
    exact hfar (h.standing.eq_of_mem hv ht hends.1 hnear ▸ hends.2)
  have hright := hmarks _ hpair v hv w hw hs hd hne
  exact ⟨hne, congrArg Prod.fst hright, congrArg Prod.snd hright⟩

theorem far_lt_of_mem {e : SlotEdge} (he : e ∈ f.edgesOf t outward) : e.far < g.owners.length := by
  obtain ⟨hpair, -⟩ := h.exists_border ht he
  obtain ⟨hs, hd⟩ := lt_of_mem_pairs hpair
  unfold SlotEdge.far
  split
  · exact hd
  · exact hs

theorem far_link {e : SlotEdge} (he : e ∈ f.edgesOf t outward) :
    (f.link (e.source, e.target)).far outward = f.blockOf e.far := by
  obtain ⟨-, houtward, -⟩ := h.exists_border ht he
  rw [SlotEdge.far, houtward, Link.far, link]
  cases outward <;> rfl

/-- **The edges of a slot at the top are the links of its run.** -/
theorem map_edgesOf : (f.edgesOf t outward).map (fun e => f.link (e.source, e.target)) = g.linksOf outward (f.row t) := by
  obtain ⟨marks, hlists, -⟩ := h.bordered
  have hnd := h.tidy.owners
  have hgrown := h.standing.grown
  have hedges : (f.edgesOf t outward).map (fun e => f.link (e.source, e.target)) =
      ((borders g.pairs (f.enumerate t)).filter (·.outward == outward)).map fun x => f.link x.pair := by
    rw [edgesOf, hlists.edges t ht, Option.getD_some, List.filter_map, List.map_map]
    rfl
  rw [hedges, borders_filter, List.map_map, SlotGraph.linksOf, SlotGraph.outbound, SlotGraph.inbound,
    links_eq h.tidy hgrown, h.standing.blocks_row ht]
  have hnear : ∀ (pick : Nat × Nat → Nat) (near : Link → Nat), (∀ p, near (f.link p) = f.blockOf (pick p)) →
      (∀ p ∈ g.pairs, pick p < g.owners.length) →
      ((f.enumerate t).map f.blockOf).flatMap (fun b => (g.pairs.map f.link).filter (near · == b)) =
        ((f.enumerate t).flatMap fun i => g.pairs.filter fun p => pick p == i).map f.link := by
    intro pick near hpick hlt
    rw [List.flatMap_map, List.map_flatMap]
    refine List.flatMap_congr fun i hi => ?_
    rw [List.filter_map]
    refine congrArg _ (List.filter_congr fun p hp => ?_)
    rw [Function.comp_apply, hpick, Bool.eq_iff_iff, beq_iff_eq, beq_iff_eq,
      blockOf_inj hgrown hnd (hlt p hp) (h.standing.atom_lt ht hi).1]
  have hfar : ∀ (pick : Nat × Nat → Nat) (far : Link → Nat), (∀ p, far (f.link p) = f.blockOf (pick p)) →
      (∀ p ∈ g.pairs, pick p < g.owners.length) → ∀ l : List (Nat × Nat), (∀ p ∈ l, p ∈ g.pairs) →
      (l.map f.link).filter (fun x => !(f.row t).has (far x)) = (l.filter fun p => pick p ∉ f.enumerate t).map f.link := by
    intro pick far hpick hlt l hl
    rw [List.filter_map]
    refine congrArg _ (List.filter_congr fun p hp => ?_)
    rw [Function.comp_apply, hpick, h.standing.has_row hnd ht (hlt p (hl p hp)), decide_not]
  have hsub : ∀ (pick : Nat × Nat → Nat), ∀ p ∈ (f.enumerate t).flatMap fun i => g.pairs.filter fun p => pick p == i,
      p ∈ g.pairs := by
    intro pick p hp
    obtain ⟨i, -, hp⟩ := List.mem_flatMap.1 hp
    exact (List.mem_filter.1 hp).1
  cases outward with
  | true =>
    rw [if_pos rfl, hnear Prod.fst Link.source (fun _ => rfl) fun p hp => (lt_of_mem_pairs hp).1,
      hfar Prod.snd Link.target (fun _ => rfl) (fun p hp => (lt_of_mem_pairs hp).2) _ (hsub Prod.fst)]
    rfl
  | false =>
    rw [if_neg (by decide), hnear Prod.snd Link.target (fun _ => rfl) fun p hp => (lt_of_mem_pairs hp).2,
      hfar Prod.fst Link.source (fun _ => rfl) (fun p hp => (lt_of_mem_pairs hp).1) _ (hsub Prod.snd)]
    rfl

/-- **An edge is at the boundary when its link meets the ends of both runs.** -/
theorem isBoundary_eq {e : SlotEdge} (he : e ∈ f.edgesOf t outward) :
    e.isBoundary = (f.link (e.source, e.target)).meetsEnds f.rows := by
  have hnd := h.tidy.owners
  obtain ⟨hpair, -, -, hflags⟩ := h.exists_border ht he
  obtain ⟨hs, hd⟩ := lt_of_mem_pairs hpair
  obtain ⟨v, hv, hsv⟩ := h.standing.exists_top hs
  obtain ⟨w, hw, hdw⟩ := h.standing.exists_top hd
  obtain ⟨-, hsource, htarget⟩ := hflags v hv w hw hsv hdw
  have hlast := (h.standing.atom_lt hv (h.standing.lastOf_mem hv)).1
  have hfirst := (h.standing.atom_lt hw (h.standing.firstOf_mem hw)).1
  have hbeq : ∀ {i j : Nat}, i < g.owners.length → j < g.owners.length →
      (f.blockOf i == f.blockOf j) = (i == j) := by
    intro i j hi hj
    rw [Bool.eq_iff_iff, beq_iff_eq, beq_iff_eq, blockOf_inj h.standing.grown hnd hi hj]
  rw [SlotEdge.isBoundary, hsource, htarget, Link.meetsEnds, link, h.standing.runOf_rows hnd hv hsv,
    h.standing.runOf_rows hnd hw hdw, Option.any_some, Option.any_some, h.standing.last_row hv, h.standing.head_row hw,
    hbeq hlast hs, hbeq hfirst hd, bne, bne, Bool.not_not, Bool.not_not, BEq.comm (a := e.source), BEq.comm (a := e.target)]

end Mirrored

/-! ## Working sets -/

theorem inSet_iff (hg : Grown g f.slots) (set : List Nat) : ∀ (fuel : Nat) {s : Nat}, s < f.slots.size →
    f.slots.size ≤ s + fuel → (f.inSet set fuel s = true ↔ ∃ t ∈ set, Within f.slots s t)
  | 0, s, hs, hfuel => by omega
  | fuel + 1, s, hs, hfuel => by
    have hstep : (∃ t ∈ set, Within f.slots s t) ↔ s ∈ set ∨ ∃ p, IsParent f.slots s p ∧ ∃ t ∈ set, Within f.slots p t := by
      constructor
      · rintro ⟨t, ht, hw⟩
        rcases hw.cases_head with rfl | ⟨p, hp, hw⟩
        · exact .inl ht
        · exact .inr ⟨p, hp, t, ht, hw⟩
      · rintro (hmem | ⟨p, hp, t, ht, hw⟩)
        · exact ⟨s, hmem, .refl⟩
        · exact ⟨t, ht, hw.head hp⟩
    rw [inSet, Bool.or_eq_true, List.contains_iff_mem, hstep]
    refine or_congr_right ?_
    split
    · rename_i p hp
      obtain ⟨x, hx, hparent⟩ := Option.bind_eq_some_iff.1 hp
      obtain ⟨hlt, hsize⟩ := hg.lt_of_isParent ⟨x, hx, hparent⟩
      rw [inSet_iff hg set fuel hsize (by omega)]
      refine ⟨fun hex => ⟨p, ⟨x, hx, hparent⟩, hex⟩, ?_⟩
      rintro ⟨q, ⟨y, hy, hq⟩, hex⟩
      cases hx.symm.trans hy
      cases hparent.symm.trans hq
      exact hex
    · rename_i hnone
      refine ⟨fun hfalse => absurd hfalse (by decide), ?_⟩
      rintro ⟨q, ⟨y, hy, hq⟩, -⟩
      rw [hy, Option.bind_some, hq] at hnone
      cases hnone

theorem Mirrored.inSet_eq (h : Mirrored g f) {set : List Nat} (hset : set ⊆ f.tops) {i : Nat} (hi : i < g.owners.length) :
    f.inSet set f.slots.size i = (set.map f.row).any (·.has (f.blockOf i)) := by
  obtain ⟨parent, hatom⟩ := h.standing.grown.atom (getElem?_owners h.standing.grown hi)
  rw [Bool.eq_iff_iff, inSet_iff h.standing.grown set _ (Array.getElem?_eq_some_iff.1 hatom).1 (by omega), List.any_map,
    List.any_eq_true]
  refine exists_congr fun t => and_congr_right fun ht => ?_
  rw [Function.comp_apply, h.standing.has_row h.tidy.owners (hset ht) hi, decide_eq_true_eq]
  have htop := (h.standing.tops t).1 (hset ht)
  rw [← root_iff_mem_enumerate h.standing.grown hi htop]
  exact ⟨fun hw => ⟨hw, htop⟩, fun hr => hr.within⟩

end Links

end SlotForest

end CodeImage
