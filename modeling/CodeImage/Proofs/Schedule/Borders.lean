import CodeImage.Proofs.Flow.Reachability
import CodeImage.Proofs.Schedule.Forest
/-!
# Borders — what slots at the top know of the edges between them

A `Border` is an edge as seen from one of its ends.  The borders of a slot at the top are the edges between its atomic slots
and others, by its atomic slots from left to right (`borders`).  `Bordered` says that every slot at the top holds just these,
each once, and that their marks are right: the source is marked where it is not the last of its slot, the target where it
is not the first of its.  The forest starts so (`tells_plant`), and a merge keeps it so: the edges of the two slots are
connected anew one by one, each of them refreshes its mirror image at the slot on the other side, and edges between the two
vanish (`Bordered.merge`).
-/
namespace CodeImage

/-- **An edge as seen from one of its ends.** -/
structure Border where
  source : Nat
  target : Nat
  outward : Bool
  deriving DecidableEq, Repr

namespace Border

def near (b : Border) : Nat := if b.outward then b.source else b.target

def far (b : Border) : Nat := if b.outward then b.target else b.source

def pair (b : Border) : Nat × Nat := (b.source, b.target)

/-- The same edge from its other end. -/
def mirror (b : Border) : Border := { b with outward := !b.outward }

/-- The edge with its marks. -/
def marked (marks : Nat × Nat → Bool × Bool) (b : Border) : SlotEdge :=
  ⟨b.source, b.target, b.outward, (marks b.pair).1, (marks b.pair).2⟩

/-- Put a border behind others, unless it is among them. -/
def put (l : List Border) (b : Border) : List Border := if b ∈ l then l else l ++ [b]

theorem nodup_put {l : List Border} (h : l.Nodup) (b : Border) : (put l b).Nodup := by
  unfold put
  split
  · exact h
  · rename_i hb
    rw [List.nodup_append]
    exact ⟨h, List.nodup_singleton _, fun x hx y hy heq => hb (List.mem_singleton.1 hy ▸ heq ▸ hx)⟩

theorem mem_of_mem_put {l : List Border} {b x : Border} (h : x ∈ put l b) : x ∈ l ∨ x = b := by
  unfold put at h
  split at h
  · exact .inl h
  · simpa using h

/-- **Recording an edge adds its border or refreshes its marks.** -/
theorem record_map {marks marks' : Nat × Nat → Bool × Bool} (b : Border) : ∀ l : List Border, l.Nodup →
    (∀ x ∈ l, x ≠ b → marks x.pair = marks' x.pair) →
    SlotEdge.record (l.map (marked marks)) (b.marked marks') = (put l b).map (marked marks')
  | [], _, _ => rfl
  | x :: l, hnd, hmarks => by
    obtain ⟨hx, hnd⟩ := List.nodup_cons.1 hnd
    by_cases hxb : x = b
    · subst hxb
      have hrest : l.map (marked marks) = l.map (marked marks') :=
        List.map_congr_left fun y hy => by
          rw [marked, marked, hmarks y (List.mem_cons_of_mem _ hy) (fun heq => hx (heq ▸ hy))]
      rw [put, if_pos List.mem_cons_self, List.map_cons, List.map_cons, ← hrest]
      simp [SlotEdge.record, marked]
    · have hkey : ((x.marked marks).source == (b.marked marks').source && (x.marked marks).target == (b.marked marks').target &&
          (x.marked marks).outward == (b.marked marks').outward) = false := by
        rw [← Bool.not_eq_true]
        intro h
        simp only [marked, Bool.and_eq_true, beq_iff_eq] at h
        exact hxb (by cases x; cases b; simp_all)
      have hput : put (x :: l) b = x :: put l b := by
        simp only [put, List.mem_cons, Ne.symm hxb, false_or]
        split <;> rfl
      rw [List.map_cons, SlotEdge.record, hkey, if_neg (by decide),
        record_map b l hnd fun y hy => hmarks y (List.mem_cons_of_mem _ hy), hput, List.map_cons]
      simp only [marked, hmarks x List.mem_cons_self hxb]

/-! ## The borders of atomic slots -/

/-- The borders of one atomic slot. -/
def endsAt (pairs : List (Nat × Nat)) (i : Nat) : List Border :=
  pairs.flatMap fun p => (if p.1 = i then [⟨p.1, p.2, true⟩] else []) ++ if p.2 = i then [⟨p.1, p.2, false⟩] else []

/-- **The borders of a slot** with the given atomic slots. -/
def borders (pairs : List (Nat × Nat)) (atoms : List Nat) : List Border :=
  (atoms.flatMap (endsAt pairs)).filter fun b => b.far ∉ atoms

section Borders

variable {pairs : List (Nat × Nat)} {atoms : List Nat} {b : Border}

theorem mem_endsAt {i : Nat} : b ∈ endsAt pairs i ↔ b.pair ∈ pairs ∧ b.near = i := by
  obtain ⟨s, d, outward⟩ := b
  simp only [endsAt, List.mem_flatMap, List.mem_append, pair, near]
  constructor
  · rintro ⟨⟨s', d'⟩, hp, h | h⟩
    · split at h
      · cases List.mem_singleton.1 h
        exact ⟨hp, ‹_›⟩
      · cases h
    · split at h
      · cases List.mem_singleton.1 h
        exact ⟨hp, ‹_›⟩
      · cases h
  · rintro ⟨hp, hi⟩
    refine ⟨_, hp, ?_⟩
    cases outward with
    | true => exact .inl (by rw [if_pos (by simpa using hi)]; exact List.mem_singleton.2 rfl)
    | false => exact .inr (by rw [if_pos (by simpa using hi)]; exact List.mem_singleton.2 rfl)

theorem mem_borders : b ∈ borders pairs atoms ↔ b.pair ∈ pairs ∧ b.near ∈ atoms ∧ b.far ∉ atoms := by
  simp only [borders, List.mem_filter, List.mem_flatMap, mem_endsAt, decide_eq_true_eq]
  constructor
  · rintro ⟨⟨i, hi, hpair, rfl⟩, hfar⟩
    exact ⟨hpair, hi, hfar⟩
  · rintro ⟨hpair, hnear, hfar⟩
    exact ⟨⟨_, hnear, hpair, rfl⟩, hfar⟩

theorem nodup_endsAt (hpairs : pairs.Nodup) (i : Nat) : (endsAt pairs i).Nodup := by
  refine List.nodup_flatMap.2 ⟨fun p _ => ?_, hpairs.imp fun {p q} hpq b hp hq => hpq ?_⟩
  · split <;> split <;> simp
  · have hpair : ∀ {r : Nat × Nat}, b ∈ ((if r.1 = i then [(⟨r.1, r.2, true⟩ : Border)] else []) ++
        if r.2 = i then [⟨r.1, r.2, false⟩] else []) → b.pair = r := by
      intro r hr
      rcases List.mem_append.1 hr with hr | hr
      · split at hr
        · cases List.mem_singleton.1 hr
          rfl
        · cases hr
      · split at hr
        · cases List.mem_singleton.1 hr
          rfl
        · cases hr
    exact (hpair hp).symm.trans (hpair hq)

theorem nodup_borders (hpairs : pairs.Nodup) (hatoms : atoms.Nodup) : (borders pairs atoms).Nodup := by
  refine List.Nodup.filter _ (List.nodup_flatMap.2 ⟨fun i _ => nodup_endsAt hpairs i, hatoms.imp fun {i j} hij b hi hj => ?_⟩)
  exact hij ((mem_endsAt.1 hi).2.symm.trans (mem_endsAt.1 hj).2)

/-- The borders of two slots next to each other are those of both, without the edges between them. -/
theorem borders_append (as bs : List Nat) :
    borders pairs (as ++ bs) = (borders pairs as ++ borders pairs bs).filter fun b => b.far ∉ as ++ bs := by
  simp only [borders, List.flatMap_append, List.filter_append, List.filter_filter]
  congr 1
  · exact List.filter_congr fun b _ => by grind
  · exact List.filter_congr fun b _ => by grind

/-- The borders of an atomic slot. -/
theorem borders_singleton (hpairs : ∀ p ∈ pairs, p.1 ≠ p.2) (i : Nat) : borders pairs [i] = endsAt pairs i := by
  rw [borders, List.flatMap_singleton, List.filter_eq_self]
  intro b hb
  obtain ⟨hpair, rfl⟩ := mem_endsAt.1 hb
  have hne := hpairs _ hpair
  obtain ⟨s, d, outward⟩ := b
  cases outward with
  | true => simpa [far, near, pair] using Ne.symm hne
  | false => simpa [far, near, pair] using hne

/-- Seen from its other end, an edge is a border of the slot there. -/
theorem mirror_mem_borders (hpair : b.pair ∈ pairs) (hfar : b.far ∈ atoms) (hnear : b.near ∉ atoms) :
    b.mirror ∈ borders pairs atoms := by
  obtain ⟨s, d, outward⟩ := b
  cases outward with
  | true => exact mem_borders.2 ⟨hpair, hfar, hnear⟩
  | false => exact mem_borders.2 ⟨hpair, hfar, hnear⟩

theorem ends_mem (hnear : b.near ∈ atoms) (hfar : b.far ∈ atoms) : b.source ∈ atoms ∧ b.target ∈ atoms := by
  obtain ⟨s, d, outward⟩ := b
  cases outward with
  | true => exact ⟨hnear, hfar⟩
  | false => exact ⟨hfar, hnear⟩

end Borders

end Border

open Border (marked endsAt borders put)

namespace SlotForest

/-! ## One edge -/

/-- The slots at the top hold these borders, each once, with these marks. -/
structure Lists (f : SlotForest) (of : Nat → List Border) (marks : Nat × Nat → Bool × Bool) : Prop where
  size : f.edges.size = f.slots.size
  edges : ∀ t ∈ f.tops, f.edges[t]? = some ((of t).map (marked marks))
  nodup : ∀ t ∈ f.tops, (of t).Nodup
  near : ∀ t ∈ f.tops, ∀ b ∈ of t, b.near ∈ f.enumerate t

/-- **The marks of an edge are right**: the source is marked where it is not the last of its slot at the top, the target
where it is not the first of its. -/
def Marks (f : SlotForest) (marks : Nat × Nat → Bool × Bool) (p : Nat × Nat) : Prop :=
  ∀ t ∈ f.tops, ∀ u ∈ f.tops, p.1 ∈ f.enumerate t → p.2 ∈ f.enumerate u → t ≠ u →
    marks p = (p.1 != f.lastOf t, p.2 != f.firstOf u)

/-- The borders after an edge from a slot at the top to another has been recorded. -/
def heard (of : Nat → List Border) (t u : Nat) (p : Nat × Nat) (v : Nat) : List Border :=
  if v = t then put (of v) ⟨p.1, p.2, true⟩ else if v = u then put (of v) ⟨p.1, p.2, false⟩ else of v

section Connect

variable {g : SlotGraph} {f : SlotForest} {t u s d : Nat} {of : Nat → List Border} {marks : Nat × Nat → Bool × Bool}

theorem Standing.mem_enumerate_of_root (h : Standing g f) (hs : s < g.owners.length) {r : Nat} (hr : Root f.slots s r) :
    r ∈ f.tops ∧ s ∈ f.enumerate r :=
  ⟨(h.tops r).2 hr.atTop, (root_iff_mem_enumerate h.grown hs hr.atTop).1 hr⟩

theorem Standing.atom_lt (h : Standing g f) (ht : t ∈ f.tops) (hs : s ∈ f.enumerate t) :
    s < g.owners.length ∧ s < f.slots.size := by
  obtain ⟨x, hx, -⟩ := h.exists_slot ht
  have hlt := lt_of_mem_enumerate h.grown hx hs
  obtain ⟨parent, hatom⟩ := h.grown.atom (List.getElem?_eq_getElem hlt)
  exact ⟨hlt, (Array.getElem?_eq_some_iff.1 hatom).1⟩

theorem Standing.root_of_mem (h : Standing g f) (ht : t ∈ f.tops) (hs : s ∈ f.enumerate t) : Root f.slots s t :=
  (root_iff_mem_enumerate h.grown (h.atom_lt ht hs).1 ((h.tops t).1 ht)).2 hs

/-- Looking for the top of an atomic slot finds the slot at the top that holds it. -/
theorem Standing.tells_top (h : Standing g f) (ht : t ∈ f.tops) (hs : s ∈ f.enumerate t) :
    Tells f.slots (Leaders.top s) (· = t) := by
  obtain ⟨hlt, hsize⟩ := h.atom_lt ht hs
  refine (SlotForest.tells_top h.grown hsize).mono fun r hr => ?_
  obtain ⟨hr, hmem⟩ := h.mem_enumerate_of_root hlt hr
  exact h.eq_of_mem hr ht hmem hs

theorem Standing.tells_connect (h : Standing g f) (ht : t ∈ f.tops) (hu : u ∈ f.tops) (hs : s ∈ f.enumerate t)
    (hd : d ∈ f.enumerate u) : Tells f.slots (f.connect s d) (· = if t = u then f else f.recordEdge t u s d) := by
  unfold connect
  refine (h.tells_top ht hs).bind ?_
  rintro _ rfl
  refine (h.tells_top hu hd).bind ?_
  rintro _ rfl
  refine tells_pure ?_
  simp only [beq_iff_eq]

/-- **Recording an edge** puts its border into both lists, and its marks are right from then on. -/
theorem Lists.recordEdge (h : Lists f of marks) (hf : Standing g f) (ht : t ∈ f.tops) (hu : u ∈ f.tops)
    (hs : s ∈ f.enumerate t) (hd : d ∈ f.enumerate u) (hne : t ≠ u) :
    Lists (f.recordEdge t u s d) (heard of t u (s, d))
      (Function.update marks (s, d) (s != f.lastOf t, d != f.firstOf u)) := by
  have hmarks : ∀ v ∈ f.tops, ∀ b ∈ of v, b ≠ ⟨s, d, true⟩ ∨ v ≠ t → b ≠ ⟨s, d, false⟩ ∨ v ≠ u →
      marks b.pair = Function.update marks (s, d) (s != f.lastOf t, d != f.firstOf u) b.pair := by
    -- the edge is in no other list, and in neither of the two from its other end
    intro v hv b hb htrue hfalse
    rw [Function.update_of_ne]
    intro hpair
    obtain ⟨s', d', outward⟩ := b
    cases hpair
    have hnear := h.near v hv _ hb
    cases outward with
    | true => exact (htrue.resolve_left (by simp)) (hf.eq_of_mem hv ht hnear hs)
    | false => exact (hfalse.resolve_left (by simp)) (hf.eq_of_mem hv hu hnear hd)
  have hedge : ∀ outward, (⟨s, d, outward⟩ : Border).marked (Function.update marks (s, d) (s != f.lastOf t, d != f.firstOf u)) =
      ⟨s, d, outward, s != f.lastOf t, d != f.firstOf u⟩ := fun outward => by simp [marked, Border.pair]
  refine ⟨by simp [SlotForest.recordEdge, h.size], fun v hv => ?_, fun v hv => ?_, fun v hv b hb => ?_⟩
  · have hold : f.edges[v]? = some ((of v).map (marked marks)) := h.edges v hv
    simp only [SlotForest.recordEdge, Array.getElem?_modify, hold, heard, ← hedge]
    by_cases hvt : t = v
    · rw [if_neg (fun hvu => hne (hvt.trans hvu.symm)), if_pos hvt, if_pos hvt.symm, Option.map_some,
        Border.record_map _ _ (h.nodup v hv) fun b hb hnb => hmarks v hv b hb (.inl hnb) (.inr fun hvu => hne (hvt.trans hvu))]
    · by_cases hvu : u = v
      · rw [if_pos hvu, if_neg hvt, if_neg (Ne.symm hvt), if_pos hvu.symm, Option.map_some,
          Border.record_map _ _ (h.nodup v hv) fun b hb hnb => hmarks v hv b hb (.inr (Ne.symm hvt)) (.inl hnb)]
      · rw [if_neg hvu, if_neg hvt, if_neg (Ne.symm hvt), if_neg (Ne.symm hvu)]
        refine congrArg some (List.map_congr_left fun b hb => ?_)
        rw [marked, marked, hmarks v hv b hb (.inr (Ne.symm hvt)) (.inr (Ne.symm hvu))]
  · unfold heard
    split
    · exact Border.nodup_put (h.nodup v hv) _
    · split
      · exact Border.nodup_put (h.nodup v hv) _
      · exact h.nodup v hv
  · unfold heard at hb
    split at hb
    · rename_i hvt
      rcases Border.mem_of_mem_put hb with hb | rfl
      · exact h.near v hv b hb
      · exact hvt ▸ hs
    · split at hb
      · rename_i hvu
        rcases Border.mem_of_mem_put hb with hb | rfl
        · exact h.near v hv b hb
        · exact hvu ▸ hd
      · exact h.near v hv b hb

theorem Lists.congr {of' : Nat → List Border} (h : Lists f of marks) (hof : ∀ t ∈ f.tops, of t = of' t) : Lists f of' marks :=
  ⟨h.size, fun t ht => hof t ht ▸ h.edges t ht, fun t ht => hof t ht ▸ h.nodup t ht, fun t ht => hof t ht ▸ h.near t ht⟩

theorem Standing.withEdges (h : Standing g f) (edges : Array (List SlotEdge)) : Standing g (f.withEdges edges) :=
  ⟨h.grown, h.tops, h.sorted, h.perm, h.count⟩

/-- **One edge between two slots at the top**, seen from the first: its border goes there, its mirror image to the other
slot, and its marks are right from then on. -/
theorem Standing.tells_connect_border (h : Standing g f) (hl : Lists f of marks) (x : Border) (ht : t ∈ f.tops) (hu : u ∈ f.tops)
    (hnear : x.near ∈ f.enumerate t) (hfar : x.far ∈ f.enumerate u) (hne : t ≠ u) :
    Tells f.slots (f.connect x.source x.target) fun f' => ∃ edges marks', f' = f.withEdges edges ∧
      Lists f' (fun v => if v = t then put (of t) x else if v = u then put (of u) x.mirror else of v) marks' ∧
      Marks f marks' x.pair ∧ ∀ p, p ≠ x.pair → marks' p = marks p := by
  obtain ⟨s, d, outward⟩ := x
  -- whatever the direction, the source lies in one of the two slots and the target in the other
  have hstep : ∀ {v w : Nat}, v ∈ f.tops → w ∈ f.tops → s ∈ f.enumerate v → d ∈ f.enumerate w → v ≠ w →
      Tells f.slots (f.connect s d) fun f' => ∃ edges marks', f' = f.withEdges edges ∧
        Lists f' (heard of v w (s, d)) marks' ∧ Marks f marks' (s, d) ∧ ∀ p, p ≠ (s, d) → marks' p = marks p := by
    intro v w hv hw hs hd hvw
    refine (h.tells_connect hv hw hs hd).mono ?_
    rintro _ rfl
    rw [if_neg hvw]
    refine ⟨_, _, rfl, hl.recordEdge h hv hw hs hd hvw, fun v' hv' w' hw' hs' hd' _ => ?_, fun p hp => ?_⟩
    · rw [Function.update_self, h.eq_of_mem hv' hv hs' hs, h.eq_of_mem hw' hw hd' hd]
    · exact Function.update_of_ne hp _ _
  cases outward with
  | true =>
    refine (hstep ht hu hnear hfar hne).mono ?_
    rintro f' ⟨edges, marks', rfl, hlists, hmarks, hother⟩
    refine ⟨edges, marks', rfl, hlists.congr fun v _ => ?_, hmarks, hother⟩
    unfold heard
    split
    · rename_i hv
      rw [hv]
    · split
      · rename_i hv
        rw [hv]
        rfl
      · rfl
  | false =>
    refine (hstep hu ht hfar hnear (Ne.symm hne)).mono ?_
    rintro f' ⟨edges, marks', rfl, hlists, hmarks, hother⟩
    refine ⟨edges, marks', rfl, hlists.congr fun v _ => ?_, hmarks, hother⟩
    unfold heard
    by_cases hvt : v = t
    · rw [if_neg (fun hvu => hne (hvt.symm.trans hvu)), if_pos hvt, if_pos hvt, hvt]
    · rw [if_neg hvt, if_neg hvt]
      split
      · rename_i hv
        rw [hv]
        rfl
      · rfl

theorem Standing.exists_top (h : Standing g f) (hs : s < g.owners.length) : ∃ t ∈ f.tops, s ∈ f.enumerate t :=
  List.mem_flatMap.1 (h.perm.mem_iff.2 (List.mem_range.2 hs))

end Connect

end SlotForest

/-! ## Before the first merge -/

/-- The pairs of different slots, each once. -/
def distinctPairs (pairs : List (Nat × Nat)) : List (Nat × Nat) := (pairs.filter fun p => p.1 != p.2).eraseDups

theorem mem_distinctPairs {pairs : List (Nat × Nat)} {p : Nat × Nat} : p ∈ distinctPairs pairs ↔ p ∈ pairs ∧ p.1 ≠ p.2 := by
  simp [distinctPairs]

theorem distinctPairs_append_singleton (pairs : List (Nat × Nat)) (p : Nat × Nat) : distinctPairs (pairs ++ [p]) =
    if p.1 = p.2 ∨ p ∈ pairs then distinctPairs pairs else distinctPairs pairs ++ [p] := by
  unfold distinctPairs
  rw [List.filter_append, List.eraseDups_append]
  by_cases heq : p.1 = p.2
  · simp [heq, List.removeAll]
  · by_cases hp : p ∈ pairs
    · simp [heq, hp, List.removeAll]
    · simp [heq, hp, List.removeAll, List.eraseDups_cons]

namespace SlotGraph

/-- **The edges between the atomic slots**, each once. -/
def pairs (g : SlotGraph) : List (Nat × Nat) := distinctPairs g.connections

theorem lt_of_mem_connections {g : SlotGraph} {p : Nat × Nat} (h : p ∈ g.connections) :
    p.1 < g.owners.length ∧ p.2 < g.owners.length := by
  obtain ⟨l, -, hl⟩ := List.mem_filterMap.1 h
  rw [slotsOf] at hl
  split at hl
  · rename_i s d hs hd
    cases hl
    exact ⟨(List.idxOf?_eq_some_iff.1 hs).1, (List.idxOf?_eq_some_iff.1 hd).1⟩
  · cases hl

end SlotGraph

namespace SlotForest

/-- **Every slot at the top holds its borders**, each once, and their marks are right. -/
def Bordered (g : SlotGraph) (f : SlotForest) : Prop :=
  ∃ marks, Lists f (fun t => borders g.pairs (f.enumerate t)) marks ∧ ∀ p ∈ g.pairs, Marks f marks p

section Plant

variable {g : SlotGraph}

theorem put_endsAt {pairs : List (Nat × Nat)} {x : Border} (hx : x.pair.1 ≠ x.pair.2) :
    put (endsAt (distinctPairs pairs) x.near) x = endsAt (distinctPairs (pairs ++ [x.pair])) x.near := by
  have hmem : x ∈ endsAt (distinctPairs pairs) x.near ↔ x.pair ∈ pairs := by
    rw [Border.mem_endsAt, mem_distinctPairs]
    exact ⟨fun h => h.1.1, fun h => ⟨⟨h, hx⟩, rfl⟩⟩
  rw [distinctPairs_append_singleton]
  by_cases hp : x.pair ∈ pairs
  · rw [if_pos (.inr hp), put, if_pos (hmem.2 hp)]
  · rw [if_neg (by simp [hx, hp]), put, if_neg (hp ∘ hmem.1)]
    obtain ⟨s, d, outward⟩ := x
    have hsd : s ≠ d := hx
    cases outward with
    | true => simp [endsAt, Border.near, Border.pair, Ne.symm hsd]
    | false => simp [endsAt, Border.near, Border.pair, hsd]

theorem endsAt_of_ne {pairs : List (Nat × Nat)} {p : Nat × Nat} {i : Nat} (hs : i ≠ p.1) (hd : i ≠ p.2) :
    endsAt (distinctPairs (pairs ++ [p])) i = endsAt (distinctPairs pairs) i := by
  rw [distinctPairs_append_singleton]
  split
  · rfl
  · simp [endsAt, Ne.symm hs, Ne.symm hd]

theorem enumerate_atoms {i : Nat} (hi : i < g.owners.length) : g.atoms.enumerate i = [i] :=
  enumerate_atom (standing_atoms g).grown hi

theorem ends_atoms {i : Nat} (hi : i < g.owners.length) : g.atoms.lastOf i = i ∧ g.atoms.firstOf i = i := by
  simp [lastOf, firstOf, SlotGraph.atoms, hi, SlotGraph.atom]

theorem tells_connectAll_atoms : ∀ (rest pairs : List (Nat × Nat)) (edges : Array (List SlotEdge)),
    (∀ p ∈ rest, p.1 < g.owners.length ∧ p.2 < g.owners.length) →
    Lists (g.atoms.withEdges edges) (endsAt (distinctPairs pairs)) (fun _ => (false, false)) →
    Tells g.atoms.slots (connectAll rest (g.atoms.withEdges edges)) fun f => ∃ edges, f = g.atoms.withEdges edges ∧
      Lists f (endsAt (distinctPairs (pairs ++ rest))) fun _ => (false, false)
  | [], pairs, edges, _, hl => tells_pure ⟨edges, rfl, by rwa [List.append_nil]⟩
  | p :: rest, pairs, edges, hrest, hl => by
    have hstanding := (standing_atoms g).withEdges edges
    obtain ⟨hs, hd⟩ := hrest p List.mem_cons_self
    have hmem : ∀ {i}, i < g.owners.length → i ∈ g.atoms.tops ∧ i ∈ g.atoms.enumerate i := fun hi =>
      ⟨List.mem_range.2 hi, by rw [enumerate_atoms hi]; exact List.mem_singleton.2 rfl⟩
    rw [List.append_cons]
    unfold connectAll
    by_cases heq : p.1 = p.2
    · refine (hstanding.tells_connect (hmem hs).1 (hmem hd).1 (hmem hs).2 (hmem hd).2).bind ?_
      rintro _ rfl
      rw [if_pos heq]
      refine tells_connectAll_atoms rest _ edges (fun q hq => hrest q (List.mem_cons_of_mem _ hq)) ?_
      rw [distinctPairs_append_singleton, if_pos (.inl heq)]
      exact hl
    · refine (hstanding.tells_connect_border hl ⟨p.1, p.2, true⟩ (hmem hs).1 (hmem hd).1 (hmem hs).2 (hmem hd).2 heq).bind ?_
      rintro _ ⟨edges', marks', rfl, hlists, hmarks, hother⟩
      -- an atomic slot is the first and the last of itself
      have hconst : marks' = fun _ => (false, false) := by
        funext q
        by_cases hq : q = p
        · rw [hq]
          refine (hmarks p.1 (hmem hs).1 p.2 (hmem hd).1 (hmem hs).2 (hmem hd).2 heq).trans ?_
          rw [show (g.atoms.withEdges edges).lastOf p.1 = p.1 from (ends_atoms hs).1,
            show (g.atoms.withEdges edges).firstOf p.2 = p.2 from (ends_atoms hd).2]
          simp [Border.pair]
        · exact hother q hq
      rw [hconst] at hlists
      refine tells_connectAll_atoms rest _ edges' (fun q hq => hrest q (List.mem_cons_of_mem _ hq)) ?_
      refine hlists.congr fun v _ => ?_
      split
      · rename_i hv
        rw [hv]
        exact put_endsAt (x := ⟨p.1, p.2, true⟩) heq
      · split
        · rename_i hv
          rw [hv]
          exact put_endsAt (x := ⟨p.1, p.2, false⟩) heq
        · rename_i hs hd
          exact (endsAt_of_ne hs hd).symm

/-- **The forest before the first merge** is bordered. -/
theorem tells_plant (g : SlotGraph) :
    Tells g.atoms.slots g.plant fun f => f.slots = g.atoms.slots ∧ f.rows = g.atoms.rows ∧ f.merges = 0 ∧ Standing g f ∧ Bordered g f := by
  have hempty : Lists g.atoms (endsAt (distinctPairs [])) fun _ => (false, false) := by
    refine ⟨by simp [SlotGraph.atoms], fun t ht => ?_, fun t _ => List.nodup_nil, fun t _ b hb => absurd hb List.not_mem_nil⟩
    have hlt : t < g.owners.length := List.mem_range.1 ht
    simp only [SlotGraph.atoms, Array.getElem?_replicate, if_pos hlt]
    rfl
  refine (tells_connectAll_atoms g.connections [] g.atoms.edges (fun p => SlotGraph.lt_of_mem_connections) hempty).mono ?_
  rintro _ ⟨edges, rfl, hlists⟩
  refine ⟨rfl, rfl, rfl, (standing_atoms g).withEdges edges, _, hlists.congr fun t ht => ?_, fun p _ t ht u hu hs hd _ => ?_⟩
  · have hone : (g.atoms.withEdges edges).enumerate t = [t] := enumerate_atoms (List.mem_range.1 ht)
    rw [hone, Border.borders_singleton fun p (hp : p ∈ g.pairs) => (mem_distinctPairs.1 hp).2]
    rfl
  · have hone : ∀ {i t}, t ∈ g.atoms.tops → i ∈ g.atoms.enumerate t → i = t := by
      intro i t ht hi
      rw [enumerate_atoms (List.mem_range.1 ht)] at hi
      exact List.mem_singleton.1 hi
    rw [hone ht hs, hone hu hd, show (g.atoms.withEdges edges).lastOf t = t from (ends_atoms (List.mem_range.1 ht)).1,
      show (g.atoms.withEdges edges).firstOf u = u from (ends_atoms (List.mem_range.1 hu)).2]
    simp

end Plant

/-! ## A merge -/

section Merge

variable {g : SlotGraph} {f : SlotForest} {a b : Nat} {xa xb : Slot}

theorem nodup_pairs (g : SlotGraph) : g.pairs.Nodup := nodup_eraseDups _

theorem lt_of_mem_pairs {p : Nat × Nat} (hp : p ∈ g.pairs) : p.1 < g.owners.length ∧ p.2 < g.owners.length :=
  SlotGraph.lt_of_mem_connections (mem_distinctPairs.1 hp).1

theorem far_lt {x : Border} (hx : x.pair ∈ g.pairs) : x.far < g.owners.length := by
  obtain ⟨hs, hd⟩ := lt_of_mem_pairs hx
  unfold Border.far
  split
  · exact hd
  · exact hs

/-- A slot at the top after a merge is the compound, or was at the top before. -/
theorem Standing.tops_compound (h : Standing g f) (hf : Fits f a xa b xb) {t : Nat} (ht : t ∈ (f.compound a b).tops) :
    t = f.slots.size ∨
      t ∈ f.tops ∧ t ≠ f.slots.size ∧ t ≠ a ∧ t ≠ b ∧ (f.compound a b).enumerate t = f.enumerate t := by
  rcases (hf.atTop_iff t).1 (((h.compound hf).tops t).1 ht) with ht | ⟨ht, hta, htb⟩
  · exact .inl ht
  · have htops := (h.tops t).2 ht
    obtain ⟨y, hy, -⟩ := ht
    exact .inr ⟨htops, Nat.ne_of_lt (h.lt_size htops), hta, htb, hf.enumerate_old h.grown hy⟩

/-- The borders while the edges of two merged slots are connected anew: those done are back, in the compound. -/
def rejoined (g : SlotGraph) (f : SlotForest) (a b : Nat) (done : List Border) (t : Nat) : List Border :=
  if t = f.slots.size then done.filter fun x => x.far ∉ f.enumerate a ++ f.enumerate b else borders g.pairs (f.enumerate t)

/-- The marks that are right by then: those of the edges done, and of edges that do not touch the compound. -/
def Remarked (g : SlotGraph) (f : SlotForest) (a b : Nat) (done : List Border) (marks : Nat × Nat → Bool × Bool) : Prop :=
  ∀ p ∈ g.pairs, p ∈ done.map Border.pair ∨ p.1 ∉ f.enumerate a ++ f.enumerate b ∧ p.2 ∉ f.enumerate a ++ f.enumerate b →
    Marks (f.compound a b) marks p

theorem Remarked.append {done : List Border} {marks marks' : Nat × Nat → Bool × Bool} (h : Remarked g f a b done marks) {x : Border}
    (hx : Marks (f.compound a b) marks' x.pair) (hother : ∀ p, p ≠ x.pair → marks' p = marks p) :
    Remarked g f a b (done ++ [x]) marks' := by
  intro p hp hcase
  by_cases hpx : p = x.pair
  · exact hpx ▸ hx
  · intro t ht u hu hs hd htu
    rw [hother p hpx]
    refine h p hp (hcase.imp_left fun hmem => ?_) t ht u hu hs hd htu
    rw [List.map_append, List.mem_append] at hmem
    exact hmem.resolve_right fun hmem => hpx (List.mem_singleton.1 hmem)

theorem rejoined_append_of_mem {done : List Border} {x : Border} (hfar : x.far ∈ f.enumerate a ++ f.enumerate b) (t : Nat) :
    rejoined g f a b (done ++ [x]) t = rejoined g f a b done t := by
  unfold rejoined
  rw [List.filter_append, List.filter_singleton]
  simp [hfar]

theorem rejoined_append_of_notMem {done : List Border} {x : Border} (hfar : x.far ∉ f.enumerate a ++ f.enumerate b)
    (hfresh : x ∉ done) :
    rejoined g f a b (done ++ [x]) f.slots.size = put (rejoined g f a b done f.slots.size) x := by
  rw [rejoined, rejoined, if_pos rfl, if_pos rfl, put, if_neg fun hmem => hfresh (List.mem_filter.1 hmem).1,
    List.filter_append, List.filter_singleton]
  simp [hfar]

theorem Standing.nodup_borders_append (h : Standing g f) (hf : Fits f a xa b xb) :
    (borders g.pairs (f.enumerate a) ++ borders g.pairs (f.enumerate b)).Nodup := by
  have ha := (h.tops a).2 ⟨xa, hf.left, hf.left_top⟩
  have hb := (h.tops b).2 ⟨xb, hf.right, hf.right_top⟩
  refine List.nodup_append.2 ⟨Border.nodup_borders (nodup_pairs g) (h.nodup_enumerate ha),
    Border.nodup_borders (nodup_pairs g) (h.nodup_enumerate hb), fun y hy z hz heq => hf.ne ?_⟩
  exact h.eq_of_mem ha hb (Border.mem_borders.1 hy).2.1 (heq ▸ (Border.mem_borders.1 hz).2.1)

section Reconnect

variable {x : Border} {done : List Border} {edges : Array (List SlotEdge)} {marks : Nat × Nat → Bool × Bool}

/-- An edge that lies within the compound vanishes. -/
theorem tells_reconnect_within (h : Standing g f) (hf : Fits f a xa b xb) (hnear : x.near ∈ f.enumerate a ++ f.enumerate b)
    (hfar : x.far ∈ f.enumerate a ++ f.enumerate b)
    (hl : Lists ((f.compound a b).withEdges edges) (rejoined g f a b done) marks) (hmarks : Remarked g f a b done marks) :
    Tells (f.compound a b).slots (((f.compound a b).withEdges edges).connect x.source x.target) fun f' =>
      ∃ edges marks, f' = (f.compound a b).withEdges edges ∧ Lists f' (rejoined g f a b (done ++ [x])) marks ∧
        Remarked g f a b (done ++ [x]) marks := by
  have hnew := h.compound hf
  have hc : f.slots.size ∈ (f.compound a b).tops := (hnew.tops _).2 ((hf.atTop_iff _).2 (.inl rfl))
  have hends := Border.ends_mem hnear hfar
  rw [← hf.enumerate_new h.grown] at hends
  refine ((hnew.withEdges edges).tells_connect hc hc hends.1 hends.2).mono ?_
  rintro _ rfl
  rw [if_pos rfl]
  refine ⟨edges, marks, rfl, hl.congr fun t _ => (rejoined_append_of_mem hfar t).symm,
    hmarks.append (fun t ht u hu hs hd hne => ?_) fun _ _ => rfl⟩
  exact absurd ((hnew.eq_of_mem ht hc hs hends.1).trans (hnew.eq_of_mem hu hc hd hends.2).symm) hne

/-- An edge to a third slot is put into the compound's list; the third slot has its mirror image already. -/
theorem tells_reconnect_across (h : Standing g f) (hf : Fits f a xa b xb) (hpair : x.pair ∈ g.pairs)
    (hnear : x.near ∈ f.enumerate a ++ f.enumerate b) (hfar : x.far ∉ f.enumerate a ++ f.enumerate b) (hfresh : x ∉ done)
    (hl : Lists ((f.compound a b).withEdges edges) (rejoined g f a b done) marks) (hmarks : Remarked g f a b done marks) :
    Tells (f.compound a b).slots (((f.compound a b).withEdges edges).connect x.source x.target) fun f' =>
      ∃ edges marks, f' = (f.compound a b).withEdges edges ∧ Lists f' (rejoined g f a b (done ++ [x])) marks ∧
        Remarked g f a b (done ++ [x]) marks := by
  have hnew := h.compound hf
  have hc : f.slots.size ∈ (f.compound a b).tops := (hnew.tops _).2 ((hf.atTop_iff _).2 (.inl rfl))
  rw [← hf.enumerate_new h.grown] at hnear
  obtain ⟨u, hu, hfaru⟩ := hnew.exists_top (far_lt hpair)
  have hne : f.slots.size ≠ u := by
    rintro rfl
    exact hfar (hf.enumerate_new h.grown ▸ hfaru)
  obtain ⟨-, -, -, -, henumerate⟩ := (h.tops_compound hf hu).resolve_left (Ne.symm hne)
  have hmirror : x.mirror ∈ borders g.pairs (f.enumerate u) := by
    rw [← henumerate]
    exact Border.mirror_mem_borders hpair hfaru fun hmem => hne (hnew.eq_of_mem hc hu hnear hmem)
  refine ((hnew.withEdges edges).tells_connect_border hl x hc hu hnear hfaru hne).mono ?_
  rintro _ ⟨edges', marks', rfl, hlists, hright, hother⟩
  refine ⟨edges', marks', rfl, hlists.congr fun t _ => ?_, hmarks.append hright hother⟩
  by_cases ht : t = f.slots.size
  · rw [if_pos ht, ht, rejoined_append_of_notMem hfar hfresh]
  · rw [if_neg ht, rejoined, rejoined, rejoined, if_neg ht, if_neg ht, if_neg (Ne.symm hne)]
    split
    · rename_i htu
      rw [put, if_pos hmirror, htu]
    · rfl

/-- **One edge of two merged slots**, connected anew. -/
theorem tells_reconnect (h : Standing g f) (hf : Fits f a xa b xb) {rest : List Border}
    (hdone : done ++ x :: rest = borders g.pairs (f.enumerate a) ++ borders g.pairs (f.enumerate b))
    (hl : Lists ((f.compound a b).withEdges edges) (rejoined g f a b done) marks) (hmarks : Remarked g f a b done marks) :
    Tells (f.compound a b).slots (((f.compound a b).withEdges edges).connect x.source x.target) fun f' =>
      ∃ edges marks, f' = (f.compound a b).withEdges edges ∧ Lists f' (rejoined g f a b (done ++ [x])) marks ∧
        Remarked g f a b (done ++ [x]) marks := by
  have hmem : x ∈ borders g.pairs (f.enumerate a) ++ borders g.pairs (f.enumerate b) := hdone ▸ by simp
  have hx : x.pair ∈ g.pairs ∧ x.near ∈ f.enumerate a ++ f.enumerate b := by
    rw [List.mem_append, Border.mem_borders, Border.mem_borders] at hmem
    rw [List.mem_append]
    exact ⟨hmem.elim (·.1) (·.1), hmem.imp (·.2.1) (·.2.1)⟩
  by_cases hfar : x.far ∈ f.enumerate a ++ f.enumerate b
  · exact tells_reconnect_within h hf hx.2 hfar hl hmarks
  · have hnd := h.nodup_borders_append hf
    rw [← hdone] at hnd
    have hfresh : x ∉ done := fun hmem => (List.nodup_append.1 hnd).2.2 x hmem x List.mem_cons_self rfl
    exact tells_reconnect_across h hf hx.1 hx.2 hfar hfresh hl hmarks

end Reconnect

/-- **All edges of two merged slots**, connected anew one after the other. -/
theorem tells_reconnectAll (h : Standing g f) (hf : Fits f a xa b xb) : ∀ (rest done : List Border),
    done ++ rest = borders g.pairs (f.enumerate a) ++ borders g.pairs (f.enumerate b) →
    ∀ (edges : Array (List SlotEdge)) (marks : Nat × Nat → Bool × Bool),
    Lists ((f.compound a b).withEdges edges) (rejoined g f a b done) marks → Remarked g f a b done marks →
    Tells (f.compound a b).slots (connectAll (rest.map Border.pair) ((f.compound a b).withEdges edges)) fun f' =>
      ∃ edges marks, f' = (f.compound a b).withEdges edges ∧ Lists f' (rejoined g f a b (done ++ rest)) marks ∧
        Remarked g f a b (done ++ rest) marks
  | [], done, _, edges, marks, hl, hmarks => by
    rw [List.append_nil]
    exact tells_pure ⟨edges, marks, rfl, hl, hmarks⟩
  | x :: rest, done, hdone, edges, marks, hl, hmarks => by
    rw [List.map_cons, connectAll]
    refine (tells_reconnect h hf hdone hl hmarks).bind ?_
    rintro _ ⟨edges', marks', rfl, hl', hmarks'⟩
    rw [List.append_cons]
    exact tells_reconnectAll h hf rest (done ++ [x]) (by rw [← List.append_cons, hdone]) edges' marks' hl' hmarks'

theorem Lists.compound {marks : Nat × Nat → Bool × Bool} (hl : Lists f (fun t => borders g.pairs (f.enumerate t)) marks)
    (h : Standing g f) (hf : Fits f a xa b xb) : Lists (f.compound a b) (rejoined g f a b []) marks := by
  refine ⟨by simp [SlotForest.compound, hl.size], fun t ht => ?_, fun t ht => ?_, fun t ht x hx => ?_⟩
  · rcases h.tops_compound hf ht with rfl | ⟨ht, htc, hta, htb, -⟩
    · have halt := hf.left_lt
      have hblt := hf.right_lt
      simp only [SlotForest.compound, rejoined, Array.getElem?_setIfInBounds, Array.getElem?_push, hl.size]
      rw [if_neg (by omega), if_neg (by omega)]
      rfl
    · simp only [SlotForest.compound, rejoined, Array.getElem?_setIfInBounds, Array.getElem?_push, hl.size]
      rw [if_neg (Ne.symm htb), if_neg (Ne.symm hta), if_neg htc, if_neg htc]
      exact hl.edges t ht
  · rcases h.tops_compound hf ht with rfl | ⟨ht, htc, -⟩
    · simp [rejoined]
    · rw [rejoined, if_neg htc]
      exact hl.nodup t ht
  · rcases h.tops_compound hf ht with rfl | ⟨ht, htc, -, -, henumerate⟩
    · simp [rejoined] at hx
    · rw [rejoined, if_neg htc] at hx
      exact henumerate ▸ hl.near t ht x hx

/-- Edges that touch neither of the two merged slots look as before. -/
theorem remarked_nil {marks : Nat × Nat → Bool × Bool} (hmarks : ∀ p ∈ g.pairs, Marks f marks p) (h : Standing g f)
    (hf : Fits f a xa b xb) : Remarked g f a b [] marks := by
  have hatoms := hf.enumerate_new h.grown
  intro p hp houtside t ht u hu hs hd htu
  obtain ⟨hps, hpd⟩ := houtside.resolve_left List.not_mem_nil
  obtain ⟨ht', htc, hta, htb, hte⟩ := (h.tops_compound hf ht).resolve_left fun htc => hps (by rwa [htc, hatoms] at hs)
  obtain ⟨hu', huc, hua, hub, hue⟩ := (h.tops_compound hf hu).resolve_left fun huc => hpd (by rwa [huc, hatoms] at hd)
  rw [hte] at hs
  rw [hue] at hd
  rw [hmarks p hp t ht' u hu' hs hd htu, lastOf, lastOf, firstOf, firstOf, hf.getElem?_old htc, hf.getElem?_old huc,
    Option.map_map, Option.map_map]
  simp [hta, htb, hua, hub, Function.comp_def]

/-- When all edges of the two merged slots are done, the borders are those of the forest with the compound. -/
theorem bordered_of_rejoined (h : Standing g f) (hf : Fits f a xa b xb) {edges : Array (List SlotEdge)}
    {marks : Nat × Nat → Bool × Bool}
    (hl : Lists ((f.compound a b).withEdges edges)
      (rejoined g f a b (borders g.pairs (f.enumerate a) ++ borders g.pairs (f.enumerate b))) marks)
    (hmarks : Remarked g f a b (borders g.pairs (f.enumerate a) ++ borders g.pairs (f.enumerate b)) marks) :
    Bordered g ((f.compound a b).withEdges edges) := by
  have hnew := h.compound hf
  have hc : f.slots.size ∈ (f.compound a b).tops := (hnew.tops _).2 ((hf.atTop_iff _).2 (.inl rfl))
  have hatoms := hf.enumerate_new h.grown
  refine ⟨marks, hl.congr fun t ht => ?_, fun p hp t ht u hu hs hd htu => ?_⟩
  · show _ = borders g.pairs ((f.compound a b).enumerate t)
    unfold rejoined
    rcases h.tops_compound hf ht with rfl | ⟨-, htc, -, -, henumerate⟩
    · rw [if_pos rfl, hatoms, Border.borders_append]
    · rw [if_neg htc, henumerate]
  · -- an edge that touches the compound was an edge of one of the two slots
    have hdone : ∀ x : Border, x.pair = p → x.near ∈ f.enumerate a ++ f.enumerate b →
        x.far ∉ f.enumerate a ++ f.enumerate b →
        p ∈ (borders g.pairs (f.enumerate a) ++ borders g.pairs (f.enumerate b)).map Border.pair := by
      rintro x rfl hnear hfar
      refine List.mem_map_of_mem (List.mem_append.2 ((List.mem_append.1 hnear).imp (fun hnear => ?_) fun hnear => ?_))
      · exact Border.mem_borders.2 ⟨hp, hnear, fun hmem => hfar (List.mem_append_left _ hmem)⟩
      · exact Border.mem_borders.2 ⟨hp, hnear, fun hmem => hfar (List.mem_append_right _ hmem)⟩
    have htop : ∀ {i v : Nat}, v ∈ (f.compound a b).tops → i ∈ (f.compound a b).enumerate v →
        i ∈ f.enumerate a ++ f.enumerate b → v = f.slots.size :=
      fun hv hi hmem => hnew.eq_of_mem hv hc hi (hatoms ▸ hmem)
    refine hmarks p hp ?_ t ht u hu hs hd htu
    by_cases hps : p.1 ∈ f.enumerate a ++ f.enumerate b
    · exact .inl (hdone ⟨p.1, p.2, true⟩ rfl hps fun hpd => htu ((htop ht hs hps).trans (htop hu hd hpd).symm))
    · by_cases hpd : p.2 ∈ f.enumerate a ++ f.enumerate b
      · exact .inl (hdone ⟨p.1, p.2, false⟩ rfl hpd hps)
      · exact .inr ⟨hps, hpd⟩

/-- **A merge keeps the forest bordered**, and the shortcuts in order. -/
theorem Bordered.merge (hb : Bordered g f) (h : Standing g f) (hf : Fits f a xa b xb) {leaders : Leaders}
    (hl : Leads f.slots leaders) : ∃ edges, ((f.merge a b).run leaders).1 = (f.compound a b).withEdges edges ∧
      Bordered g ((f.compound a b).withEdges edges) ∧ Leads (f.compound a b).slots ((f.merge a b).run leaders).2 := by
  obtain ⟨marks, hlists, hmarks⟩ := hb
  have ha := (h.tops a).2 ⟨xa, hf.left, hf.left_top⟩
  have hb := (h.tops b).2 ⟨xb, hf.right, hf.right_top⟩
  have hold : (f.edges[a]?.getD [] ++ f.edges[b]?.getD []).map (fun e => (e.source, e.target)) =
      (borders g.pairs (f.enumerate a) ++ borders g.pairs (f.enumerate b)).map Border.pair := by
    rw [hlists.edges a ha, hlists.edges b hb, Option.getD_some, Option.getD_some, ← List.map_append, List.map_map]
    rfl
  have htells := tells_reconnectAll h hf (borders g.pairs (f.enumerate a) ++ borders g.pairs (f.enumerate b)) [] rfl
    (f.compound a b).edges marks (hlists.compound h hf) (remarked_nil hmarks h hf)
  rw [← hold] at htells
  obtain ⟨⟨edges, marks', hrun, hlists', hmarks'⟩, hleads⟩ := htells _ (hl.compound hf)
  rw [hrun] at hlists'
  exact ⟨edges, hrun, bordered_of_rejoined h hf hlists' hmarks', hleads⟩

end Merge

end SlotForest

end CodeImage
