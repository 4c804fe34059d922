import Mathlib.Data.List.Flatten
import CodeImage.Schedule.Basic
import CodeImage.Proofs.Flow.PostOrder
import CodeImage.Proofs.Schedule.Ownership
import CodeImage.Proofs.Schedule.Indices
/-!
# Reading — the schedule that indexed slots give

A schedule is read off the slots in two passes.  The first enters the owners in the order in which their slots were made,
each with the index of its slot; `Draft.Enters` says what has been entered at any time.  The second sorts: indices are
places in the order of the runs, so sorting the blocks by index gives that order, and sorting the slots at the top by their
first index gives the runs.  Every slot has an index, so nothing is left unscheduled, and what is read off is the schedule
of the numbered runs (`arrange_eq`).
-/
namespace CodeImage

theorem idxOf?_map_on {f : Nat → Nat} {a : Nat} : ∀ {l : List Nat}, (∀ b ∈ l, f b = f a → b = a) →
    (l.map f).idxOf? (f a) = l.idxOf? a
  | [], _ => rfl
  | b :: l, h => by
    have hbeq : (f b == f a) = (b == a) := by
      rw [Bool.eq_iff_iff, beq_iff_eq, beq_iff_eq]
      exact ⟨h b List.mem_cons_self, fun heq => heq ▸ rfl⟩
    rw [List.map_cons, List.idxOf?_cons, List.idxOf?_cons, hbeq, idxOf?_map_on fun c hc => h c (List.mem_cons_of_mem _ hc)]

/-- **One value written to several blocks** of a table with one item per block. -/
theorem toList_foldl_setIfInBounds {α : Type} {size : Nat} {F' : Nat → α} {x : α} : ∀ (blocks : List Nat) {table : Array α}
    {F : Nat → α}, table.toList = (List.range size).map F → (∀ b ∈ blocks, F' b = x) → (∀ b, b ∉ blocks → F' b = F b) →
    (blocks.foldl (fun table b => table.setIfInBounds b x) table).toList = (List.range size).map F'
  | [], _, _, h, _, hout => h.trans (List.map_congr_left fun b _ => (hout b List.not_mem_nil).symm)
  | a :: blocks, table, F, h, hin, hout => by
    have hone : (table.setIfInBounds a x).toList = (List.range size).map fun b => if b = a then x else F b := by
      rw [Array.toList_setIfInBounds, h]
      refine List.ext_getElem? fun b => ?_
      rw [List.getElem?_set, List.getElem?_map, List.getElem?_map]
      by_cases hb : b < size
      · by_cases hab : a = b
        · subst hab
          simp [hb]
        · simp [hab, Ne.symm hab, hb]
      · simp [hb]
        omega
    refine toList_foldl_setIfInBounds blocks hone (fun b hb => hin b (List.mem_cons_of_mem _ hb)) fun b hb => ?_
    by_cases hba : b = a
    · rw [if_pos hba]
      exact hin b (hba ▸ List.mem_cons_self)
    · rw [if_neg hba]
      exact hout b fun hmem => (List.mem_cons.1 hmem).elim hba hb

namespace Schedule

/-- **The schedule of rows of blocks**: the blocks in the order of the rows, and of every block the place of its owner. -/
def ofRuns (g : FlowGraph) (sizes : Array Nat) (runs : List Run) : Schedule :=
  let own := g.ownership sizes
  let groups := runs.map (·.blocks)
  let order := groups.flatten
  let blocks := List.range g.size
  { order
    index := blocks.map fun b => (own.ownerOf b).bind order.idxOf?
    cold := blocks.map fun b => (own.ownerOf b).any g.cold.contains
    aliasOf := blocks.map own.aliasOf
    aliases := blocks.map own.aliasesOf
    groups }

/-- **The schedule of the runs that joining leaves**, in the order of their numbers. -/
def byRuns (g : FlowGraph) (forest : LoopForest) (sizes : Array Nat) : Schedule :=
  let slots := SlotGraph.of g forest (g.ownership sizes)
  ofRuns g sizes (slots.numberRuns slots.joinAll)

/-! ## Entering -/

/-- The owner of a block, if it is one of those entered. -/
def ownerAmong (own : Ownership) (entered : List Nat) (b : Nat) : Option Nat := (own.ownerOf b).filter entered.contains

/-- **Some owners have been entered**, each with its place in the order. -/
structure Draft.Enters (size : Nat) (own : Ownership) (isCold : Nat → Bool) (order entered : List Nat) (d : Draft) :
    Prop where
  placed : d.placed = entered.map fun o => (order.idxOf o, o)
  index : d.index.toList = (List.range size).map fun b => (ownerAmong own entered b).bind order.idxOf?
  cold : d.cold.toList = (List.range size).map fun b => (ownerAmong own entered b).any isCold
  aliases : d.aliases.toList = (List.range size).map fun b => if b ∈ entered then own.aliasesOf b else []

section Enters

variable {size : Nat} {own : Ownership} {isCold : Nat → Bool} {order entered : List Nat} {d : Draft}

theorem Draft.enters_blank : (Draft.blank size).Enters size own isCold order [] := by
  have hnone : ∀ b, ownerAmong own [] b = none := fun b => Option.filter_eq_none_iff.2 fun _ _ => by simp
  refine ⟨rfl, ?_, ?_, ?_⟩
  · simp [Draft.blank, hnone]
  · simp [Draft.blank, hnone]
  · simp [Draft.blank]

theorem ownerAmong_of_eq {b o : Nat} (hb : own.ownerOf b = some o) : ownerAmong own (entered ++ [o]) b = some o := by
  rw [ownerAmong, hb, Option.filter_some, if_pos (by simp)]

theorem ownerAmong_of_ne {b o : Nat} (hb : own.ownerOf b ≠ some o) :
    ownerAmong own (entered ++ [o]) b = ownerAmong own entered b := by
  rw [ownerAmong, ownerAmong]
  cases howner : own.ownerOf b with
  | none => rfl
  | some p =>
    have hp : p ≠ o := fun heq => hb (heq ▸ howner)
    rw [Option.filter_some, Option.filter_some]
    simp [hp]

/-- **What entering an owner does.** -/
theorem Draft.Enters.enter {next : Nat → Option Nat} (h : d.Enters size own isCold order entered) (hset : own.Settled next)
    {o : Nat} (ho : own.ownerOf o = some o) (hmem : o ∈ order) :
    (d.enter (order.idxOf o) (isCold o) o (own.aliasesOf o)).Enters size own isCold order (entered ++ [o]) := by
  have hslot := Ownership.mem_cons_aliasesOf hset ho
  refine ⟨?_, ?_, ?_, ?_⟩
  · rw [List.map_append, ← h.placed]
    rfl
  · refine toList_foldl_setIfInBounds _ h.index (fun b hb => ?_) fun b hb => ?_
    · rw [ownerAmong_of_eq ((hslot b).1 hb), Option.bind_some, idxOf?_eq_some hmem]
    · rw [ownerAmong_of_ne fun heq => hb ((hslot b).2 heq)]
  · refine toList_foldl_setIfInBounds _ h.cold (fun b hb => ?_) fun b hb => ?_
    · rw [ownerAmong_of_eq ((hslot b).1 hb), Option.any_some]
    · rw [ownerAmong_of_ne fun heq => hb ((hslot b).2 heq)]
  · refine toList_foldl_setIfInBounds [o] h.aliases (fun b hb => ?_) fun b hb => ?_
    · rw [List.mem_singleton.1 hb, if_pos (by simp)]
    · have hbo : b ≠ o := fun heq => hb (List.mem_singleton.2 heq)
      simp [hbo]

/-- **Entering never meets a slot without an index**, when the indices are the places of the owners. -/
theorem exists_enterAll {next : Nat → Option Nat} {f : SlotForest} {n : Indexing} (hset : own.Settled next) :
    ∀ (atoms : List Nat) {d : Draft} {entered : List Nat}, d.Enters size own isCold order entered →
    (∀ a ∈ atoms, own.ownerOf (f.blockOf a) = some (f.blockOf a) ∧ f.blockOf a ∈ order ∧
      n.indexOf a = some (order.idxOf (f.blockOf a)) ∧ f.isCold a = isCold (f.blockOf a)) →
    ∃ d', enterAll own f n atoms d = .ok d' ∧ d'.Enters size own isCold order (entered ++ atoms.map f.blockOf)
  | [], d, entered, h, _ => ⟨d, rfl, by simpa using h⟩
  | a :: atoms, d, entered, h, hatoms => by
    obtain ⟨howner, hmem, hindex, hcold⟩ := hatoms a List.mem_cons_self
    obtain ⟨d', hd', henters⟩ := exists_enterAll hset atoms (h.enter hset howner hmem) fun b hb =>
      hatoms b (List.mem_cons_of_mem _ hb)
    refine ⟨d', ?_, by simpa using henters⟩
    rw [enterAll, hindex]
    dsimp only
    rw [hcold, hd']

theorem ownerAmong_eq {next : Nat → Option Nat} (hset : own.Settled next)
    (hall : ∀ o, o ∈ entered ↔ o ∈ own.owners) (b : Nat) : ownerAmong own entered b = own.ownerOf b := by
  rw [ownerAmong]
  cases ho : own.ownerOf b with
  | none => rfl
  | some o =>
    have hentered := (hall o).2 ((Ownership.mem_owners hset o).2 (hset.owner b o ho))
    rw [Option.filter_some, if_pos (List.contains_iff_mem.2 hentered)]

end Enters

/-! ## Sorting -/

theorem pairwise_idxOf {l : List Nat} (h : l.Nodup) : l.Pairwise fun a b => l.idxOf a < l.idxOf b :=
  List.pairwise_iff_forall_sublist.2 fun hab => idxOf_lt_of_sublist h hab

/-- **Blocks sorted by their places stand in their order.** -/
theorem sortBy_placed {order owners : List Nat} (hnd : order.Nodup) (hperm : order.Perm owners) :
    sortBy (fun a b => a.1 < b.1 || (a.1 == b.1 && a.2 ≤ b.2)) (owners.map fun o => (order.idxOf o, o)) =
      order.map fun o => (order.idxOf o, o) := by
  refine sortBy_eq_of_perm _ ?_ ?_ (hperm.map _) (List.pairwise_map.2 ((pairwise_idxOf hnd).imp fun hlt => ?_)) ?_
  · simp only [Bool.or_eq_true, Bool.or_eq_false_iff, Bool.and_eq_true, Bool.and_eq_false_iff, decide_eq_true_iff,
      decide_eq_false_iff_not, beq_iff_eq, beq_eq_false_iff_ne]
    omega
  · simp only [Bool.or_eq_true, Bool.and_eq_true, decide_eq_true_iff, beq_iff_eq]
    omega
  · simp [hlt]
  · rintro ⟨i, a⟩ - ⟨j, b⟩ -
    simp only [Bool.or_eq_true, Bool.and_eq_true, decide_eq_true_iff, beq_iff_eq, Prod.mk.injEq]
    omega

theorem indexLe_total : ∀ {i j : Option Nat}, indexLe i j = false → indexLe j i = true
  | none, _, h => absurd h (by simp [indexLe])
  | some _, none, _ => rfl
  | some i, some j, h => by
    simp only [indexLe, decide_eq_false_iff_not, decide_eq_true_iff] at h ⊢
    omega

theorem indexLe_trans : ∀ {i j k : Option Nat}, indexLe i j = true → indexLe j k = true → indexLe i k = true
  | none, _, _, _, _ => rfl
  | some _, none, _, h, _ => absurd h (by simp [indexLe])
  | some _, some _, none, _, h => absurd h (by simp [indexLe])
  | some i, some j, some k, h, h' => by
    simp only [indexLe, decide_eq_true_iff] at h h' ⊢
    omega

section Read

variable {slots : SlotGraph} {f : SlotForest} {n : Indexing} {done : List Nat}

/-- **Slots at the top sorted by their first indices stand in the order in which they were indexed.** -/
theorem sortBy_tops (h : SlotForest.Standing slots f) (hd : SlotForest.Indexed slots f n done) (hperm : done.Perm f.tops) :
    sortBy (fun s t => indexLe (n.indexOf (f.firstOf s)) (n.indexOf (f.firstOf t))) f.tops = done := by
  have hfirst : ∀ {t}, t ∈ done → f.firstOf t ∈ done.flatMap f.enumerate := fun ht =>
    List.mem_flatMap.2 ⟨_, ht, h.firstOf_mem (hd.tops ht)⟩
  have hindex : ∀ {t}, t ∈ done →
      n.indexOf (f.firstOf t) = some ((done.flatMap f.enumerate).idxOf (f.firstOf t)) := fun ht =>
    (hd.lists.indexOf _).trans (idxOf?_eq_some (hfirst ht))
  have hnd := h.nodup_flatMap_enumerate hd.tops hd.nodup
  refine sortBy_eq_of_perm _ ?_ ?_ hperm ?_ fun s hs t ht => ?_
  · exact fun _ _ => indexLe_total
  · exact fun _ _ _ => indexLe_trans
  · refine List.pairwise_iff_forall_sublist.2 fun {s t} hst => ?_
    have hs : s ∈ done := hst.subset List.mem_cons_self
    have ht : t ∈ done := hst.subset (List.mem_cons_of_mem _ List.mem_cons_self)
    have hfirsts : [f.firstOf s, f.firstOf t].Sublist (done.flatMap f.enumerate) := by
      refine List.Sublist.trans ?_ (hst.flatMap f.enumerate)
      rw [List.flatMap_cons, List.flatMap_singleton]
      exact (List.singleton_sublist.2 (h.firstOf_mem (hd.tops hs))).append
        (List.singleton_sublist.2 (h.firstOf_mem (hd.tops ht)))
    rw [hindex hs, hindex ht, indexLe, decide_eq_true_iff]
    exact Nat.le_of_lt (idxOf_lt_of_sublist hnd hfirsts)
  · rw [hindex hs, hindex ht, indexLe, indexLe, decide_eq_true_iff, decide_eq_true_iff]
    intro hle hge
    have heq := (List.idxOf_inj (hfirst hs)).1 (Nat.le_antisymm hle hge)
    exact h.eq_of_mem (hd.tops hs) (hd.tops ht) (h.firstOf_mem (hd.tops hs)) (heq ▸ h.firstOf_mem (hd.tops ht))

/-- When all slots have been indexed, their blocks are all owners. -/
theorem blocks_perm (h : SlotForest.Standing slots f) (hperm : done.Perm f.tops) :
    ((done.flatMap f.enumerate).map f.blockOf).Perm slots.owners := by
  have hatoms := (hperm.flatMap_right f.enumerate).trans h.perm
  exact (hatoms.map f.blockOf).trans (.of_eq (SlotForest.map_blockOf_range h.grown))

/-- **The index of an atomic slot is the place of its block** among the blocks of the slots indexed. -/
theorem indexOf_atom (h : SlotForest.Standing slots f) (hnd : slots.owners.Nodup)
    (hd : SlotForest.Indexed slots f n done) (hperm : done.Perm f.tops) {a : Nat} (ha : a < slots.owners.length) :
    n.indexOf a = some (((done.flatMap f.enumerate).map f.blockOf).idxOf (f.blockOf a)) := by
  have hatoms := (hperm.flatMap_right f.enumerate).trans h.perm
  have hblock : f.blockOf a ∈ (done.flatMap f.enumerate).map f.blockOf :=
    (blocks_perm h hperm).mem_iff.2 (List.mem_of_getElem? (SlotForest.getElem?_owners h.grown ha))
  rw [hd.lists.indexOf, ← idxOf?_eq_some hblock]
  refine (idxOf?_map_on fun b hb heq => ?_).symm
  exact (SlotForest.blockOf_inj h.grown hnd (List.mem_range.1 (hatoms.mem_iff.1 hb)) ha).1 heq

/-- **What is read off the slots**, when all of them have been indexed, is the schedule of their runs. -/
theorem read_eq {g : FlowGraph} {sizes : Array Nat} {next : Nat → Option Nat} (hset : (g.ownership sizes).Settled next)
    (howners : slots.owners = (g.ownership sizes).owners) (hcold : slots.isCold = g.cold.contains)
    (h : SlotForest.Mirrored slots f) (hd : SlotForest.Indexed slots f n done) (hperm : done.Perm f.tops) :
    read g.size (g.ownership sizes) f n (List.range slots.owners.length) = .ok (ofRuns g sizes (done.map f.row)) := by
  have hgrown := h.standing.grown
  have hgroups : (done.map f.row).map Run.blocks = done.map fun t => (f.enumerate t).map f.blockOf := by
    rw [List.map_map]
    exact List.map_congr_left fun t ht => h.standing.blocks_row (hd.tops ht)
  have horder : ((done.map f.row).map Run.blocks).flatten = (done.flatMap f.enumerate).map f.blockOf := by
    rw [hgroups, List.map_flatMap, List.flatMap_def]
  rw [ofRuns, horder, hgroups]
  have hplace := fun {a : Nat} => indexOf_atom (a := a) h.standing h.tidy.owners hd hperm
  have howner := blocks_perm h.standing hperm
  generalize (done.flatMap f.enumerate).map f.blockOf = order at hplace howner ⊢
  have hnd : order.Nodup := howner.nodup_iff.2 h.tidy.owners
  have hindexed : ∀ a ∈ List.range slots.owners.length, (g.ownership sizes).ownerOf (f.blockOf a) = some (f.blockOf a) ∧
      f.blockOf a ∈ order ∧ n.indexOf a = some (order.idxOf (f.blockOf a)) ∧
      f.isCold a = g.cold.contains (f.blockOf a) := by
    intro a ha
    have hlt := List.mem_range.1 ha
    have hblock : f.blockOf a ∈ slots.owners := List.mem_of_getElem? (SlotForest.getElem?_owners hgrown hlt)
    refine ⟨(Ownership.mem_owners hset _).1 (howners ▸ hblock), howner.mem_iff.2 hblock, hplace hlt, ?_⟩
    rw [← hcold, SlotForest.isCold_blockOf hgrown hlt]
  obtain ⟨d, henter, henters⟩ := exists_enterAll hset _ Draft.enters_blank hindexed
  rw [List.nil_append, SlotForest.map_blockOf_range hgrown] at henters
  have hall : ∀ o, o ∈ slots.owners ↔ o ∈ (g.ownership sizes).owners := fun o => by rw [howners]
  have haliases : ∀ b, (if b ∈ slots.owners then (g.ownership sizes).aliasesOf b else []) =
      (g.ownership sizes).aliasesOf b := by
    intro b
    split
    · rfl
    · rename_i hb
      exact (Ownership.aliasesOf_eq_nil hset fun hmem => hb ((hall b).2 hmem)).symm
  rw [read, henter]
  simp only [bind, Except.bind, henters.placed, sortBy_placed hnd howner, sortBy_tops h.standing hd hperm, henters.index,
    henters.cold, henters.aliases, ownerAmong_eq hset hall, haliases, List.map_map]
  simp [Function.comp_def]

end Read

/-- Slots are owned by blocks, and links lead from one owner to another. -/
theorem tidy_slots {g : FlowGraph} (hg : g.Closed) (forest : LoopForest) (sizes : Array Nat) :
    (SlotGraph.of g forest (g.ownership sizes)).Tidy := by
  have hset := FlowGraph.settled_ownership hg sizes
  have howner : ∀ {b : Nat}, g.Reaches b → ((g.ownership sizes).ownerOf b).getD b ∈ (g.ownership sizes).owners := by
    intro b hb
    obtain ⟨o, ho⟩ := Option.isSome_iff_exists.1 ((FlowGraph.ownerOf_isSome_iff hg sizes b).2 hb)
    rw [ho]
    exact (Ownership.mem_owners hset o).2 (hset.owner b o ho)
  have hends : ∀ l ∈ (SlotGraph.of g forest (g.ownership sizes)).links,
      l.source ∈ (g.ownership sizes).owners ∧ l.target ∈ (g.ownership sizes).owners := by
    intro l hl
    obtain ⟨b, hb, hl⟩ := List.mem_flatMap.1 (List.mem_filter.1 (List.mem_eraseDups.1 hl)).1
    obtain ⟨s, hs, rfl⟩ := List.mem_map.1 hl
    have hreach := (FlowGraph.mem_order hg b).1 hb
    exact ⟨howner hreach, howner (hreach.step (FlowGraph.mem_succs_of_mem_normalSuccs hs))⟩
  exact ⟨Ownership.nodup_owners hset, nodup_eraseDups _, fun l hl => (hends l hl).1, fun l hl => (hends l hl).2⟩

/-- **Scheduling gives every slot an index, and reads off the schedule of the runs.** -/
theorem arrange_eq {g : FlowGraph} (hg : g.Closed) (forest : LoopForest) (sizes : Array Nat) :
    arrange g forest sizes = .ok (byRuns g forest sizes) := by
  have htidy := tidy_slots hg forest sizes
  rw [arrange, byRuns]
  generalize hslots : SlotGraph.of g forest (g.ownership sizes) = slots at htidy
  have howners : slots.owners = (g.ownership sizes).owners := hslots ▸ rfl
  have hcold : slots.isCold = g.cold.contains := hslots ▸ rfl
  obtain ⟨hmirrored, hleads, hrows⟩ := SlotForest.mirrored_grow htidy slots.owners.length
  obtain ⟨hnumbered, -⟩ := hmirrored.tells_indexAll _ hleads
  have hruns := (SlotGraph.numberRuns_spec hmirrored.standing.divided_rows htidy.owners).1
  obtain ⟨done, hdone, hmap, hperm⟩ := hnumbered.exists_perm hmirrored hruns
  have hread := read_eq (FlowGraph.settled_ownership hg sizes) howners hcold hmirrored hdone hperm
  rw [hmap, hrows] at hread
  exact hread

end Schedule

end CodeImage
