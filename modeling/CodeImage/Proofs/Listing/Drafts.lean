import Mathlib.Data.List.Induction
import Mathlib.Data.List.Pairwise
import CodeImage.Proofs.Listing.Items
import CodeImage.Proofs.Outcome
/-!
# Drafts — a method and the draft that it is made from

A draft is made from its own items (`Draft.foldlM_items`).  The other way round a method shows the draft that it could
have been made from (`ListedMethod.draft`): the blocks are those that were read, and the clauses stand by the blocks that
they protect.  Making a method from that draft gives the same method (`finish_draft`), since clauses for different blocks
do not interfere (`foldl_protect`).
-/
namespace CodeImage

namespace Draft

/-! ## Items of a draft -/

/-- **The items of a draft**: its types, its blocks, then all clauses. -/
def items (d : Draft) : List BodyItem :=
  d.types.map (fun (ty, parent) => .type ty parent)
    ++ d.blocks.reverse.flatMap (fun (name, insns) => .block name :: insns.map .insn)
    ++ d.clauses.map fun (block, handler, filter) => .protect block handler filter

def Spelled (d : Draft) : Prop := ∀ item ∈ d.items, item.Spelled

theorem foldlM_types : ∀ (types : List (Nat × Nat)) (d : Draft),
    (types.map fun (ty, parent) => BodyItem.type ty parent).foldlM add? d = some { d with types := d.types ++ types }
  | [], d => by simp
  | (ty, parent) :: types, d => by
    rw [List.map_cons, List.foldlM_cons]
    exact (foldlM_types types _).trans (by simp)

theorem foldlM_insns (name : String) (rest : List (String × List Insn)) : ∀ (insns front : List Insn) (d : Draft),
    (insns.map BodyItem.insn).foldlM add? { d with blocks := (name, front) :: rest } =
      some { d with blocks := (name, front ++ insns) :: rest }
  | [], front, d => by simp
  | i :: insns, front, d => by
    rw [List.map_cons, List.foldlM_cons]
    exact (foldlM_insns name rest insns (front ++ [i]) d).trans (by simp)

theorem foldlM_blocks : ∀ (blocks : List (String × List Insn)) (d : Draft),
    (blocks.flatMap fun (name, insns) => BodyItem.block name :: insns.map .insn).foldlM add? d =
      some { d with blocks := blocks.reverse ++ d.blocks }
  | [], d => by simp
  | (name, insns) :: blocks, d => by
    rw [List.flatMap_cons, List.cons_append, List.foldlM_cons]
    simp only [add?, Option.bind_eq_bind, Option.bind_some, List.foldlM_append, foldlM_insns name d.blocks insns [] d]
    exact (foldlM_blocks blocks _).trans (by simp)

theorem foldlM_clauses : ∀ (clauses : List (String × String × Option Nat)) (d : Draft),
    (clauses.map fun (block, handler, filter) => BodyItem.protect block handler filter).foldlM add? d =
      some { d with clauses := d.clauses ++ clauses }
  | [], d => by simp
  | (block, handler, filter) :: clauses, d => by
    rw [List.map_cons, List.foldlM_cons]
    exact (foldlM_clauses clauses _).trans (by simp)

/-- **A draft is made from its items.** -/
theorem foldlM_items (d : Draft) : d.items.foldlM add? empty = some d := by
  simp only [items, List.foldlM_append, foldlM_types, foldlM_blocks, foldlM_clauses, Option.bind_eq_bind, Option.bind_some]
  simp [empty]

theorem clauses_last (d : Draft) : d.items.Pairwise fun a b => a.isClause = true → b.isClause = true := by
  rw [items, List.pairwise_append]
  have hfront : ∀ item ∈ d.types.map (fun (ty, parent) => BodyItem.type ty parent)
      ++ d.blocks.reverse.flatMap (fun (name, insns) => .block name :: insns.map .insn), item.isClause = false := by
    intro item hitem
    rcases List.mem_append.1 hitem with hitem | hitem
    · obtain ⟨_, -, rfl⟩ := List.mem_map.1 hitem
      rfl
    · obtain ⟨⟨name, insns⟩, -, hitem⟩ := List.mem_flatMap.1 hitem
      rcases List.mem_cons.1 hitem with rfl | hitem
      · rfl
      · obtain ⟨_, -, rfl⟩ := List.mem_map.1 hitem
        rfl
  refine ⟨?_, ?_, fun a ha b hb hclause => ?_⟩
  · exact List.pairwise_of_forall_mem_list fun a ha b _ hclause => by simp [hfront a ha] at hclause
  · refine List.pairwise_of_forall_mem_list fun a _ b hb _ => ?_
    obtain ⟨_, -, rfl⟩ := List.mem_map.1 hb
    rfl
  · simp [hfront a ha] at hclause

theorem mem_items_of_add? {d d' : Draft} {item item' : BodyItem} (h : d.add? item = some d') (hitem' : item' ∈ d'.items) :
    item' ∈ d.items ∨ item' = item := by
  cases item with
  | type ty parent =>
    cases h
    simp only [items, List.map_append, List.mem_append, List.map_cons, List.map_nil, List.mem_singleton] at hitem' ⊢
    tauto
  | protect block handler filter =>
    cases h
    simp only [items, List.map_append, List.mem_append, List.map_cons, List.map_nil, List.mem_singleton] at hitem' ⊢
    tauto
  | block name =>
    cases h
    simp only [items, List.reverse_cons, List.flatMap_append, List.mem_append, List.flatMap_cons, List.flatMap_nil,
      List.map_nil, List.append_nil, List.mem_singleton] at hitem' ⊢
    tauto
  | insn i =>
    simp only [add?] at h
    split at h
    · rename_i name insns rest hblocks
      cases h
      simp only [items, hblocks, List.reverse_cons, List.flatMap_append, List.mem_append, List.flatMap_cons,
        List.flatMap_nil, List.map_append, List.map_cons, List.map_nil, List.append_nil, List.mem_cons]
        at hitem' ⊢
      tauto
    · cases h

end Draft

/-- **A draft that is read is spelled.** -/
theorem Cursor.Words.readItems {c c' : Cursor} {d d' : Draft} (h : c.Words) (hd : d.Spelled)
    (hr : c.readItems d = .ok (d', c')) : d'.Spelled ∧ c'.Words := by
  fun_induction Cursor.readItems d c with
  | case1 d c c₁ htake =>
    cases hr
    exact ⟨hd, h.tail (Cursor.take?_eq_some htake)⟩
  | case2 => cases hr
  | case3 d c htake item c₁ hitem d₁ hadd ih =>
    obtain ⟨hspelled, hwords⟩ := h.readItem hitem
    refine ih hwords (fun item' hitem' => ?_) hr
    rcases Draft.mem_items_of_add? hadd hitem' with hitem' | rfl
    · exact hd item' hitem'
    · exact hspelled
  | case4 => cases hr

/-! ## Blocks of a method -/

namespace ListedMethod

/-- The blocks of instructions that stand one behind the other from a number on. -/
def blocksFrom (start : Nat) : List (String × List Insn) → List ListedBlock
  | [] => []
  | (name, insns) :: rest => ⟨name, start, insns.length, []⟩ :: blocksFrom (start + insns.length) rest

theorem foldl_addBlock : ∀ (blocks : List (String × List Insn)) (m : ListedMethod),
    blocks.foldl (fun m (name, insns) => m.addBlock name insns) m =
      { m with insns := m.insns ++ blocks.flatMap Prod.snd, blocks := m.blocks ++ blocksFrom m.insns.length blocks }
  | [], m => by simp [blocksFrom]
  | (name, insns) :: blocks, m => by
    rw [List.foldl_cons, foldl_addBlock blocks]
    simp [addBlock, blocksFrom]

theorem map_blocksFrom {insns : List Insn} : ∀ {blocks : List (String × List Insn)} {start : Nat},
    insns.drop start = blocks.flatMap Prod.snd →
    (blocksFrom start blocks).map (fun b => (b.name, (insns.drop b.start).take b.length)) = blocks
  | [], _, _ => rfl
  | (name, front) :: blocks, start, h => by
    rw [List.flatMap_cons] at h
    have hrest : insns.drop (start + front.length) = blocks.flatMap Prod.snd := by
      rw [← List.drop_drop, h, List.drop_left]
    rw [blocksFrom, List.map_cons, map_blocksFrom hrest, h, List.take_left]

/-! ## Clauses of a method -/

theorem blockNamed?_congr {m m' : ListedMethod} (h : m.blocks.map (·.name) = m'.blocks.map (·.name)) (name : String) :
    m.blockNamed? name = m'.blockNamed? name := by
  have hmap : ∀ m : ListedMethod, m.blockNamed? name = (m.blocks.map (·.name)).findIdx? (· == name) := by
    intro m
    rw [List.findIdx?_map]
    rfl
  rw [hmap, hmap, h]

def protectionOf (c : String × String × Option Nat) : Protection := ⟨.unresolved c.2.1, c.2.2⟩

def clausesFor (m : ListedMethod) (clauses : List (String × String × Option Nat)) (i : Nat) :
    List (String × String × Option Nat) := clauses.filter fun c => m.blockNamed? c.1 == some i

/-- **The method with clauses by the blocks that they name.** -/
def withClauses (m : ListedMethod) (clauses : List (String × String × Option Nat)) : ListedMethod :=
  { m with blocks := m.blocks.mapIdx fun i b =>
      { b with protection := b.protection ++ (m.clausesFor clauses i).map protectionOf } }

theorem getElem?_withClauses (m : ListedMethod) (clauses : List (String × String × Option Nat)) (i : Nat) :
    (m.withClauses clauses).blocks[i]? = m.blocks[i]?.map fun b =>
      { b with protection := b.protection ++ (m.clausesFor clauses i).map protectionOf } := by
  rw [withClauses, List.getElem?_mapIdx]

theorem map_withClauses {α : Type} (f : String → Nat → Nat → α) (m : ListedMethod)
    (clauses : List (String × String × Option Nat)) :
    (m.withClauses clauses).blocks.map (fun b => f b.name b.start b.length) =
      m.blocks.map fun b => f b.name b.start b.length := by
  apply List.ext_getElem?
  intro i
  rw [List.getElem?_map, List.getElem?_map, getElem?_withClauses, Option.map_map]
  rfl

theorem blockNamed?_withClauses (m : ListedMethod) (clauses : List (String × String × Option Nat)) (name : String) :
    (m.withClauses clauses).blockNamed? name = m.blockNamed? name :=
  blockNamed?_congr (map_withClauses (fun name _ _ => name) m clauses) name

theorem withClauses_nil (m : ListedMethod) : m.withClauses [] = m := by
  have hblocks : (m.withClauses []).blocks = m.blocks := by
    apply List.ext_getElem?
    intro i
    rw [getElem?_withClauses]
    simp [clausesFor]
  exact congrArg (fun blocks => { m with blocks }) hblocks

theorem withClauses_append (m : ListedMethod) (front back : List (String × String × Option Nat)) :
    (m.withClauses front).withClauses back = m.withClauses (front ++ back) := by
  have hblocks : ((m.withClauses front).withClauses back).blocks = (m.withClauses (front ++ back)).blocks := by
    apply List.ext_getElem?
    intro i
    simp only [getElem?_withClauses, Option.map_map, clausesFor, blockNamed?_withClauses, List.filter_append,
      List.map_append]
    congr 1
    funext b
    simp
  exact congrArg (fun blocks => { m with blocks }) hblocks

theorem protect_eq_withClauses {m : ListedMethod} {c : String × String × Option Nat} {k : Nat}
    (h : m.blockNamed? c.1 = some k) : m.protect c.1 c.2.1 c.2.2 = m.withClauses [c] := by
  have hblocks : (m.blocks.modify k fun x => { x with protection := x.protection ++ [protectionOf c] }) =
      (m.withClauses [c]).blocks := by
    apply List.ext_getElem?
    intro i
    rw [getElem?_withClauses, List.getElem?_modify, clausesFor]
    by_cases hi : k = i
    · subst hi
      simp [h]
    · simp [h, hi]
  unfold protect
  rw [h]
  exact congrArg (fun blocks => { m with blocks }) hblocks

/-- **Clauses go to the blocks that they name**, each behind those before it. -/
theorem foldl_protect : ∀ {clauses : List (String × String × Option Nat)} {m : ListedMethod},
    (∀ c ∈ clauses, ∃ k, m.blockNamed? c.1 = some k) →
    clauses.foldl (fun m (block, handler, filter) => m.protect block handler filter) m = m.withClauses clauses
  | [], m, _ => (withClauses_nil m).symm
  | c :: clauses, m, h => by
    obtain ⟨⟨k, hk⟩, h⟩ := List.forall_mem_cons.1 h
    -- a clause for a known name adds no block, so that the others still name blocks
    have hrest : ∀ c' ∈ clauses, ∃ k, (m.withClauses [c]).blockNamed? c'.1 = some k := by
      intro c' hc'
      rw [blockNamed?_withClauses]
      exact h c' hc'
    rw [List.foldl_cons]
    change clauses.foldl _ (m.protect c.1 c.2.1 c.2.2) = _
    rw [protect_eq_withClauses hk, foldl_protect hrest, withClauses_append, List.singleton_append]

/-- **An empty block stays** when a clause is added, and a clause for an unknown name adds one. -/
theorem exists_empty_protect {m : ListedMethod} (c : String × String × Option Nat)
    (h : (∃ b ∈ m.blocks, b.length = 0) ∨ m.blockNamed? c.1 = none) :
    ∃ b ∈ (m.protect c.1 c.2.1 c.2.2).blocks, b.length = 0 := by
  unfold protect
  split
  · rename_i k hk
    obtain ⟨b, hb, hlength⟩ := h.resolve_right (by simp [hk])
    obtain ⟨j, hj⟩ := List.mem_iff_getElem?.1 hb
    have hj' := List.getElem?_modify (fun x : ListedBlock => { x with protection := x.protection ++ [protectionOf c] })
      k m.blocks j
    rw [hj] at hj'
    refine ⟨_, List.mem_of_getElem? hj', ?_⟩
    by_cases hkj : k = j
    · simp [hkj, hlength]
    · simp [hkj, hlength]
  · exact ⟨_, List.mem_append_right _ List.mem_cons_self, rfl⟩

theorem exists_empty_foldl : ∀ {clauses : List (String × String × Option Nat)} {m : ListedMethod},
    (∃ b ∈ m.blocks, b.length = 0) →
    ∃ b ∈ (clauses.foldl (fun m (block, handler, filter) => m.protect block handler filter) m).blocks, b.length = 0
  | [], _, h => h
  | c :: _, m, h => exists_empty_foldl (m := m.protect c.1 c.2.1 c.2.2) (exists_empty_protect c (.inl h))

/-- **Where no block is empty, all clauses name blocks.** -/
theorem exists_blockNamed_of_foldl : ∀ {clauses : List (String × String × Option Nat)} {m : ListedMethod},
    (∀ b ∈ (clauses.foldl (fun m (block, handler, filter) => m.protect block handler filter) m).blocks, b.length ≠ 0) →
    ∀ c ∈ clauses, ∃ k, m.blockNamed? c.1 = some k
  | [], _, _, c, hc => nomatch hc
  | c :: clauses, m, h, c', hc' => by
    -- a clause for an unknown name would leave an empty block for good
    have hknown : ∃ k, m.blockNamed? c.1 = some k := by
      by_contra hnone
      rw [← Option.isSome_iff_exists, Bool.not_eq_true, Option.isSome_eq_false_iff, Option.isNone_iff_eq_none] at hnone
      obtain ⟨b, hb, hlength⟩ := exists_empty_foldl (exists_empty_protect c (.inr hnone))
      exact h b hb hlength
    rcases List.mem_cons.1 hc' with rfl | hc'
    · exact hknown
    · obtain ⟨k, hk⟩ := hknown
      have hrest := exists_blockNamed_of_foldl (m := m.protect c.1 c.2.1 c.2.2) h c' hc'
      rwa [protect_eq_withClauses hk, blockNamed?_withClauses] at hrest

end ListedMethod

/-! ## Labels as names -/

/-- The instruction with its labels as they are read. -/
def Insn.unresolved : Insn → Insn
  | .goto l => .goto (.unresolved l.name)
  | .branch a b => .branch (.unresolved a.name) (.unresolved b.name)
  | i => i

theorem Insn.text_unresolved (i : Insn) : i.unresolved.text = i.text := by
  cases i <;> rfl

theorem Insn.Spelled.unresolved_eq {i : Insn} (h : i.Spelled) : i.unresolved = i := by
  cases i with
  | goto l => rw [unresolved, ← h.1]
  | branch a b => rw [unresolved, ← h.1.1, ← h.2.1]
  | _ => rfl

namespace ListedMethod

theorem resolve_eq_ok {m : ListedMethod} {l l' : Label} (h : m.resolve l = .ok l') :
    ∃ b, m.blockNamed? l.name = some b ∧ l' = .resolved l.name b := by
  unfold resolve at h
  split at h
  · rename_i b hb
    cases h
    exact ⟨b, hb, rfl⟩
  · cases h

theorem unresolved_resolveInsn {m : ListedMethod} {i i' : Insn} (h : m.resolveInsn i = (i', none)) :
    i'.unresolved = i.unresolved := by
  unfold resolveInsn at h
  split at h
  · split at h
    · rename_i l l' hl
      cases h
      obtain ⟨b, -, rfl⟩ := resolve_eq_ok hl
      rfl
    · cases h
  · split at h
    · cases h
    · rename_i a b a' ha
      split at h
      · rename_i b' hb
        cases h
        obtain ⟨_, -, rfl⟩ := resolve_eq_ok ha
        obtain ⟨_, -, rfl⟩ := resolve_eq_ok hb
        rfl
      · cases h
  · cases h
    rfl

theorem unresolved_resolveInsns {m : ListedMethod} : ∀ {insns insns' : List Insn},
    m.resolveInsns insns = (insns', none) → insns'.map Insn.unresolved = insns.map Insn.unresolved
  | [], _, h => by
    cases h
    rfl
  | i :: rest, insns', h => by
    rw [resolveInsns] at h
    split at h
    · cases h
    · rename_i i' hi
      cases hrest : m.resolveInsns rest with
      | mk rest' e =>
        rw [hrest] at h
        cases h
        rw [List.map_cons, List.map_cons, unresolved_resolveInsn hi, unresolved_resolveInsns hrest]

/-- What the draft of a method shows of a block. -/
def outlineOf (b : ListedBlock) : String × Nat × Nat × List (String × Option Nat) :=
  (b.name, b.start, b.length, b.protection.map fun p => (p.handler.name, p.filter))

theorem outlineOf_resolveBlock {m : ListedMethod} {b b' : ListedBlock} (h : m.resolveBlock b = .ok b') :
    outlineOf b' = outlineOf b := by
  obtain ⟨protection, hprotection, h⟩ := Outcome.bind_eq_ok.1 h
  cases h
  have hkept : protection.map (fun p => (p.handler.name, p.filter)) =
      b.protection.map fun p => (p.handler.name, p.filter) := by
    refine Outcome.map_of_mapM (fun {p p'} hp => ?_) hprotection
    obtain ⟨l, hl, hp⟩ := Outcome.bind_eq_ok.1 hp
    cases hp
    obtain ⟨_, -, rfl⟩ := resolve_eq_ok hl
    rfl
  rw [outlineOf, outlineOf, hkept]

theorem complete_eq {m₀ m : ListedMethod} (h : m₀.complete = (m, none)) :
    (∀ b ∈ m₀.blocks, b.length ≠ 0) ∧ m.name = m₀.name ∧ m.types = m₀.types ∧ m₀.resolve m₀.entry = .ok m.entry ∧
      m.insns.map Insn.unresolved = m₀.insns.map Insn.unresolved ∧ m.blocks.map outlineOf = m₀.blocks.map outlineOf := by
  unfold complete at h
  split at h
  · cases h
  · rename_i hexits
    have hfilled : ∀ b ∈ m₀.blocks, b.length ≠ 0 := by
      intro b hb hlength
      have hnone := List.findSome?_eq_none_iff.1 hexits b hb
      simp [insnsOf, hlength, exitFault?] at hnone
    split at h
    · cases h
    · rename_i insns hinsns
      split at h
      · cases h
      · rename_i entry hentry
        split at h
        · cases h
        · rename_i blocks hblocks
          cases h
          exact ⟨hfilled, rfl, rfl, hentry, unresolved_resolveInsns hinsns,
            Outcome.map_of_mapM (fun hb => outlineOf_resolveBlock hb) hblocks⟩

/-! ## The draft of a method -/

/-- **The draft that a method may have been made from.** -/
def draft (m : ListedMethod) : Draft where
  types := m.types.parents
  blocks := ((m.renderOrder.filterMap fun i => m.blocks[i]?).map fun b =>
    (b.name, (m.insnsOf b).map fun (i, _) => i.unresolved)).reverse
  clauses := m.blocks.flatMap fun b => b.protection.map fun p => (b.name, p.handler.name, p.filter)

theorem filterMap_range_getElem? {α : Type} (l : List α) : (List.range l.length).filterMap (fun i => l[i]?) = l := by
  induction l using List.reverseRecOn with
  | nil => rfl
  | append_singleton l a ih =>
    have hfront : (List.range l.length).filterMap (fun i => (l ++ [a])[i]?) = l := by
      conv_rhs => rw [← ih]
      refine List.filterMap_congr fun i hi => ?_
      rw [List.getElem?_append_left (List.mem_range.1 hi)]
    rw [List.length_append, List.length_singleton, List.range_succ, List.filterMap_append, hfront]
    simp

theorem renderOrder_of_entry {m : ListedMethod} (h : m.entry.block? = none ∨ m.entry.block? = some 0)
    (hne : m.blocks ≠ []) : m.renderOrder = List.range m.blocks.length := by
  unfold renderOrder
  rcases h with h | h
  · rw [h]
  · obtain ⟨n, hn⟩ := Nat.exists_eq_succ_of_ne_zero (Nat.ne_of_gt (List.length_pos_iff.2 hne))
    rw [h, hn, List.range_succ_eq_map]
    simp

theorem map_insnsOf (m : ListedMethod) (b : ListedBlock) : (m.insnsOf b).map (fun (i, _) => i.unresolved) =
    ((m.insns.map Insn.unresolved).drop b.start).take b.length := by
  have hfst : (m.insnsOf b).map Prod.fst = (m.insns.drop b.start).take b.length := List.zipIdx_map_fst ..
  rw [← List.map_drop, ← List.map_take, ← hfst, List.map_map]
  rfl

theorem draft_eq {m : ListedMethod} (h : m.renderOrder = List.range m.blocks.length) : m.draft = ⟨m.types.parents,
    (m.blocks.map fun b => (b.name, ((m.insns.map Insn.unresolved).drop b.start).take b.length)).reverse,
    m.blocks.flatMap fun b => b.protection.map fun p => (b.name, p.handler.name, p.filter)⟩ := by
  simp only [draft, h, filterMap_range_getElem?, map_insnsOf]

theorem draft_congr {m m' : ListedMethod} (horder : m.renderOrder = List.range m.blocks.length)
    (horder' : m'.renderOrder = List.range m'.blocks.length) (htypes : m.types = m'.types)
    (hinsns : m.insns.map Insn.unresolved = m'.insns.map Insn.unresolved)
    (hblocks : m.blocks.map outlineOf = m'.blocks.map outlineOf) : m.draft = m'.draft := by
  have hmap : ∀ m : ListedMethod, m.blocks.map (fun b =>
      (b.name, ((m'.insns.map Insn.unresolved).drop b.start).take b.length)) =
      (m.blocks.map outlineOf).map fun (name, start, length, _) =>
        (name, ((m'.insns.map Insn.unresolved).drop start).take length) := by
    intro m
    rw [List.map_map]
    rfl
  have hclauses : ∀ m : ListedMethod,
      (m.blocks.flatMap fun b => b.protection.map fun p => (b.name, p.handler.name, p.filter)) =
      (m.blocks.map outlineOf).flatMap fun (name, _, _, clauses) => clauses.map fun (handler, filter) =>
        (name, handler, filter) := by
    intro m
    rw [List.flatMap_map]
    simp [outlineOf, Function.comp_def]
  rw [draft_eq horder, draft_eq horder', htypes, hinsns, hmap, hmap, hclauses, hclauses, hblocks]

/-! ## Clauses by block -/

theorem flatMap_range_ite {α : Type} (l : List α) (i : Nat) : ∀ n : Nat,
    ((List.range n).flatMap fun j => if j = i then l else []) = if i < n then l else []
  | 0 => by simp
  | n + 1 => by
    rw [List.range_succ, List.flatMap_append, flatMap_range_ite l i n, List.flatMap_singleton]
    rcases Nat.lt_trichotomy i n with hlt | rfl | hgt
    · simp [hlt, Nat.lt_succ_of_lt hlt, Nat.ne_of_gt hlt]
    · simp
    · simp [Nat.not_lt.2 (Nat.le_of_lt hgt), Nat.not_lt.2 hgt, Nat.ne_of_lt hgt]

/-- The clauses in the order of the blocks that they name. -/
def byBlock (m : ListedMethod) (clauses : List (String × String × Option Nat)) : List (String × String × Option Nat) :=
  (List.range m.blocks.length).flatMap (m.clausesFor clauses)

theorem clausesFor_byBlock (m : ListedMethod) (clauses : List (String × String × Option Nat)) {i : Nat}
    (hi : i < m.blocks.length) : m.clausesFor (m.byBlock clauses) i = m.clausesFor clauses i := by
  -- block `i` takes all clauses that were put down for `i`, and none of those for another block
  have hfor : ∀ j, (m.clausesFor clauses j).filter (fun c => m.blockNamed? c.1 == some i) =
      if j = i then m.clausesFor clauses i else [] := by
    intro j
    rw [clausesFor, List.filter_filter]
    split
    · rename_i hj
      simp [hj, clausesFor]
    · rename_i hj
      refine List.filter_eq_nil_iff.2 fun c _ hc => hj ?_
      simp only [Bool.and_eq_true, beq_iff_eq] at hc
      exact Option.some.inj (hc.2.symm.trans hc.1)
  rw [clausesFor, byBlock, List.filter_flatMap]
  simp only [hfor, flatMap_range_ite, if_pos hi]

theorem withClauses_byBlock (m : ListedMethod) (clauses : List (String × String × Option Nat)) :
    m.withClauses (m.byBlock clauses) = m.withClauses clauses := by
  have hblocks : (m.withClauses (m.byBlock clauses)).blocks = (m.withClauses clauses).blocks := by
    apply List.ext_getElem?
    intro i
    rw [getElem?_withClauses, getElem?_withClauses]
    by_cases hi : i < m.blocks.length
    · rw [clausesFor_byBlock m clauses hi]
    · simp [List.getElem?_eq_none (Nat.not_lt.1 hi)]
  exact congrArg (fun blocks => { m with blocks }) hblocks

theorem name_of_blockNamed? {m : ListedMethod} {name : String} {i : Nat} {b : ListedBlock}
    (h : m.blockNamed? name = some i) (hb : m.blocks[i]? = some b) : b.name = name := by
  obtain ⟨hi, hname, -⟩ := List.findIdx?_eq_some_iff_getElem.1 h
  obtain ⟨_, rfl⟩ := List.getElem?_eq_some_iff.1 hb
  exact beq_iff_eq.1 hname

/-- **The clauses of a method that had none** are those that were added. -/
theorem clauses_withClauses {m : ListedMethod} (hbare : ∀ b ∈ m.blocks, b.protection = [])
    (clauses : List (String × String × Option Nat)) :
    ((m.withClauses clauses).blocks.flatMap fun b => b.protection.map fun p => (b.name, p.handler.name, p.filter)) =
      m.byBlock clauses := by
  have hown : ∀ e ∈ m.blocks.zipIdx, (e.1.protection ++ (m.clausesFor clauses e.2).map protectionOf).map
      (fun p => (e.1.name, p.handler.name, p.filter)) = m.clausesFor clauses e.2 := by
    rintro ⟨b, i⟩ he
    have hb := List.mem_zipIdx_iff_getElem?.1 he
    rw [hbare b (List.mem_of_getElem? hb), List.nil_append, List.map_map]
    conv_rhs => rw [← List.map_id (m.clausesFor clauses i)]
    refine List.map_congr_left fun c hc => ?_
    have hname : b.name = c.1 := name_of_blockNamed? (beq_iff_eq.1 (List.mem_filter.1 hc).2) hb
    simp [protectionOf, Label.name, hname]
  have hrange : List.range m.blocks.length = m.blocks.zipIdx.map Prod.snd := by
    rw [List.zipIdx_map_snd, List.range_eq_range']
  rw [withClauses, List.mapIdx_eq_zipIdx_map, List.flatMap_map, byBlock, hrange, List.flatMap_map]
  exact List.flatMap_congr hown

end ListedMethod

namespace Draft

open ListedMethod

/-- The blocks of a draft as a method, without types and clauses. -/
def bare (d : Draft) (name entry : String) : ListedMethod :=
  d.blocks.reverse.foldl (fun m (name, insns) => m.addBlock name insns) (ListedMethod.empty name entry)

/-- Every clause names a block. -/
def Grounded (d : Draft) (name entry : String) : Prop :=
  ∀ c ∈ d.clauses, ∃ k, (d.bare name entry).blockNamed? c.1 = some k

theorem bare_eq (d : Draft) (name entry : String) : d.bare name entry =
    ⟨name, .unresolved entry, d.blocks.reverse.flatMap Prod.snd, blocksFrom 0 d.blocks.reverse, ⟨[]⟩, []⟩ := by
  rw [bare, foldl_addBlock]
  simp [ListedMethod.empty]

theorem protection_blocksFrom : ∀ (blocks : List (String × List Insn)) (start : Nat),
    ∀ b ∈ blocksFrom start blocks, b.protection = []
  | [], _, _, hb => nomatch hb
  | (name, insns) :: blocks, start, b, hb => by
    rcases List.mem_cons.1 hb with rfl | hb
    · rfl
    · exact protection_blocksFrom blocks _ b hb

theorem method_eq {d : Draft} {name entry : String}
    (h : d.Grounded name entry) :
    d.method name entry = { (d.bare name entry).withClauses d.clauses with types := ⟨d.types⟩ } := by
  rw [← foldl_protect h]
  rfl

/-- The draft with its clauses in the order of the blocks that they name. -/
def grouped (d : Draft) (name entry : String) : Draft := { d with clauses := (d.bare name entry).byBlock d.clauses }

theorem method_grouped {d : Draft} {name entry : String}
    (h : d.Grounded name entry) :
    (d.grouped name entry).method name entry = d.method name entry := by
  have hgrouped : (d.grouped name entry).Grounded name entry := by
    intro c hc
    obtain ⟨i, -, hc⟩ := List.mem_flatMap.1 hc
    exact ⟨i, beq_iff_eq.1 (List.mem_filter.1 hc).2⟩
  rw [method_eq h, method_eq hgrouped]
  exact congrArg (fun m : ListedMethod => { m with types := ⟨d.types⟩ }) (withClauses_byBlock _ d.clauses)

theorem renderOrder_method {d : Draft} {name entry : String}
    (h : d.Grounded name entry) :
    (d.method name entry).renderOrder = List.range (d.method name entry).blocks.length := by
  rw [method_eq h, bare_eq]
  rfl

/-- **A method that was made from a draft** shows it again, with its clauses in the order of the blocks. -/
theorem draft_method {d : Draft} {name entry : String} (hd : d.Spelled)
    (h : d.Grounded name entry) :
    (d.method name entry).draft = d.grouped name entry := by
  have hbare : ∀ b ∈ (d.bare name entry).blocks, b.protection = [] := by
    rw [bare_eq]
    exact protection_blocksFrom _ _
  have hinsns : (d.bare name entry).insns.map Insn.unresolved = d.blocks.reverse.flatMap Prod.snd := by
    rw [bare_eq]
    conv_rhs => rw [← List.map_id (d.blocks.reverse.flatMap Prod.snd)]
    refine List.map_congr_left fun i hi => Insn.Spelled.unresolved_eq ?_
    obtain ⟨b, hb, hi⟩ := List.mem_flatMap.1 hi
    refine hd (.insn i) (List.mem_append_left _ (List.mem_append_right _ (List.mem_flatMap.2 ⟨b, hb, ?_⟩)))
    exact List.mem_cons_of_mem _ (List.mem_map_of_mem hi)
  have hblocks : ((d.bare name entry).withClauses d.clauses).blocks.map (fun b =>
      (b.name, ((d.blocks.reverse.flatMap Prod.snd).drop b.start).take b.length)) = d.blocks.reverse := by
    rw [map_withClauses fun name start length => (name, ((d.blocks.reverse.flatMap Prod.snd).drop start).take length),
      bare_eq]
    exact map_blocksFrom rfl
  rw [draft_eq (renderOrder_method h), method_eq h]
  change Draft.mk d.types (((d.bare name entry).withClauses d.clauses).blocks.map fun b =>
    (b.name, (((d.bare name entry).insns.map Insn.unresolved).drop b.start).take b.length)).reverse
    (((d.bare name entry).withClauses d.clauses).blocks.flatMap fun b =>
      b.protection.map fun p => (b.name, p.handler.name, p.filter)) = _
  rw [hinsns, hblocks, clauses_withClauses hbare, List.reverse_reverse]
  rfl

theorem spelled_grouped {d : Draft} (hd : d.Spelled) (name entry : String) : (d.grouped name entry).Spelled := by
  intro item hitem
  refine hd item ?_
  rcases List.mem_append.1 hitem with hitem | hitem
  · exact List.mem_append_left _ hitem
  · obtain ⟨c, hc, rfl⟩ := List.mem_map.1 hitem
    obtain ⟨i, -, hc⟩ := List.mem_flatMap.1 hc
    exact List.mem_append_right _ (List.mem_map_of_mem (List.mem_filter.1 hc).1)

theorem blockNamed?_entry {d : Draft} {name entry : String} {insns : List Insn}
    (hlast : d.blocks.getLast? = some (entry, insns)) : (d.bare name entry).blockNamed? entry = some 0 := by
  obtain ⟨rest, hrest⟩ := List.head?_eq_some_iff.1 (List.head?_reverse.trans hlast)
  rw [bare_eq, hrest, ListedMethod.blockNamed?, blocksFrom, List.findIdx?_cons]
  simp

/-- **A complete method shows the draft that it was made from**, with its clauses in the order of the blocks. -/
theorem draft_of_complete {d : Draft} {name entry : String} {insns : List Insn} {m : ListedMethod} (hd : d.Spelled)
    (hlast : d.blocks.getLast? = some (entry, insns)) (hcomplete : (d.method name entry).complete = (m, none))
    (hknown : d.Grounded name entry) :
    m.name = name ∧ m.draft = d.grouped name entry := by
  obtain ⟨-, hname, htypes, hentry, hinsns, hblocks⟩ := complete_eq hcomplete
  have hmethod := method_eq hknown
  have hname₀ : (d.method name entry).name = name := by
    rw [hmethod, bare_eq]
    rfl
  have hentry₀ : (d.method name entry).entry = .unresolved entry := by
    rw [hmethod, bare_eq]
    rfl
  have hfirst : (d.method name entry).blockNamed? entry = some 0 := by
    rw [hmethod]
    exact (blockNamed?_withClauses _ d.clauses entry).trans (blockNamed?_entry hlast)
  have hne : m.blocks ≠ [] := by
    intro hnil
    rw [hnil, List.map_nil, eq_comm, List.map_eq_nil_iff] at hblocks
    rw [ListedMethod.blockNamed?, hblocks] at hfirst
    cases hfirst
  obtain ⟨b, hb, hentry⟩ := resolve_eq_ok hentry
  rw [hentry₀] at hb hentry
  cases hb.symm.trans hfirst
  refine ⟨hname.trans hname₀, ?_⟩
  rw [← draft_method hd hknown]
  -- the entry has been looked up as the first block, so blocks are rendered in the order in which they were read
  refine draft_congr (renderOrder_of_entry (.inr ?_) hne) (renderOrder_method hknown) htypes hinsns hblocks
  rw [hentry]
  rfl

/-- **A complete method is made again from its draft.** -/
theorem finish_draft {d : Draft} {name : String} {m : ListedMethod} (hd : d.Spelled) (h : d.finish name = .ok m) :
    m.name = name ∧ m.draft.Spelled ∧ m.draft.finish name = .ok m := by
  unfold finish at h
  split at h
  · cases h
  · rename_i entry insns hlast
    split at h
    · rename_i m' hcomplete
      cases h
      -- completion refuses empty blocks, so no clause has added one
      have hknown : d.Grounded name entry :=
        exists_blockNamed_of_foldl (complete_eq hcomplete).1
      obtain ⟨hname, hdraft⟩ := draft_of_complete hd hlast hcomplete hknown
      refine ⟨hname, hdraft ▸ spelled_grouped hd name entry, ?_⟩
      rw [hdraft, finish, show (d.grouped name entry).blocks.getLast? = some (entry, insns) from hlast]
      dsimp only
      rw [method_grouped hknown, hcomplete]
    · cases h

end Draft

end CodeImage
