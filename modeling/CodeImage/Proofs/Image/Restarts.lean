import Mathlib.Data.List.Perm.Subperm
import CodeImage.Proofs.Image.Addresses
import CodeImage.Proofs.Image.Failures
/-!
# Restarts — how the rounds of a layout follow each other

A round that leaves a distance out of reach raises the instructions that need it.  Levels stay below the highest one and
never fall (`Course.steady`), and an image comes from a round in which every distance was in reach
(`Course.exists_inReach`).  In a program that is `RaisedOnce` an instruction holds a distance at level zero only, so it is
raised once: there are no more restarts than instructions that may be raised, and no level is ever missing
(`Course.converges`).
-/
namespace CodeImage

/-! ## Levels -/

namespace Levels

theorem get_raise (l : Levels) (key key' : Nat × Nat) :
    (l.raise key).get key' = if key' = key then l.get key + 1 else l.get key' := by
  by_cases h : key' = key
  · simp [get, raise, h]
  · simp [get, raise, List.lookup_cons, beq_eq_false_iff_ne.2 h, h]

/-- No instruction is at a higher level in `l` than in `l'`. -/
def Below (l l' : Levels) : Prop := ∀ key, l.get key ≤ l'.get key

theorem Below.refl (l : Levels) : l.Below l := fun _ => Nat.le_refl _

theorem Below.trans {a b c : Levels} (hab : a.Below b) (hbc : b.Below c) : a.Below c := fun key =>
  (hab key).trans (hbc key)

theorem below_raise (l : Levels) (key : Nat × Nat) : l.Below (l.raise key) := by
  intro key'
  rw [get_raise]
  by_cases h : key' = key
  · rw [if_pos h, h]
    omega
  · rw [if_neg h]

/-- No instruction is above level `top`. -/
def Within (l : Levels) (top : Nat) : Prop := ∀ key, l.get key ≤ top

theorem Within.raise {l : Levels} {top : Nat} (h : l.Within top) {key : Nat × Nat} (hkey : l.get key < top) :
    (l.raise key).Within top := by
  intro key'
  rw [get_raise]
  split
  · omega
  · exact h key'

/-- The instructions that have been raised, the last one first. -/
def keys (l : Levels) : List (Nat × Nat) := l.entries.map (·.1)

/-- **What is known after some restarts** if each instruction is raised once: at least one for each of them, no
instruction twice, and none but those in `among`. -/
structure Counted (l : Levels) (among : List (Nat × Nat)) (restarts : Nat) : Prop where
  positive : ∀ e ∈ l.entries, 0 < e.2
  nodup : l.keys.Nodup
  subset : l.keys ⊆ among
  restarts_le : restarts ≤ l.keys.length

theorem counted_empty (among : List (Nat × Nat)) : empty.Counted among 0 :=
  ⟨nofun, List.nodup_nil, nofun, Nat.le_refl 0⟩

namespace Counted

variable {l : Levels} {among : List (Nat × Nat)} {restarts : Nat}

theorem not_mem (h : l.Counted among restarts) {key : Nat × Nat} (hkey : l.get key = 0) : key ∉ l.keys := by
  intro hmem
  obtain ⟨⟨key', n⟩, he, rfl⟩ := List.mem_map.1 hmem
  cases hlookup : l.entries.lookup key' with
  | none => exact absurd rfl (bne_iff_ne.1 (List.lookup_eq_none_iff.1 hlookup _ he))
  | some n' =>
    obtain ⟨front, back, hsplit, -⟩ := List.lookup_eq_some_iff.1 hlookup
    have := h.positive (key', n') (by rw [hsplit]; simp)
    simp only [get, hlookup, Option.getD_some] at hkey
    omega

theorem le_length (h : l.Counted among restarts) : restarts ≤ among.length :=
  h.restarts_le.trans (h.nodup.subperm h.subset).length_le

/-- While an instruction is left to be raised, there have been fewer restarts than instructions. -/
theorem lt_length (h : l.Counted among restarts) {key : Nat × Nat} (hkey : l.get key = 0) (hmem : key ∈ among) :
    restarts < among.length := by
  have hnodup : (key :: l.keys).Nodup := List.nodup_cons.2 ⟨h.not_mem hkey, h.nodup⟩
  have hle := (hnodup.subperm (List.cons_subset.2 ⟨hmem, h.subset⟩)).length_le
  rw [List.length_cons] at hle
  have := h.restarts_le
  omega

end Counted

end Levels

namespace Program

variable {p : Program} {platform : Platform} {options : Options} {scheduled : List Scheduled}

theorem raiseAll_cons {levels next : Levels} {key : Nat × Nat} {rest : List (Nat × Nat)} :
    p.raiseAll levels (key :: rest) = .ok next ↔
      levels.get key < p.maxLevel ∧ p.raiseAll (levels.raise key) rest = .ok next := by
  simp only [raiseAll, List.foldlM_cons]
  by_cases h : p.maxLevel ≤ levels.get key
  · simp [h, Nat.not_lt.2 h, bind, Except.bind]
  · simp [h, Nat.not_le.1 h, bind, Except.bind]

theorem raiseAll_eq_ok : ∀ {insns : List (Nat × Nat)} {levels next : Levels}, p.raiseAll levels insns = .ok next →
    levels.Below next ∧ (levels.Within p.maxLevel → next.Within p.maxLevel) ∧
      next.keys = insns.reverse ++ levels.keys ∧
      ((∀ e ∈ levels.entries, 0 < e.2) → ∀ e ∈ next.entries, 0 < e.2)
  | [], levels, next, h => by
    cases h
    exact ⟨.refl levels, id, rfl, id⟩
  | key :: rest, levels, next, h => by
    obtain ⟨hlt, h⟩ := raiseAll_cons.1 h
    obtain ⟨hbelow, hwithin, hkeys, hpos⟩ := raiseAll_eq_ok h
    refine ⟨(levels.below_raise key).trans hbelow, fun hle => hwithin (hle.raise hlt), ?_, fun hle => hpos ?_⟩
    · rw [hkeys]
      simp [Levels.keys, Levels.raise]
    · exact List.forall_mem_cons.2 ⟨Nat.succ_pos _, hle⟩

theorem exists_raiseAll : ∀ {insns : List (Nat × Nat)} {levels : Levels}, insns.Nodup →
    (∀ key ∈ insns, levels.get key < p.maxLevel) → ∃ next, p.raiseAll levels insns = .ok next
  | [], levels, _, _ => ⟨levels, rfl⟩
  | key :: rest, levels, hnodup, hlt => by
    obtain ⟨hkey, hnodup⟩ := List.nodup_cons.1 hnodup
    have hrest : ∀ key' ∈ rest, (levels.raise key).get key' < p.maxLevel := by
      intro key' hkey'
      rw [Levels.get_raise, if_neg fun heq : key' = key => hkey (heq ▸ hkey')]
      exact hlt key' (List.mem_cons_of_mem _ hkey')
    obtain ⟨next, hnext⟩ := exists_raiseAll hnodup hrest
    exact ⟨next, raiseAll_cons.2 ⟨hlt key List.mem_cons_self, hnext⟩⟩

theorem counted_raiseAll {levels next : Levels} {insns among : List (Nat × Nat)} {restarts : Nat}
    (h : levels.Counted among restarts) (hnodup : insns.Nodup) (hne : insns ≠ [])
    (hinsns : ∀ key ∈ insns, levels.get key = 0 ∧ key ∈ among) (hraise : p.raiseAll levels insns = .ok next) :
    next.Counted among (restarts + 1) := by
  obtain ⟨-, -, hkeys, hpos⟩ := raiseAll_eq_ok hraise
  have hlength : 0 < insns.length := List.length_pos_iff.2 hne
  refine ⟨hpos h.positive, ?_, ?_, ?_⟩
  · rw [hkeys]
    refine List.nodup_append.2 ⟨List.nodup_reverse.2 hnodup, h.nodup, fun key hkey key' hkey' heq => ?_⟩
    exact h.not_mem (hinsns key (List.mem_reverse.1 hkey)).1 (heq ▸ hkey')
  · rw [hkeys]
    exact List.append_subset.2 ⟨fun key hkey => (hinsns key (List.mem_reverse.1 hkey)).2, h.subset⟩
  · have := h.restarts_le
    rw [hkeys, List.length_append, List.length_reverse]
    omega

/-! ## Distances -/

/-- **Instruction `i` of method `m` holds a distance** where it is encoded at the given levels. -/
def HoldsDistance (scheduled : List Scheduled) (levels : Levels) (m i : Nat) : Prop :=
  ∃ sm b insn site fragments t bits word, scheduled[m]? = some sm ∧ insn ∈ sm.method.insnsOf b ∧ insn.index = i ∧
    site.level = levels.get (m, i) ∧ insn.encode site = .ok fragments ∧ .relative t bits word ∈ fragments

/-- **Where distances come from**: the filler, or an instruction that answers for it. -/
theorem relative_of_emit {levels : Levels} {emitted : List Region} (h : p.emit platform levels scheduled = .ok emitted)
    {r : Region} (hr : r ∈ emitted) {a : Annotation} (ha : a ∈ r.annotations) {t : Target} {bits : Nat}
    {origin : Option (Nat × Nat)} (hkind : a.kind = .relative t bits origin) :
    (∃ m b cold t bits word, .relative t bits word ∈ p.filler m b cold) ∨
      ∃ m i, origin = some (m, i) ∧ HoldsDistance scheduled levels m i := by
  obtain ⟨data, code, rfl, hemits⟩ := emit_eq_ok h
  rcases List.mem_append.1 hr with hr | hr
  · obtain ⟨item, -, hok⟩ := Outcome.exists_mem_of_forall₂_right hemits.data_ok hr
    obtain ⟨ref, t', -, -, -, rfl⟩ := annotation_of_dataRegion hok ha
    cases hkind
  · obtain ⟨⟨m, sm, b⟩, hslot, hok⟩ := Outcome.exists_mem_of_forall₂_right hemits.code_ok hr
    obtain ⟨origin', f, n, hf, -, hsource⟩ := (blockRegion_eq_ok hok).exists_fragment ha
    -- only a fragment that holds a distance leaves such an annotation
    obtain ⟨word, rfl, rfl⟩ : ∃ word, f = .relative t bits word ∧ origin' = origin := by
      cases f with
      | bytes => cases hf
      | absolute | marker =>
        cases hf
        cases hkind
      | relative t' bits' word =>
        cases hf
        cases hkind
        exact ⟨word, rfl, rfl⟩
    rcases hsource with ⟨-, hfiller⟩ | ⟨c, insn, offset, fragments, hinsn, hencode, hmem, rfl⟩
    · exact .inl ⟨m, b, r.cold, t, bits, word, hfiller⟩
    · exact .inr ⟨m, insn.index, rfl, sm, c, insn, _, fragments, t, bits, word, (mem_slots.1 hslot).1,
        (mem_regionInsns.1 hinsn).2, rfl, rfl, hencode, hmem⟩

end Program

/-! ## Distances out of reach -/

/-- **Every distance is in reach**: the word that holds it has bits enough. -/
def AddressBook.InReach (book : AddressBook) : Prop := ∀ r ∈ book.regions, ∃ base, r.base = some base ∧
  ∀ a ∈ r.annotations, ∀ t bits origin, a.kind = .relative t bits origin → ∃ goal, book.resolve t = .ok goal ∧
    fitsField bits ((goal : Int) - ((base + a.offset : Nat) : Int)) = true

theorem inReach_of_patchAll {scheduled : List Scheduled} {regions patched : List Region}
    (h : patchAll scheduled regions = .ok (patched, [])) : AddressBook.InReach ⟨scheduled, regions⟩ := by
  intro r hr
  obtain ⟨r', -, fixups, hfixups, hraise, -⟩ := Outcome.exists_mem_of_forall₂ (patches_patchAll h) hr
  obtain ⟨base, found, hbase, hfound, rfl⟩ := fixupsOf_eq_ok hfixups
  refine ⟨base, hbase, fun a ha t bits origin hkind => ?_⟩
  obtain ⟨x, hx, hfixup⟩ := Outcome.exists_mem_of_forall₂ hfound ha
  rcases fixup_eq_ok hfixup with ⟨label, hmarker, -⟩ | ⟨t', goal, word, ht, hgoal, -, hfits⟩ | ⟨_, _, m, i, -, rfl⟩
  · cases hkind.symm.trans hmarker
  · rw [hkind] at ht
    cases ht
    exact ⟨goal, hgoal, hfits bits origin hkind⟩
  · cases hraise (.raise m i) (List.mem_filterMap.2 ⟨_, hx, rfl⟩)

/-- **What is raised holds a distance.** -/
theorem relative_of_raised {scheduled : List Scheduled} {regions patched : List Region} {raised : List (Nat × Nat)}
    (h : patchAll scheduled regions = .ok (patched, raised)) {m i : Nat} (hmem : (m, i) ∈ raised) :
    ∃ r ∈ regions, ∃ a ∈ r.annotations, ∃ t bits, a.kind = .relative t bits (some (m, i)) := by
  simp only [patchAll, Outcome.bind_eq_ok, Outcome.mapError_eq_ok, Outcome.pure_eq_ok, Prod.mk.injEq] at h
  obtain ⟨fixups, hfixups, -, -, -, rfl⟩ := h
  obtain ⟨f, hf, hraise⟩ := List.mem_filterMap.1 (List.mem_eraseDups.1 hmem)
  cases f with
  | patch offset word => cases hraise
  | raise m' i' =>
    cases hraise
    obtain ⟨fs, hfs, hf⟩ := List.mem_flatten.1 hf
    obtain ⟨r, hr, hfixups⟩ := Outcome.exists_mem_of_forall₂_right (Outcome.mapM_eq_ok.1 hfixups) hfs
    obtain ⟨base, a, ha, hfixup⟩ := exists_fixup_of_mem hfixups hf
    rcases fixup_eq_ok hfixup with ⟨_, -, heq⟩ | ⟨_, _, _, -, -, heq, -⟩ | ⟨t, bits, m, i, hkind, heq⟩
    · cases heq
    · cases heq
    · cases heq
      exact ⟨r, hr, a, ha, t, bits, hkind⟩

/-- **Patching runs out of encodings** only at a distance that no instruction answers for. -/
theorem relative_of_exhausted {scheduled : List Scheduled} {regions : List Region} {what : OutOfReach}
    (h : patchAll scheduled regions = .error (.image (.exhausted what))) :
    ∃ r ∈ regions, ∃ a ∈ r.annotations, ∃ t bits, a.kind = .relative t bits none := by
  rcases patchAll_error_cases h with ⟨_, he⟩ | ⟨r, hr, base, a, ha, cause, h, he⟩ | ⟨r, -, fixups, cause, -, h, he⟩
  · cases he
  · cases he
    rcases fixup_error h with ⟨t, -, h⟩ | ⟨t, bits, hkind, -⟩
    · obtain ⟨_, he⟩ := AddressBook.resolve_error h
      cases he
    · exact ⟨r, hr, a, ha, t, bits, hkind⟩
  · cases he
    obtain ⟨_, he⟩ := patchRegion_error h
    cases he

namespace Program

variable {p : Program} {platform : Platform} {options : Options} {scheduled : List Scheduled}

/-- Placement leaves annotations alone. -/
theorem exists_emitted_of_placed {levels : Levels} {emitted placed : List Region} {used : MemoryMap}
    (hemit : p.emit platform levels scheduled = .ok emitted)
    (hplace : p.place platform options emitted = .ok (placed, used)) {r : Region} (hr : r ∈ placed) :
    ∃ e ∈ emitted, e.annotations = r.annotations := by
  obtain ⟨data, code, rfl, hemits⟩ := emit_eq_ok hemit
  obtain ⟨hplacing, -⟩ := placing_place hemits hplace
  obtain ⟨n, hn⟩ := List.mem_iff_getElem?.1 hr
  obtain ⟨e, base, he, rfl⟩ := getElem?_of_body hplacing.body hn
  exact ⟨e, List.mem_of_getElem? he, rfl⟩

/-- **Every instruction is raised once**: among those in `among`, and at level zero, it may hold a distance; fillers
hold none. -/
structure RaisedOnce (p : Program) (scheduled : List Scheduled) (among : List (Nat × Nat)) : Prop where
  raisable : 0 < p.maxLevel
  fails : p.FailsAtReferences
  filler : ∀ m b cold t bits word, .relative t bits word ∉ p.filler m b cold
  distance : ∀ {levels m i}, HoldsDistance scheduled levels m i → levels.get (m, i) = 0 ∧ (m, i) ∈ among

namespace RaisedOnce

variable {among : List (Nat × Nat)} {levels : Levels}

theorem raised (hp : p.RaisedOnce scheduled among) {r : Round}
    (h : p.round platform options scheduled levels = .ok r) :
    r.raised.Nodup ∧ ∀ key ∈ r.raised, levels.get key = 0 ∧ key ∈ among := by
  simp only [round, Outcome.bind_eq_ok, Outcome.mapError_eq_ok, Outcome.pure_eq_ok] at h
  obtain ⟨emitted, hemit, ⟨placed, used⟩, hplace, ⟨patched, raised⟩, hpatch, rfl⟩ := h
  refine ⟨?_, fun key hkey => ?_⟩
  · simp only [patchAll, Outcome.bind_eq_ok, Outcome.pure_eq_ok, Prod.mk.injEq] at hpatch
    obtain ⟨-, -, -, -, -, rfl⟩ := hpatch
    exact nodup_eraseDups _
  · obtain ⟨m, i⟩ := key
    obtain ⟨r, hr, a, ha, t, bits, hkind⟩ := relative_of_raised hpatch hkey
    obtain ⟨e, he, hsame⟩ := exists_emitted_of_placed hemit hplace hr
    rcases relative_of_emit hemit he (hsame ▸ ha) hkind with ⟨_, _, _, t, bits, word, hfiller⟩ | ⟨m', i', heq, hdistance⟩
    · exact absurd hfiller (hp.filler _ _ _ t bits word)
    · cases heq
      exact hp.distance hdistance

theorem isUnplaced_of_round_error (hp : p.RaisedOnce scheduled among) (hmethods : ∀ sm ∈ scheduled, sm.method ∈ p.methods)
    {e : LayoutError} (h : p.round platform options scheduled levels = .error e) : e.IsUnplaced := by
  have hplain := round_error hp.fails hmethods h
  match e, hplain with
  | .placement _, _ | .image (.unresolved _), _ => trivial
  | .image (.exhausted what), _ =>
    rcases round_error_cases h with ⟨cause, hcause, heq⟩ | ⟨cause, heq⟩ | ⟨emitted, placed, used, hemit, hplace, hpatch⟩
    · obtain ⟨what, rfl⟩ := emit_error hp.fails hmethods hcause
      cases heq
    · cases heq
    · obtain ⟨r, hr, a, ha, t, bits, hkind⟩ := relative_of_exhausted hpatch
      obtain ⟨e, he, hsame⟩ := exists_emitted_of_placed hemit hplace hr
      rcases relative_of_emit hemit he (hsame ▸ ha) hkind with ⟨_, _, _, t, bits, word, hfiller⟩ | ⟨_, _, heq, -⟩
      · exact absurd hfiller (hp.filler _ _ _ t bits word)
      · cases heq

end RaisedOnce

/-! ## Courses -/

namespace Course

variable {left restarts : Nat} {levels : Levels} {history : List Levels} {out : Except LayoutError Image}

/-- **Levels never fall** from one round to a later one, and no instruction gets above the highest level. -/
theorem steady (h : p.Course platform options scheduled left restarts levels history out)
    (hwithin : levels.Within p.maxLevel) : (∀ l ∈ history, levels.Below l ∧ l.Within p.maxLevel) ∧
      history.Pairwise Levels.Below := by
  induction h with
  | failed | reached | restartLimit | exhausted =>
    simp only [List.mem_singleton, forall_eq, List.pairwise_singleton, and_true]
    exact ⟨.refl _, hwithin⟩
  | again _ _ raise_ok _ ih =>
    obtain ⟨hbelow, hkeeps, -⟩ := raiseAll_eq_ok raise_ok
    obtain ⟨hrest, hpairwise⟩ := ih (hkeeps hwithin)
    have hbehind : ∀ l ∈ _, _ := fun l hl => hbelow.trans (hrest l hl).1
    exact ⟨List.forall_mem_cons.2 ⟨⟨.refl _, hwithin⟩, fun l hl => ⟨hbehind l hl, (hrest l hl).2⟩⟩,
      List.pairwise_cons.2 ⟨hbehind, hpairwise⟩⟩

/-- **An image comes from the last round**, which left no distance out of reach. -/
theorem exists_inReach (h : p.Course platform options scheduled left restarts levels history out) {i : Image}
    (hout : out = .ok i) : ∃ front last emitted placed patched used, history = front ++ [last] ∧
      p.emit platform last scheduled = .ok emitted ∧ p.Reached platform options scheduled emitted placed patched used ∧
      AddressBook.InReach ⟨scheduled, placed⟩ ∧
      collect platform options scheduled patched used (restarts + front.length) = .ok i := by
  induction h with
  | failed | restartLimit | exhausted => cases hout
  | @reached _ restarts levels r round_ok raised =>
    simp only [round, Outcome.bind_eq_ok, Outcome.mapError_eq_ok, Outcome.pure_eq_ok] at round_ok
    obtain ⟨emitted, hemit, ⟨placed, used⟩, hplace, ⟨patched, _⟩, hpatch, rfl⟩ := round_ok
    cases raised
    exact ⟨[], levels, emitted, placed, patched, used, rfl, hemit, ⟨⟨levels, hemit⟩, hplace, hpatch⟩,
      inReach_of_patchAll hpatch, hout⟩
  | @again _ _ levels _ _ _ _ _ _ _ _ ih =>
    obtain ⟨front, last, emitted, placed, patched, used, rfl, hemit, hreached, hinReach, hcollect⟩ := ih hout
    refine ⟨levels :: front, last, emitted, placed, patched, used, rfl, hemit, hreached, hinReach, ?_⟩
    rw [List.length_cons, Nat.add_comm front.length 1, ← Nat.add_assoc]
    exact hcollect

/-- **A program whose instructions are raised once converges.**  The induction is on the course; what is known of the
levels after some restarts is `Levels.Counted`. -/
theorem converges (h : p.Course platform options scheduled left restarts levels history out) {among : List (Nat × Nat)}
    (hp : p.RaisedOnce scheduled among) (hmethods : ∀ sm ∈ scheduled, sm.method ∈ p.methods)
    (hcounted : levels.Counted among restarts) :
    restarts + history.length ≤ min (restarts + left) among.length + 1 ∧
      (∀ what, out ≠ .error (.image (.exhausted what))) ∧
      ∀ n, out = .error (.image (.restartLimit n)) → n = restarts + left ∧ n < among.length := by
  induction h with
  | failed round_error =>
    have hunplaced := hp.isUnplaced_of_round_error hmethods round_error
    have hle := hcounted.le_length
    refine ⟨?_, ?_, ?_⟩
    · rw [List.length_singleton]
      omega
    · rintro what ⟨⟩
      exact hunplaced
    · rintro n ⟨⟩
      exact hunplaced.elim
  | reached round_ok raised =>
    have hle := hcounted.le_length
    refine ⟨?_, fun what heq => ?_, fun n heq => ?_⟩
    · rw [List.length_singleton]
      omega
    · rcases collect_error_cases heq with ⟨e, he, heq⟩ | hunplaced
      · obtain ⟨a, rfl⟩ := collectSections_error he
        cases heq
      · exact hunplaced
    · rcases collect_error_cases heq with ⟨e, he, heq⟩ | hunplaced
      · obtain ⟨a, rfl⟩ := collectSections_error he
        cases heq
      · exact hunplaced.elim
  | restartLimit round_ok raised =>
    obtain ⟨key, hkey⟩ := List.exists_mem_of_ne_nil _ raised
    obtain ⟨hzero, hmem⟩ := (hp.raised round_ok).2 key hkey
    have hlt := hcounted.lt_length hzero hmem
    refine ⟨?_, nofun, ?_⟩
    · rw [List.length_singleton]
      omega
    · rintro n ⟨⟩
      exact ⟨rfl, hlt⟩
  | exhausted round_ok raised raise_error =>
    obtain ⟨hnodup, hraised⟩ := hp.raised round_ok
    obtain ⟨next, hnext⟩ := exists_raiseAll (p := p) hnodup fun key hkey => (hraised key hkey).1 ▸ hp.raisable
    rw [raise_error] at hnext
    cases hnext
  | @again left restarts _ _ _ history _ round_ok raised raise_ok _ ih =>
    obtain ⟨hnodup, hraised⟩ := hp.raised round_ok
    obtain ⟨hrounds, hexhausted, hlimit⟩ := ih (counted_raiseAll hcounted hnodup raised hraised raise_ok)
    have hleft : restarts + 1 + left = restarts + (left + 1) := by omega
    rw [hleft] at hrounds hlimit
    refine ⟨?_, hexhausted, hlimit⟩
    rw [List.length_cons]
    omega

end Course

/-! ## Layouts -/

variable (p platform options)

/-- **The rounds of a layout**, as the levels of each, and what it answers.  Where a method has no schedule there is no
round. -/
inductive LayoutCourse : List Levels → Except LayoutError Image → Prop
  | unscheduled {e : FlowError} (schedule_error : p.scheduleAll = .error e) : LayoutCourse [] (.error (.flow e))
  | scheduled {scheduled : List Scheduled} {history : List Levels} {out : Except LayoutError Image}
      (schedule_ok : p.scheduleAll = .ok scheduled)
      (course : p.Course platform options scheduled options.maxRestarts 0 Levels.empty history out) :
      LayoutCourse history out

theorem course_layout : ∃ history, p.LayoutCourse platform options history (p.layout platform options) := by
  rw [layout]
  cases hscheduled : p.scheduleAll with
  | error e => exact ⟨[], .unscheduled hscheduled⟩
  | ok scheduled =>
    obtain ⟨history, hcourse⟩ := course_rounds p platform options scheduled options.maxRestarts 0 Levels.empty
    exact ⟨history, .scheduled hscheduled hcourse⟩

/-- **What holds of the rounds of every layout**: no instruction gets above the highest level, no level falls, and an image
comes from the last round, in which every distance was in reach. -/
structure Steady (history : List Levels) (out : Except LayoutError Image) : Prop where
  within : ∀ levels ∈ history, levels.Within p.maxLevel
  rising : history.Pairwise Levels.Below
  inReach : ∀ i, out = .ok i → ∃ front last scheduled emitted placed patched used, history = front ++ [last] ∧
    p.emit platform last scheduled = .ok emitted ∧ p.Laid platform options scheduled emitted placed patched used i ∧
    AddressBook.InReach ⟨scheduled, placed⟩ ∧ i.restarts = front.length

variable {p platform options} {history : List Levels} {out : Except LayoutError Image}

theorem LayoutCourse.steady (h : p.LayoutCourse platform options history out) :
    p.Steady platform options history out := by
  cases h with
  | unscheduled => exact ⟨nofun, .nil, nofun⟩
  | scheduled schedule_ok course =>
    obtain ⟨hwithin, hrising⟩ := course.steady fun _ => Nat.zero_le _
    refine ⟨fun levels hlevels => (hwithin levels hlevels).2, hrising, fun i hi => ?_⟩
    obtain ⟨front, last, emitted, placed, patched, used, hsplit, hemit, hreached, hinReach, hcollect⟩ :=
      course.exists_inReach hi
    refine ⟨front, last, _, emitted, placed, patched, used, hsplit, hemit, ⟨hreached, schedule_ok, _, hcollect⟩, hinReach,
      ?_⟩
    obtain ⟨sections, spans, -, -, rfl⟩ := collect_eq_ok hcollect
    exact Nat.zero_add _

/-- **The rounds of a layout converge**: there are at most `limit` restarts and at most `count`, no instruction is left
without an encoding, and the limit is in the way only if it is below `count`. -/
structure Convergent (limit count : Nat) (history : List Levels) (out : Except LayoutError Image) : Prop where
  rounds_le : history.length ≤ min limit count + 1
  not_exhausted : ∀ what, out ≠ .error (.image (.exhausted what))
  restartLimit : ∀ n, out = .error (.image (.restartLimit n)) → n = limit ∧ limit < count
  restarts_le : ∀ i, out = .ok i → i.restarts ≤ min limit count

theorem LayoutCourse.convergent (h : p.LayoutCourse platform options history out) {among : List (Nat × Nat)}
    (hp : ∀ {scheduled}, p.scheduleAll = .ok scheduled → p.RaisedOnce scheduled among) :
    Convergent options.maxRestarts among.length history out := by
  have hsteady := h.steady
  cases h with
  | unscheduled => exact ⟨Nat.zero_le _, nofun, nofun, nofun⟩
  | scheduled schedule_ok course =>
    obtain ⟨hrounds, hexhausted, hlimit⟩ := course.converges (hp schedule_ok) (methods_scheduled schedule_ok)
      (Levels.counted_empty among)
    simp only [Nat.zero_add] at hrounds hlimit
    refine ⟨hrounds, hexhausted, fun n hn => ?_, fun i hi => ?_⟩
    · obtain ⟨heq, hlt⟩ := hlimit n hn
      exact ⟨heq, heq ▸ hlt⟩
    · obtain ⟨front, last, -, -, -, -, -, rfl, -, -, -, hrestarts⟩ := hsteady.inReach i hi
      rw [List.length_append, List.length_singleton] at hrounds
      omega

end Program

end CodeImage
