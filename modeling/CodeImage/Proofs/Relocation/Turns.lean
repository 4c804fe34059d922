import Mathlib.Data.List.Basic
import CodeImage.Relocation.Record
/-!
# Turns — how the cursors move over words

The two cursors divide the words into those that records stand for, those that wait and those ahead (`Stands`).  A turn
finds the next run of zeros ahead (`NextRun`) and either lets all words up to its end wait or makes their records
(`Stands.turn`).  It always leaves fewer words ahead, so as many turns as there are words are enough, and what both kinds of
turn keep holds of all the records of a span (`Kept.encodeSpan`).
-/
namespace CodeImage.Relocation

/-- **A run ends before the first word without the property.** -/
theorem exists_runEnd (p : Nat → Bool) (words : Array Nat) (pos : Nat) : ∃ run rest,
    words.toList.drop pos = run ++ rest ∧ (∀ w ∈ run, p w = true) ∧ (∀ w, rest.head? = some w → p w = false) ∧
      runEnd p words pos = pos + run.length := by
  fun_induction runEnd p words pos with
  | case1 pos hlt hp ih =>
    obtain ⟨run, rest, hsplit, hrun, hrest, hend⟩ := ih
    refine ⟨words[pos] :: run, rest, ?_, ?_, hrest, ?_⟩
    · rw [List.drop_eq_getElem_cons (by simpa using hlt), hsplit]
      simp
    · simpa using ⟨hp, hrun⟩
    · rw [hend, List.length_cons]
      omega
  | case2 pos hlt hp =>
    refine ⟨[], words.toList.drop pos, rfl, by simp, fun w hw => ?_, rfl⟩
    rw [List.drop_eq_getElem_cons (by simpa using hlt), List.head?_cons, Option.some.injEq] at hw
    simpa [← hw] using hp
  | case3 pos hge =>
    exact ⟨[], [], List.drop_eq_nil_of_le (by simpa using hge), by simp, by simp, rfl⟩

/-- **Where the cursors stand**: behind the words done, and behind those that wait. -/
structure Stands (words : Array Nat) (c : Cursors) (done waiting ahead : List Nat) : Prop where
  split : words.toList = done ++ (waiting ++ ahead)
  start : c.start = done.length
  pos : c.pos = done.length + waiting.length

/-- **The next run of zeros**: the words before it, its length and the words behind it. -/
structure NextRun (ahead solid : List Nat) (zeros : Nat) (after : List Nat) : Prop where
  split : ahead = solid ++ (List.replicate zeros 0 ++ after)
  solid : ∀ w ∈ solid, w ≠ 0
  maximal : after.head? ≠ some 0
  found : after ≠ [] → 0 < zeros

theorem NextRun.length_lt {ahead solid after : List Nat} {zeros : Nat} (h : NextRun ahead solid zeros after)
    (hne : ahead ≠ []) : after.length < ahead.length := by
  have hlength := congrArg List.length h.split
  simp only [List.length_append, List.length_replicate] at hlength
  have hpos := List.length_pos_iff.2 hne
  by_cases hafter : after = []
  · simp [hafter, hpos]
  · have := h.found hafter
    omega

section

variable {words : Array Nat} {c : Cursors} {done waiting ahead : List Nat}

theorem Stands.drop (h : Stands words c done waiting ahead) (n : Nat) : words.toList.drop (c.pos + n) = ahead.drop n := by
  rw [h.split, h.pos, ← List.append_assoc, ← List.length_append, List.drop_length_add_append]

/-- Two runs from the second cursor on lead over the next run of zeros. -/
theorem Stands.exists_nextRun (h : Stands words c done waiting ahead) : ∃ solid zeros after,
    NextRun ahead solid zeros after ∧ runEnd (· != 0) words c.pos = c.pos + solid.length ∧
      runEnd (· == 0) words (c.pos + solid.length) = c.pos + solid.length + zeros := by
  obtain ⟨solid, rest, hsolid, hall, hrest, hpos⟩ := exists_runEnd (· != 0) words c.pos
  obtain ⟨run, after, hrun, hzeros, hafter, hstop⟩ := exists_runEnd (· == 0) words (c.pos + solid.length)
  have hahead : ahead = solid ++ rest := by simpa using (h.drop 0).symm.trans hsolid
  have hrest' : rest = run ++ after := by
    rw [← hrun, h.drop, hahead, List.drop_left]
  have hreplicate : run = List.replicate run.length 0 :=
    List.eq_replicate_iff.2 ⟨rfl, fun w hw => by simpa using hzeros w hw⟩
  refine ⟨solid, run.length, after, ⟨?_, fun w hw => by simpa using hall w hw, fun hzero => ?_, fun hne => ?_⟩, hpos, hstop⟩
  · rw [hahead, hrest', ← hreplicate]
  · simpa using hafter 0 hzero
  · -- the word at which the first run ends is a zero
    cases run with
    | nil =>
      obtain ⟨w, more, hw⟩ := List.exists_cons_of_ne_nil hne
      have hhead : rest.head? = some w := by simp [hrest', hw]
      have hzero : w = 0 := by simpa using hrest w hhead
      exact absurd (hafter w (by simp [hw])) (by simp [hzero])
    | cons w run => simp

theorem Stands.size_eq (h : Stands words c done waiting ahead) :
    words.size = done.length + waiting.length + ahead.length := by
  rw [← Array.length_toList, h.split, List.length_append, List.length_append, Nat.add_assoc]

/-- The words between the cursors and the run of zeros. -/
theorem Stands.extract (h : Stands words c done waiting ahead) {solid rest : List Nat} (hahead : ahead = solid ++ rest) :
    (words.extract done.length (c.pos + solid.length)).toList = waiting ++ solid := by
  have hsplit : words.toList = done ++ (waiting ++ solid ++ rest) := by
    rw [h.split, hahead, List.append_assoc waiting]
  have hcount : done.length + waiting.length + solid.length - done.length = (waiting ++ solid).length := by
    rw [List.length_append]
    omega
  rw [Array.toList_extract, List.extract, hsplit, h.pos, List.drop_left, hcount, List.take_left]

variable (minRun base : Nat)

/-- **What a turn does**: over a short run with more words behind it all words wait, otherwise they get their records. -/
theorem Stands.turn (h : Stands words c done waiting ahead) : ∃ solid zeros after, NextRun ahead solid zeros after ∧
    ((∃ c', after ≠ [] ∧ zeros < minRun ∧ turn minRun base words c = (c', []) ∧
        Stands words c' done (waiting ++ (solid ++ List.replicate zeros 0)) after) ∨
      ∃ c', (after ≠ [] → minRun ≤ zeros) ∧
        turn minRun base words c = (c', recordsOf (base + 4 * done.length) (waiting ++ solid) zeros) ∧
        Stands words c' (done ++ (waiting ++ (solid ++ List.replicate zeros 0))) [] after) := by
  obtain ⟨solid, zeros, after, hrun, hpos, hstop⟩ := h.exists_nextRun
  have hlength : ahead.length = solid.length + zeros + after.length := by
    rw [hrun.split, List.length_append, List.length_append, List.length_replicate, Nat.add_assoc]
  have hmore : c.pos + solid.length + zeros < words.size ↔ after ≠ [] := by
    rw [h.size_eq, h.pos, ← List.length_pos_iff]
    omega
  refine ⟨solid, zeros, after, hrun, ?_⟩
  simp only [Relocation.turn, hpos, hstop, Nat.add_sub_cancel_left, h.extract hrun.split, h.start, Bool.and_eq_true,
    decide_eq_true_eq, hmore]
  by_cases hshort : after ≠ [] ∧ zeros < minRun
  · rw [if_pos hshort]
    refine .inl ⟨_, hshort.1, hshort.2, rfl, ?_, rfl, ?_⟩
    · rw [h.split, hrun.split]
      simp
    · simp [h.pos, Nat.add_assoc]
  · rw [if_neg hshort]
    refine .inr ⟨_, fun hne => by simpa [hne] using hshort, rfl, ?_, ?_, ?_⟩
    · rw [h.split, hrun.split]
      simp
    · simp [h.pos, Nat.add_assoc]
    · simp [h.pos, Nat.add_assoc]

/-- **What cutting keeps**: `P` says of an address, the words that wait there and those ahead which records they get.  It
holds at the end, and both kinds of turn keep it. -/
structure Kept (minRun : Nat) (P : Nat → List Nat → List Nat → List RelocationRecord → Prop) : Prop where
  finish : ∀ a, P a [] [] []
  wait : ∀ a waiting ahead solid zeros after records, NextRun ahead solid zeros after → after ≠ [] → zeros < minRun →
    P a (waiting ++ (solid ++ List.replicate zeros 0)) after records → P a waiting ahead records
  record : ∀ a waiting ahead solid zeros after records, NextRun ahead solid zeros after → (after ≠ [] → minRun ≤ zeros) →
    P (a + 4 * (waiting ++ (solid ++ List.replicate zeros 0)).length) [] after records →
    P a waiting ahead (recordsOf a (waiting ++ solid) zeros ++ records)

variable {minRun} {P : Nat → List Nat → List Nat → List RelocationRecord → Prop}

/-- **What every turn keeps holds of all records**, and they are made in as many turns as words are ahead. -/
theorem Kept.exists_cut (hP : Kept minRun P) : ∀ (limit : Nat) {c : Cursors} {done waiting ahead : List Nat},
    Stands words c done waiting ahead → (ahead = [] → waiting = []) → ahead.length ≤ limit →
    ∃ records, cut minRun base words limit c = some records ∧ P (base + 4 * done.length) waiting ahead records
  | limit, c, done, waiting, [], h, hwaiting, _ => by
    obtain rfl := hwaiting rfl
    have hsize : words.size ≤ c.start := by simp [h.size_eq, h.start]
    refine ⟨[], ?_, hP.finish _⟩
    unfold cut
    rw [if_pos hsize]
  | 0, c, done, waiting, w :: ahead, _, _, hlimit => by simp at hlimit
  | limit + 1, c, done, waiting, w :: ahead, h, _, hlimit => by
    have hsize : ¬ words.size ≤ c.start := by
      rw [h.size_eq, h.start, List.length_cons]
      omega
    obtain ⟨solid, zeros, after, hrun, hturn⟩ := h.turn minRun base
    have hfewer := hrun.length_lt (List.cons_ne_nil w ahead)
    rw [cut, if_neg hsize]
    rcases hturn with ⟨c', hne, hshort, hturn, h'⟩ | ⟨c', hlong, hturn, h'⟩
    · obtain ⟨records, hrecords, hafter⟩ := hP.exists_cut limit h' (fun hnil => absurd hnil hne) (by omega)
      refine ⟨records, ?_, hP.wait _ _ _ _ _ _ _ hrun hne hshort hafter⟩
      simp [hturn, hrecords]
    · obtain ⟨records, hrecords, hafter⟩ := hP.exists_cut limit h' (fun _ => rfl) (by omega)
      rw [List.length_append, Nat.mul_add, ← Nat.add_assoc] at hafter
      refine ⟨_, ?_, hP.record _ _ _ _ _ _ _ hrun hlong hafter⟩
      simp [hturn, hrecords]

/-- **The cutting of a span ends**, and its records are as every turn keeps them. -/
theorem Kept.encodeSpan (hP : Kept minRun P) (s : Span) :
    cut minRun s.address (toWords s.bytes).toArray (toWords s.bytes).length ⟨0, 0⟩ = some (encodeSpan minRun s) ∧
      P s.address [] (toWords s.bytes) (encodeSpan minRun s) := by
  have hstands : Stands (toWords s.bytes).toArray ⟨0, 0⟩ [] [] (toWords s.bytes) := ⟨rfl, rfl, rfl⟩
  obtain ⟨records, hrecords, hall⟩ := hP.exists_cut s.address _ hstands (fun _ => rfl) (Nat.le_refl _)
  have hencode : Relocation.encodeSpan minRun s = records := by
    simp [Relocation.encodeSpan, hrecords]
  rw [hencode]
  exact ⟨hrecords, hall⟩

end

end CodeImage.Relocation
