import CodeImage.Image.Layout
import CodeImage.Proofs.Outcome
/-!
# Rounds — what the last round of a layout did

A layout ends with the round that reached everything, or it fails.  `Course` tells the levels of its rounds and how the
last of them ends, and `course_rounds` says that rounds always go like this.  `Ending` keeps of a course only how it ends.
`Laid` names what the stages of the last round made of each other; `exists_laid` finds it behind every image.
-/
namespace CodeImage

namespace Program

variable (p : Program) (platform : Platform) (options : Options)

/-- **A round that reached everything**: its regions as emitted, placed and patched, and the memory used. -/
structure Reached (scheduled : List Scheduled) (emitted placed patched : List Region) (used : MemoryMap) : Prop where
  emit_ok : ∃ levels, p.emit platform levels scheduled = .ok emitted
  place_ok : p.place platform options emitted = .ok (placed, used)
  patch_ok : patchAll scheduled placed = .ok (patched, [])

/-- **What an image was laid out from.** -/
structure Laid (scheduled : List Scheduled) (emitted placed patched : List Region) (used : MemoryMap) (i : Image) : Prop
    extends p.Reached platform options scheduled emitted placed patched used where
  schedule_ok : p.scheduleAll = .ok scheduled
  collect_ok : ∃ restarts, collect platform options scheduled patched used restarts = .ok i

/-- **The course of rounds**, of which `left` may be followed by another and `restarts` have been: the levels of each of
them, first to last, and what they end with.  Where a round leaves something out of reach, the next one has the levels
of the instructions that need it raised. -/
inductive Course (scheduled : List Scheduled) : Nat → Nat → Levels → List Levels → Except LayoutError Image → Prop
  | failed {left restarts : Nat} {levels : Levels} {e : LayoutError}
      (round_error : p.round platform options scheduled levels = .error e) :
      Course scheduled left restarts levels [levels] (.error e)
  | reached {left restarts : Nat} {levels : Levels} {r : Round}
      (round_ok : p.round platform options scheduled levels = .ok r) (raised : r.raised = []) :
      Course scheduled left restarts levels [levels] (collect platform options scheduled r.regions r.used restarts)
  | restartLimit {restarts : Nat} {levels : Levels} {r : Round}
      (round_ok : p.round platform options scheduled levels = .ok r) (raised : r.raised ≠ []) :
      Course scheduled 0 restarts levels [levels] (.error (.image (.restartLimit restarts)))
  | exhausted {left restarts : Nat} {levels : Levels} {r : Round} {e : ImageError}
      (round_ok : p.round platform options scheduled levels = .ok r) (raised : r.raised ≠ [])
      (raise_error : p.raiseAll levels r.raised = .error e) :
      Course scheduled (left + 1) restarts levels [levels] (.error (.image e))
  | again {left restarts : Nat} {levels next : Levels} {r : Round} {history : List Levels}
      {out : Except LayoutError Image} (round_ok : p.round platform options scheduled levels = .ok r)
      (raised : r.raised ≠ []) (raise_ok : p.raiseAll levels r.raised = .ok next)
      (rest : Course scheduled left (restarts + 1) next history out) :
      Course scheduled (left + 1) restarts levels (levels :: history) out

/-- **How rounds end**: with what is collected from a round that reached everything, with the error of a round, or
because no level or no restart is left. -/
inductive Ending (scheduled : List Scheduled) : Except LayoutError Image → Prop
  | reached {emitted placed patched : List Region} {used : MemoryMap} (restarts : Nat)
      (h : p.Reached platform options scheduled emitted placed patched used) :
      Ending scheduled (collect platform options scheduled patched used restarts)
  | failed {levels : Levels} {e : LayoutError} (h : p.round platform options scheduled levels = .error e) :
      Ending scheduled (.error e)
  | exhausted (what : OutOfReach) : Ending scheduled (.error (.image (.exhausted what)))
  | restartLimit (restarts : Nat) : Ending scheduled (.error (.image (.restartLimit restarts)))

variable {p platform options}

theorem reached_of_round {scheduled : List Scheduled} {levels : Levels} {r : Round}
    (h : p.round platform options scheduled levels = .ok r) (hr : r.raised = []) :
    ∃ emitted placed, p.Reached platform options scheduled emitted placed r.regions r.used := by
  simp only [round, Outcome.bind_eq_ok, Outcome.mapError_eq_ok, Outcome.pure_eq_ok] at h
  obtain ⟨emitted, hemit, ⟨placed, used⟩, hplace, ⟨patched, raised⟩, hpatch, rfl⟩ := h
  cases hr
  exact ⟨emitted, placed, ⟨levels, hemit⟩, hplace, hpatch⟩

theorem raiseAll_error : ∀ {insns : List (Nat × Nat)} {levels : Levels} {e : ImageError},
    p.raiseAll levels insns = .error e → ∃ what, e = .exhausted what
  | (m, i) :: rest, levels, e, h => by
    simp only [raiseAll, List.foldlM_cons] at h
    split at h
    · cases h
      exact ⟨_, rfl⟩
    · exact raiseAll_error h

theorem Course.ending {scheduled : List Scheduled} {left restarts : Nat} {levels : Levels} {history : List Levels}
    {out : Except LayoutError Image} (h : p.Course platform options scheduled left restarts levels history out) :
    p.Ending platform options scheduled out := by
  induction h with
  | failed round_error => exact .failed round_error
  | @reached _ restarts _ _ round_ok raised =>
    obtain ⟨emitted, placed, hr⟩ := reached_of_round round_ok raised
    exact .reached restarts hr
  | @restartLimit restarts => exact .restartLimit restarts
  | exhausted _ _ raise_error =>
    obtain ⟨what, rfl⟩ := raiseAll_error raise_error
    exact .exhausted what
  | again _ _ _ _ ih => exact ih

variable (p platform options)

theorem course_rounds (scheduled : List Scheduled) : ∀ (left restarts : Nat) (levels : Levels), ∃ history,
    p.Course platform options scheduled left restarts levels history
      (p.rounds platform options scheduled left restarts levels)
  | left, restarts, levels => by
    rw [rounds.eq_def]
    dsimp only
    cases hround : p.round platform options scheduled levels with
    | error e => exact ⟨_, .failed hround⟩
    | ok r =>
      change ∃ history, p.Course platform options scheduled left restarts levels history (if r.raised.isEmpty then _ else _)
      split
      · rename_i hraised
        exact ⟨_, .reached hround (List.isEmpty_iff.1 hraised)⟩
      · rename_i hraised
        have hraised : r.raised ≠ [] := fun hnil => hraised (List.isEmpty_iff.2 hnil)
        cases left with
        | zero => exact ⟨_, .restartLimit hround hraised⟩
        | succ left =>
          dsimp only
          cases hraise : p.raiseAll levels r.raised with
          | error e => exact ⟨_, .exhausted hround hraised hraise⟩
          | ok next =>
            obtain ⟨history, hrest⟩ := course_rounds scheduled left (restarts + 1) next
            exact ⟨_, .again hround hraised hraise hrest⟩

theorem ending_rounds (scheduled : List Scheduled) (left restarts : Nat) (levels : Levels) :
    p.Ending platform options scheduled (p.rounds platform options scheduled left restarts levels) := by
  obtain ⟨history, h⟩ := course_rounds p platform options scheduled left restarts levels
  exact h.ending

theorem layout_eq_rounds {scheduled : List Scheduled} (h : p.scheduleAll = .ok scheduled) :
    p.layout platform options = p.rounds platform options scheduled options.maxRestarts 0 Levels.empty := by
  rw [layout, h]
  rfl

theorem ending_layout {scheduled : List Scheduled} (h : p.scheduleAll = .ok scheduled) :
    p.Ending platform options scheduled (p.layout platform options) := by
  rw [p.layout_eq_rounds platform options h]
  exact ending_rounds ..

variable {p platform options}

theorem exists_laid {i : Image} (h : p.layout platform options = .ok i) :
    ∃ scheduled emitted placed patched used, p.Laid platform options scheduled emitted placed patched used i := by
  obtain ⟨scheduled, hsched, -⟩ := Outcome.bind_eq_ok.1 h
  rw [Outcome.mapError_eq_ok] at hsched
  have hend := p.ending_layout platform options hsched
  rw [h] at hend
  generalize hout : (Except.ok i : Except LayoutError Image) = out at hend
  cases hend with
  | reached restarts hr => exact ⟨scheduled, _, _, _, _, hr, hsched, restarts, hout.symm⟩
  | failed _ => cases hout
  | exhausted _ => cases hout
  | restartLimit _ => cases hout

section Rounds

variable {scheduled : List Scheduled} {levels : Levels} {r : Round} (left restarts : Nat)

theorem rounds_reached (hround : p.round platform options scheduled levels = .ok r) (hraised : r.raised = []) :
    p.rounds platform options scheduled left restarts levels =
      collect platform options scheduled r.regions r.used restarts := by
  rw [rounds.eq_def]
  dsimp only
  rw [hround]
  change (if r.raised.isEmpty then _ else _) = _
  rw [if_pos (List.isEmpty_iff.2 hraised)]

end Rounds

/-- **A layout whose first round reaches everything** ends with what is collected from it. -/
theorem layout_of_round {scheduled : List Scheduled} {r : Round} (hscheduled : p.scheduleAll = .ok scheduled)
    (hround : p.round platform options scheduled Levels.empty = .ok r) (hraised : r.raised = []) :
    p.layout platform options = collect platform options scheduled r.regions r.used 0 := by
  rw [layout_eq_rounds p platform options hscheduled, rounds_reached _ _ hround hraised]

theorem exists_collect {scheduled : List Scheduled} {regions : List Region} {sections : List Span}
    {spans : List (List HandlerRange)} (used : MemoryMap) (restarts : Nat)
    (hsections : collectSections options.checkConsistency (sortRegions regions) = .ok sections)
    (hspans : scheduled.zipIdx.mapM (fun (sm, m) => handlerSpans ⟨scheduled, regions⟩ m sm) = .ok spans) :
    ∃ i, collect platform options scheduled regions used restarts = .ok i := by
  rw [collect]
  dsimp only
  rw [hsections, hspans]
  exact ⟨_, rfl⟩

end Program

end CodeImage
