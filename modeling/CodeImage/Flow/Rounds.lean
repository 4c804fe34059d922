import CodeImage.Flow.Fault
/-!
# Rounds

Dominators and post-dominators are found in rounds over the blocks of a graph, until a round changes nothing
(`untilStable`).
-/
namespace CodeImage

/-- **Repeat a round until it changes nothing.**  A round answers what it made of the state and whether it changed it;
more than `limit` rounds are not made. -/
def untilStable {σ : Type} (round : σ → Except AnalysisFault (σ × Bool)) : Nat → σ → Except AnalysisFault σ
  | 0, _ => .error .endless
  | limit + 1, s => do
    let (s, changed) ← round s
    if changed then untilStable round limit s else .ok s

/-- **Rounds end with what they lead to**, if each round that is made is one step nearer to `n` steps and a round after
`n` steps changes nothing. -/
theorem exists_untilStable {σ : Type} {round : σ → Except AnalysisFault (σ × Bool)} {P : Nat → σ → Prop} {n : Nat}
    (hstep : ∀ k s, P k s → ∃ s' changed, round s = .ok (s', changed) ∧ P (k + 1) s' ∧ (changed = false → s' = s))
    (hstop : ∀ s, P n s → round s = .ok (s, false)) :
    ∀ {limit k : Nat} {s : σ}, k ≤ n → n < k + limit → P k s → ∃ s', untilStable round limit s = .ok s' ∧ P n s'
  | 0, k, s, hle, hlt, _ => by omega
  | limit + 1, k, s, hle, hlt, hs => by
    obtain ⟨s', changed, hround, hs', hsame⟩ := hstep k s hs
    unfold untilStable
    cases changed with
    | true =>
      have hne : k ≠ n := by
        rintro rfl
        rw [hstop s hs] at hround
        cases hround
      rw [hround]
      exact exists_untilStable hstep hstop (by omega) (by omega) hs'
    | false =>
      obtain rfl := hsame rfl
      -- the same state is as many steps on as one likes
      have hon : ∀ j, P (k + j) s' := by
        intro j
        induction j with
        | zero => exact hs
        | succ j ih =>
          obtain ⟨t, changed, ht, hinv, -⟩ := hstep _ _ ih
          rw [hround] at ht
          cases ht
          exact hinv
      refine ⟨s', by rw [hround]; rfl, ?_⟩
      have := hon (n - k)
      rwa [Nat.add_sub_cancel' hle] at this

end CodeImage
