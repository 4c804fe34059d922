import Mathlib.Data.List.Forall2
import Mathlib.Data.List.Induction
/-!
# Outcome — computations that may fail

What is known of a computation with errors once it has ended.  If it has succeeded, each of its parts has (`bind_eq_ok`,
`mapM_eq_ok`), and what every step of a fold keeps holds at its end (`foldlM_keeps`).  If it has failed, one of its parts
has (`bind_eq_error`, `mapM_eq_error`, `foldlM_eq_error`).  If each of its parts succeeds, it does (`exists_mapM`,
`exists_foldlM`).
-/
namespace CodeImage.Outcome

variable {ε ε' α β σ : Type}

theorem bind_eq_ok {x : Except ε α} {f : α → Except ε β} {b : β} :
    (x >>= f) = .ok b ↔ ∃ a, x = .ok a ∧ f a = .ok b := by
  cases x with
  | error e => exact ⟨nofun, fun ⟨_, h, _⟩ => nomatch h⟩
  | ok a => exact ⟨fun h => ⟨a, rfl, h⟩, fun ⟨_, h, h'⟩ => by cases h; exact h'⟩

theorem pure_eq_ok {a b : α} : (pure a : Except ε α) = .ok b ↔ a = b := ⟨fun h => by cases h; rfl, fun h => by rw [h]; rfl⟩

theorem map_eq_ok {x : Except ε α} {f : α → β} {b : β} : x.map f = .ok b ↔ ∃ a, x = .ok a ∧ f a = b := by
  cases x with
  | error e => exact ⟨nofun, fun ⟨_, h, _⟩ => nomatch h⟩
  | ok a => exact ⟨fun h => by cases h; exact ⟨a, rfl, rfl⟩, fun ⟨_, h, h'⟩ => by cases h; rw [← h']; rfl⟩

theorem toOption_eq_some {x : Except ε α} {a : α} : x.toOption = some a ↔ x = .ok a := by
  cases x with
  | error e => exact ⟨nofun, nofun⟩
  | ok b => exact ⟨fun h => by cases h; rfl, fun h => by cases h; rfl⟩

/-- What is read off a value that was found by evaluation. -/
theorem eq_of_eval {x : Except ε α} {a : α} (hx : x = .ok a) {f : α → β} {b : β} (h : x.toOption.map f = some b) :
    f a = b := by
  rw [hx] at h
  exact Option.some.inj h

theorem mapError_eq_ok {x : Except ε α} {f : ε → ε'} {a : α} : x.mapError f = .ok a ↔ x = .ok a := by
  cases x with
  | error e => exact ⟨nofun, nofun⟩
  | ok b => exact ⟨fun h => by cases h; rfl, fun h => by cases h; rfl⟩

theorem mapError_eq_error {x : Except ε α} {f : ε → ε'} {e' : ε'} :
    x.mapError f = .error e' ↔ ∃ e, x = .error e ∧ f e = e' := by
  cases x with
  | error e => exact ⟨fun h => by cases h; exact ⟨e, rfl, rfl⟩, fun ⟨_, h, h'⟩ => by cases h; rw [← h']; rfl⟩
  | ok b => exact ⟨nofun, fun ⟨_, h, _⟩ => nomatch h⟩

theorem mapM_eq_ok {f : α → Except ε β} : ∀ {l : List α} {l' : List β},
    l.mapM f = .ok l' ↔ List.Forall₂ (fun a b => f a = .ok b) l l'
  | [], l' => by
    rw [List.mapM_nil, pure_eq_ok, List.forall₂_nil_left_iff, eq_comm]
  | a :: l, l' => by
    rw [List.mapM_cons, bind_eq_ok]
    simp only [bind_eq_ok, pure_eq_ok, mapM_eq_ok (l := l)]
    constructor
    · rintro ⟨b, hb, bs, hbs, rfl⟩
      exact .cons hb hbs
    · rintro (_ | ⟨hb, hbs⟩)
      exact ⟨_, hb, _, hbs, rfl⟩

/-- What each step keeps, the whole keeps. -/
theorem map_of_mapM {γ : Type} {f : α → Except ε β} {g : α → γ} {k : β → γ} (hf : ∀ {a b}, f a = .ok b → k b = g a)
    {l : List α} {l' : List β} (hl : l.mapM f = .ok l') : l'.map k = l.map g := by
  have h := mapM_eq_ok.1 hl
  clear hl
  induction h with
  | nil => rfl
  | cons hab _ ih => rw [List.map_cons, List.map_cons, hf hab, ih]

theorem bind_eq_error {x : Except ε α} {f : α → Except ε β} {e : ε} (h : (x >>= f) = .error e) :
    x = .error e ∨ ∃ a, x = .ok a ∧ f a = .error e := by
  cases x with
  | error e' =>
    cases h
    exact .inl rfl
  | ok a => exact .inr ⟨a, rfl, h⟩

theorem mapM_eq_error {f : α → Except ε β} {e : ε} : ∀ {l : List α}, l.mapM f = .error e → ∃ a ∈ l, f a = .error e
  | a :: l, h => by
    rw [List.mapM_cons] at h
    rcases bind_eq_error h with h | ⟨b, -, h⟩
    · exact ⟨a, List.mem_cons_self, h⟩
    · rcases bind_eq_error h with h | ⟨bs, -, h⟩
      · obtain ⟨a', ha', h⟩ := mapM_eq_error h
        exact ⟨a', List.mem_cons_of_mem a ha', h⟩
      · cases h

theorem exists_mapM {f : α → Except ε β} {l : List α} (h : ∀ a ∈ l, ∃ b, f a = .ok b) : ∃ l', l.mapM f = .ok l' := by
  cases hall : l.mapM f with
  | ok l' => exact ⟨l', rfl⟩
  | error e =>
    obtain ⟨a, ha, herror⟩ := mapM_eq_error hall
    obtain ⟨b, hb⟩ := h a ha
    rw [hb] at herror
    cases herror

theorem foldlM_eq_error {f : σ → α → Except ε σ} {e : ε} : ∀ {l : List α} {s : σ}, l.foldlM f s = .error e →
    ∃ s', ∃ a ∈ l, f s' a = .error e
  | a :: l, s, h => by
    rw [List.foldlM_cons] at h
    rcases bind_eq_error h with h | ⟨s', -, h⟩
    · exact ⟨s, a, List.mem_cons_self, h⟩
    · obtain ⟨t, a', ha', h⟩ := foldlM_eq_error h
      exact ⟨t, a', List.mem_cons_of_mem a ha', h⟩

/-- **What every step of a fold keeps**, while the list it works on gets shorter. -/
theorem foldlM_keeps {f : σ → α → Except ε σ} {P : List α → σ → Prop}
    (hstep : ∀ a rest s s', P (a :: rest) s → f s a = .ok s' → P rest s') :
    ∀ {l : List α} {s s' : σ}, P l s → l.foldlM f s = .ok s' → P [] s'
  | [], s, s', hP, h => by
    rw [List.foldlM_nil, pure_eq_ok] at h
    exact h ▸ hP
  | a :: l, s, s', hP, h => by
    rw [List.foldlM_cons, bind_eq_ok] at h
    obtain ⟨t, ht, h⟩ := h
    exact foldlM_keeps hstep (hstep a l s t hP ht) h

/-- **A fold whose every step succeeds succeeds**, and keeps what every step keeps of the part of the list behind it. -/
theorem exists_foldlM {f : σ → α → Except ε σ} {P : List α → σ → Prop} {l : List α} {s : σ} (hs : P [] s)
    (hstep : ∀ front a back s, l = front ++ a :: back → P front s → ∃ s', f s a = .ok s' ∧ P (front ++ [a]) s') :
    ∃ s', l.foldlM f s = .ok s' ∧ P l s' := by
  induction l using List.reverseRecOn with
  | nil => exact ⟨s, rfl, hs⟩
  | append_singleton l a ih =>
    obtain ⟨t, ht, hP⟩ := ih fun front b back s hl => hstep front b (back ++ [a]) s (by simp [hl])
    obtain ⟨s', hs', hP'⟩ := hstep l a [] t rfl hP
    refine ⟨s', ?_, hP'⟩
    rw [List.foldlM_append, bind_eq_ok]
    exact ⟨t, ht, by rw [List.foldlM_cons, bind_eq_ok]; exact ⟨s', hs', rfl⟩⟩

/-- **A fold keeps what every step keeps** of the part of the list behind it. -/
theorem foldl_keeps {f : σ → α → σ} {P : List α → σ → Prop} {l : List α} {s : σ} (hs : P [] s)
    (hstep : ∀ front a back s, l = front ++ a :: back → P front s → P (front ++ [a]) (f s a)) : P l (l.foldl f s) := by
  induction l using List.reverseRecOn with
  | nil => exact hs
  | append_singleton l a ih =>
    rw [List.foldl_append]
    exact hstep l a [] _ rfl (ih fun front b back s hl => hstep front b (back ++ [a]) s (by simp [hl]))

/-- A fold whose steps leave the state alone answers it. -/
theorem foldlM_eq_self {f : σ → α → Except ε σ} {s : σ} : ∀ {l : List α}, (∀ a ∈ l, f s a = .ok s) → l.foldlM f s = .ok s
  | [], _ => rfl
  | a :: l, h => by
    rw [List.foldlM_cons, h a List.mem_cons_self]
    exact foldlM_eq_self fun b hb => h b (List.mem_cons_of_mem a hb)

section Forall₂

variable {R : α → β → Prop} {l : List α} {l' : List β}

theorem forall₂_getElem? (h : List.Forall₂ R l l') {i : Nat} {a : α} (ha : l[i]? = some a) :
    ∃ b, l'[i]? = some b ∧ R a b := by
  induction h generalizing i with
  | nil => cases ha
  | cons hab _ ih => cases i with
    | zero => cases ha; exact ⟨_, rfl, hab⟩
    | succ i => exact ih ha

theorem forall₂_getElem?_right (h : List.Forall₂ R l l') {i : Nat} {b : β} (hb : l'[i]? = some b) :
    ∃ a, l[i]? = some a ∧ R a b := by
  obtain ⟨a, ha, hab⟩ := forall₂_getElem? h.flip hb
  exact ⟨a, ha, hab⟩

theorem exists_mem_of_forall₂ (h : List.Forall₂ R l l') {a : α} (ha : a ∈ l) : ∃ b ∈ l', R a b := by
  obtain ⟨i, hi⟩ := List.mem_iff_getElem?.1 ha
  obtain ⟨b, hb, hab⟩ := forall₂_getElem? h hi
  exact ⟨b, List.mem_of_getElem? hb, hab⟩

theorem exists_mem_of_forall₂_right (h : List.Forall₂ R l l') {b : β} (hb : b ∈ l') : ∃ a ∈ l, R a b := by
  obtain ⟨a, ha, hab⟩ := exists_mem_of_forall₂ h.flip hb
  exact ⟨a, ha, hab⟩

end Forall₂

end CodeImage.Outcome
