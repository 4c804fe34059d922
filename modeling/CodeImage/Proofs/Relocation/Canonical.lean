import Mathlib.Data.List.Chain
import CodeImage.Proofs.Relocation.Replay
/-!
# Canonical — the shape of the records of a span

The records of a span copy and clear in turn (`Canonical`).  Words that wait hold no long run of zeros, and a word that is
not zero comes next (`Pending`): a run among them was short when they were let wait, and the word behind it parts it from
the next one (`Sparse.append_cons`).  So a record that copies words ends with one that is not zero, and a record that
clears words follows it unless it is the last.
-/
namespace CodeImage

namespace RelocationRecord

def copies : RelocationRecord → Bool
  | .copy _ _ => true
  | .clear _ _ => false

/-- **The words that a record stands for.** -/
def words : RelocationRecord → List Nat
  | .copy _ words => words
  | .clear _ count => List.replicate count 0

theorem length_words (r : RelocationRecord) : r.words.length = r.wordCount := by
  cases r <;> simp [words, wordCount]

end RelocationRecord

namespace Relocation

/-! ## Runs of zeros -/

/-- **No `m` zeros follow each other.** -/
def Sparse (m : Nat) (l : List Nat) : Prop := ¬ List.replicate m 0 <:+: l

section

variable {m : Nat} {l r : List Nat} {w : Nat}

theorem sparse_replicate {n : Nat} (hn : n < m) : Sparse m (List.replicate n 0) := fun h => by
  have := h.length_le
  simp only [List.length_replicate] at this
  omega

/-- **A word that is not zero parts the runs on both sides.** -/
theorem Sparse.append_cons (hl : Sparse m l) (hr : Sparse m r) (hw : w ≠ 0) : Sparse m (l ++ w :: r) := by
  have hsolid : w ∉ List.replicate m 0 := fun h => hw (List.eq_of_mem_replicate h)
  rintro ⟨front, back, h⟩
  rcases List.append_eq_append_iff.1 h with ⟨rest, rfl, -⟩ | ⟨rest, hfront, hback⟩
  · exact hl ⟨front, rest, rfl⟩
  · cases rest with
    | nil => exact hl ⟨front, [], by simpa using hfront⟩
    | cons x rest =>
      obtain ⟨rfl, rfl⟩ := List.cons.inj hback
      -- the run ends behind the word, so it starts behind it too
      rcases List.append_eq_append_iff.1 hfront with ⟨more, -, hmore⟩ | ⟨more, -, hmore⟩
      · exact hsolid (hmore ▸ List.mem_append_right more List.mem_cons_self)
      · cases more with
        | nil =>
          rw [List.nil_append] at hmore
          exact hsolid (hmore ▸ List.mem_cons_self)
        | cons y more =>
          obtain ⟨-, rfl⟩ := List.cons.inj hmore
          exact hr ⟨more, back, rfl⟩

theorem Sparse.append_solid (hm : 0 < m) : ∀ {solid l : List Nat}, Sparse m l → (∀ w ∈ solid, w ≠ 0) →
    Sparse m (l ++ solid)
  | [], l, hl, _ => by rwa [List.append_nil]
  | w :: solid, l, hl, hsolid => by
    rw [List.append_cons]
    have hone : Sparse m (l ++ [w]) := hl.append_cons (sparse_replicate (n := 0) hm) (hsolid w List.mem_cons_self)
    exact hone.append_solid hm fun x hx => hsolid x (List.mem_cons_of_mem w hx)

/-- Solid words and a short run of zeros may be added where solid words come next. -/
theorem Sparse.append_run {solid : List Nat} {n : Nat} (hl : Sparse m l) (hsolid : ∀ w ∈ solid, w ≠ 0) (hn : n < m)
    (hnext : solid = [] → l = []) : Sparse m (l ++ (solid ++ List.replicate n 0)) := by
  rcases List.eq_nil_or_concat solid with rfl | ⟨front, w, rfl⟩
  · rw [hnext rfl]
    exact sparse_replicate hn
  · rw [List.concat_eq_append] at hsolid ⊢
    rw [List.append_assoc, ← List.append_assoc, List.singleton_append]
    refine Sparse.append_cons (hl.append_solid (by omega) fun x hx => hsolid x (List.mem_append_left _ hx))
      (sparse_replicate hn) (hsolid w (by simp))

end

/-! ## The shape of records -/

/-- **The canonical records of words from an address on.**  They are not empty, stand for the words in order, follow each
other and copy and clear in turn.  An address beyond the last one is counted from zero on; where the words end in front of
it, the records lie where the words do.  What is copied holds no long run of zeros and does not end with a zero, and what is
cleared before the last record is a long run. -/
structure Canonical (minRun base : Nat) (words : List Nat) (records : List RelocationRecord) : Prop where
  nonempty : ∀ r ∈ records, 0 < r.wordCount
  within : base + 4 * words.length ≤ wordLimit → ∀ r ∈ records,
    base ≤ r.address ∧ r.address + 4 * r.wordCount ≤ base + 4 * words.length
  words : records.flatMap RelocationRecord.words = words
  first : ∀ r ∈ records.head?, r.address = base % wordLimit
  next : records.IsChain fun r q => q.address = (r.address + 4 * r.wordCount) % wordLimit
  alternate : records.IsChain fun r q => q.copies ≠ r.copies
  sparse : ∀ a data, .copy a data ∈ records → ¬ List.replicate (max 1 minRun) 0 <:+: data
  solidEnd : ∀ a data, .copy a data ∈ records → data.getLast? ≠ some 0
  long : ∀ a n, .clear a n ∈ records.dropLast → minRun ≤ n

section

variable {minRun a : Nat} {words : List Nat} {records : List RelocationRecord}

theorem canonical_nil : Canonical minRun a [] [] :=
  ⟨by simp, by simp, rfl, by simp, .nil, .nil, by simp, by simp, by simp⟩

theorem Canonical.eq_nil (h : Canonical minRun a [] records) : records = [] := by
  cases records with
  | nil => rfl
  | cons r records =>
    have hwords : r.words = [] := (List.append_eq_nil_iff.1 h.words).1
    have hpos := h.nonempty r List.mem_cons_self
    rw [← r.length_words, hwords] at hpos
    exact absurd hpos (Nat.lt_irrefl 0)

/-- **A record in front of canonical ones.** -/
theorem Canonical.cons {r : RelocationRecord} (h : Canonical minRun (a + 4 * r.wordCount) words records)
    (haddress : r.address = a % wordLimit) (hpos : 0 < r.wordCount)
    (halternate : ∀ q ∈ records.head?, q.copies ≠ r.copies)
    (hsparse : ∀ a data, r = .copy a data → Sparse (max 1 minRun) data ∧ data.getLast? ≠ some 0)
    (hlong : ∀ a n, r = .clear a n → records ≠ [] → minRun ≤ n) :
    Canonical minRun a (r.words ++ words) (r :: records) where
  nonempty := List.forall_mem_cons.2 ⟨hpos, h.nonempty⟩
  within hlimit q hq := by
    rw [List.length_append, r.length_words] at hlimit ⊢
    rcases List.mem_cons.1 hq with rfl | hq
    · rw [haddress, Nat.mod_eq_of_lt (by omega)]
      omega
    · have := h.within (by omega) q hq
      omega
  words := by rw [List.flatMap_cons, h.words]
  first := by simpa using haddress
  next := List.isChain_cons.2 ⟨fun q hq => by rw [h.first q hq, haddress, Nat.mod_add_mod], h.next⟩
  alternate := List.isChain_cons.2 ⟨halternate, h.alternate⟩
  sparse b data hmem := by
    rcases List.mem_cons.1 hmem with heq | hmem
    · exact (hsparse b data heq.symm).1
    · exact h.sparse b data hmem
  solidEnd b data hmem := by
    rcases List.mem_cons.1 hmem with heq | hmem
    · exact (hsparse b data heq.symm).2
    · exact h.solidEnd b data hmem
  long b n hmem := by
    by_cases hnil : records = []
    · simp [hnil] at hmem
    · rw [List.dropLast_cons_of_ne_nil hnil] at hmem
      rcases List.mem_cons.1 hmem with heq | hmem
      · exact hlong b n heq.symm hnil
      · exact h.long b n hmem

end

/-! ## Words that wait -/

/-- **Words that may wait**: they hold no long run of zeros, and a word that is not zero comes next. -/
structure Pending (minRun : Nat) (waiting ahead : List Nat) : Prop where
  sparse : Sparse (max 1 minRun) waiting
  next : waiting ≠ [] → ∃ w rest, ahead = w :: rest ∧ w ≠ 0

section

variable {minRun zeros : Nat} {waiting ahead solid after : List Nat}

/-- Words that neither start with a zero nor before the next run of zeros are at their end. -/
theorem NextRun.eq_nil (h : NextRun ahead [] zeros after) (hhead : ahead.head? ≠ some 0) : ahead = [] := by
  rw [h.split, List.nil_append] at hhead ⊢
  cases zeros with
  | zero =>
    by_contra hne
    exact absurd (h.found hne) (Nat.lt_irrefl 0)
  | succ n => exact absurd rfl hhead

/-- Where words wait, the next run of zeros does not come at once. -/
theorem Pending.eq_nil (h : Pending minRun waiting ahead) (hrun : NextRun ahead solid zeros after) (hsolid : solid = []) :
    waiting = [] := by
  subst hsolid
  by_contra hne
  obtain ⟨w, rest, rfl, hw⟩ := h.next hne
  exact List.cons_ne_nil w rest (hrun.eq_nil (by simpa using hw))

theorem Pending.wait (h : Pending minRun waiting ahead) (hrun : NextRun ahead solid zeros after) (hne : after ≠ [])
    (hshort : zeros < minRun) : Pending minRun (waiting ++ (solid ++ List.replicate zeros 0)) after := by
  refine ⟨h.sparse.append_run hrun.solid (by omega) (h.eq_nil hrun), fun _ => ?_⟩
  obtain ⟨w, rest, rfl⟩ := List.exists_cons_of_ne_nil hne
  exact ⟨w, rest, rfl, fun hw => hrun.maximal (by rw [hw]; rfl)⟩

variable {a : Nat} {records : List RelocationRecord}

/-- **A run of zeros in front of canonical records that start with a copy.** -/
theorem canonical_zeros (h : Canonical minRun (a + 4 * zeros) after records)
    (hhead : ∀ q ∈ records.head?, q.copies = true) (hfound : after ≠ [] → 0 < zeros)
    (hlong : after ≠ [] → minRun ≤ zeros) :
    Canonical minRun a (List.replicate zeros 0 ++ after) (recordsOf a [] zeros ++ records) ∧
      ∀ q ∈ (recordsOf a [] zeros ++ records).head?, q.copies = false := by
  by_cases hzeros : zeros = 0
  · -- a run is missing only at the end of the words
    have hafter : after = [] := by
      by_contra hne
      exact absurd (hfound hne) (by omega)
    subst hafter hzeros
    obtain rfl := h.eq_nil
    exact ⟨canonical_nil, by simp [recordsOf]⟩
  · have hrecords : recordsOf a [] zeros = [.clear (a % wordLimit) zeros] := by simp [recordsOf, hzeros]
    rw [hrecords]
    refine ⟨h.cons (r := .clear (a % wordLimit) zeros) rfl (Nat.pos_of_ne_zero hzeros) (fun q hq => ?_)
      (fun b data heq => ?_) fun b n heq hne => ?_, by simp [RelocationRecord.copies]⟩
    · rw [hhead q hq]
      exact Bool.noConfusion
    · cases heq
    · cases heq
      refine hlong fun hafter => hne ?_
      rw [hafter] at h
      exact h.eq_nil

/-- What waits in front of the next run of zeros does not end with a zero. -/
theorem Pending.getLast?_ne (h : Pending minRun waiting ahead) (hrun : NextRun ahead solid zeros after) :
    (waiting ++ solid).getLast? ≠ some 0 := by
  rcases List.eq_nil_or_concat solid with rfl | ⟨front, w, rfl⟩
  · simp [h.eq_nil hrun rfl]
  · have hw : w ≠ 0 := hrun.solid w (by simp)
    simpa [List.getLast?_append] using hw

/-- **Words that wait and the run of zeros behind them get canonical records.** -/
theorem Pending.canonical (h : Pending minRun waiting ahead) (hrun : NextRun ahead solid zeros after)
    (hlong : after ≠ [] → minRun ≤ zeros)
    (hrecords : Canonical minRun (a + 4 * (waiting ++ (solid ++ List.replicate zeros 0)).length) after records)
    (hhead : ∀ q ∈ records.head?, q.copies = true) :
    Canonical minRun a (waiting ++ ahead) (recordsOf a (waiting ++ solid) zeros ++ records) ∧
      ((waiting = [] → ahead.head? ≠ some 0) →
        ∀ q ∈ (recordsOf a (waiting ++ solid) zeros ++ records).head?, q.copies = true) := by
  have haddress : a + 4 * (waiting ++ (solid ++ List.replicate zeros 0)).length =
      a + 4 * (waiting ++ solid).length + 4 * zeros := by
    simp only [List.length_append, List.length_replicate]
    omega
  have hsplit : waiting ++ ahead = waiting ++ solid ++ (List.replicate zeros 0 ++ after) := by
    rw [hrun.split, List.append_assoc]
  rw [haddress] at hrecords
  obtain ⟨hzeros, hclears⟩ := canonical_zeros hrecords hhead hrun.found hlong
  rw [hsplit]
  by_cases hdata : waiting ++ solid = []
  · rw [hdata] at hzeros ⊢
    refine ⟨hzeros, fun hnext => ?_⟩
    obtain ⟨rfl, rfl⟩ := List.append_eq_nil_iff.1 hdata
    -- no zero comes next, so nothing does
    rw [← List.nil_append (List.replicate zeros 0 ++ after), ← hrun.split, hrun.eq_nil (hnext rfl)] at hzeros
    have hnil : recordsOf a [] zeros ++ records = [] := hzeros.eq_nil
    simp [hnil]
  · have hsparse := h.sparse.append_solid (by omega) hrun.solid
    have hcopy : recordsOf a (waiting ++ solid) zeros =
        .copy (a % wordLimit) (waiting ++ solid) :: recordsOf (a + 4 * (waiting ++ solid).length) [] zeros := by
      simp [recordsOf, hdata]
    rw [hcopy]
    refine ⟨hzeros.cons (r := .copy (a % wordLimit) (waiting ++ solid)) rfl (List.length_pos_iff.2 hdata) (fun q hq => ?_)
      (fun b data heq => ?_) (fun b n heq => ?_), fun _ => by simp [RelocationRecord.copies]⟩
    · rw [hclears q hq]
      exact Bool.noConfusion
    · cases heq
      exact ⟨hsparse, h.getLast?_ne hrun⟩
    · cases heq

/-- **Both kinds of turn keep the records canonical**, and where the words to come do not start with a zero the records start
with a copy. -/
theorem kept_canonical (minRun : Nat) : Kept minRun fun a waiting ahead records => Pending minRun waiting ahead →
    Canonical minRun a (waiting ++ ahead) records ∧
      ((waiting = [] → ahead.head? ≠ some 0) → ∀ q ∈ records.head?, q.copies = true) where
  finish a _ := ⟨canonical_nil, by simp⟩
  wait a waiting ahead solid zeros after records hrun hne hshort hkept hpending := by
    obtain ⟨hcanonical, hhead⟩ := hkept (hpending.wait hrun hne hshort)
    rw [hrun.split]
    refine ⟨by simpa only [List.append_assoc] using hcanonical, fun _ => hhead fun hnil => ?_⟩
    have hpos := hrun.found hne
    simp only [List.append_eq_nil_iff, List.replicate_eq_nil_iff] at hnil
    omega
  record a waiting ahead solid zeros after records hrun hlong hkept hpending := by
    obtain ⟨hcanonical, hhead⟩ := hkept ⟨sparse_replicate (n := 0) (by omega), fun hne => absurd rfl hne⟩
    exact hpending.canonical hrun hlong hcanonical (hhead fun _ => hrun.maximal)

end

/-- **The records of a span are canonical**, whatever its address, its bytes and the least run: the cutting ends after no more
turns than there are words, and its records tile the words of the bytes, filled up with zeros. -/
theorem encodeSpan_canonical (minRun base : Nat) (bytes : Bytes) :
    cut minRun base (toWords bytes).toArray (toWords bytes).length ⟨0, 0⟩ = some (encodeSpan minRun ⟨base, bytes⟩) ∧
    Canonical minRun base (toWords bytes) (encodeSpan minRun ⟨base, bytes⟩) ∧
    ∃ n < 4, (toWords bytes).flatMap (leBytes 4) = bytes ++ List.replicate n 0 := by
  obtain ⟨hends, hkept⟩ := (kept_canonical minRun).encodeSpan ⟨base, bytes⟩
  refine ⟨hends, (hkept ⟨sparse_replicate (n := 0) (by omega), fun hne => absurd rfl hne⟩).1, padding bytes.length, ?_,
    flatMap_toWords bytes⟩
  unfold padding
  omega

example : encodeSpan 2 ⟨16, [0, 0, 1, 0, 2, 0, 0, 3, 0].flatMap (leBytes 4)⟩ =
    [.clear 16 2, .copy 24 [1, 0, 2], .clear 36 2, .copy 44 [3], .clear 48 1] := by decide +kernel

end Relocation

end CodeImage
