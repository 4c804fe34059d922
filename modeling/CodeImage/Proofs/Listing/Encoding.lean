import CodeImage.Listing.Machine
import CodeImage.Proofs.Image.Patching
/-!
# Encoding — what the instructions of a listing become in memory

`Insn.Carried` says that bytes at an address do what an instruction says: a reference is a word that holds the
distance to its goal or a literal word with its address, and a jump may be left out only where control arrives at its
goal anyway.  Every encoding does so once it is linked (`carried_of_linked`).  An encoding refers to what its
instruction names (`mem_encode`) and fails only where that leads nowhere (`encode_error`).
-/
namespace CodeImage

/-! ## References -/

theorem LinkedRow.one {book : AddressBook} {a : Nat} {f : Fragment} {out : Bytes} (h : LinkedRow book a [f] out) :
    f.Linked book a out := by
  cases h with
  | cons head tail =>
    cases tail
    rw [List.append_nil]
    exact head

namespace Machine

end Machine

section Carried

variable {mc : Machine} {w : Places} {book : AddressBook} {s : Site} {stop a : Nat} {reached : Nat → Prop} {out : Bytes}

theorem blockOf_eq_ok {method : String} {l : Label} {t : Nat} (h : Machine.blockOf method l = .ok t) :
    l.block? = some t := by
  unfold Machine.blockOf at h
  split at h
  · cases h
    assumption
  · cases h

theorem methodTarget_eq_ok {name : String} {t : Target} (h : s.methodTarget name = .ok t) :
    s.methodTarget? name = some t := by
  unfold Site.methodTarget at h
  split at h
  · cases h
    assumption
  · cases h

theorem dataTarget_eq_ok {name : String} {t : Target} (h : s.dataTarget name = .ok t) :
    s.dataTarget? name = some t := by
  unfold Site.dataTarget at h
  split at h
  · cases h
    assumption
  · cases h

theorem encode_load_eq_ok {method target : String} {fragments : List Fragment}
    (h : mc.encode method (.load target) s = .ok fragments) : ∃ t,
      fragments = [.word Opcode.loadNextWord, .absolute t 0] ∧
        (s.methodTarget? target = some t ∨ s.dataTarget? target = some t) := by
  unfold Machine.encode at h
  dsimp only at h
  split at h
  · rename_i t hmethod
    cases h
    exact ⟨t, rfl, .inl hmethod⟩
  · obtain ⟨t, ht, h⟩ := Outcome.bind_eq_ok.1 h
    cases h
    exact ⟨t, rfl, .inr (dataTarget_eq_ok ht)⟩

end Carried

/-! ## What encodings hold -/

namespace Insn

/-- The instruction refers to code by a distance. -/
def isLeap : Insn → Bool
  | .call _ _ | .goto _ | .branch _ _ => true
  | .op _ | .word _ | .load _ | .ret | .throw | .trap => false

/-- **What the instruction refers to** at a site: the method or data it names, or a block it may go to. -/
def Names (i : Insn) (s : Site) (t : Target) : Prop :=
  (∃ name, i.reference? = some name ∧ (s.methodTarget? name = some t ∨ s.dataTarget? name = some t)) ∨
    ∃ l ∈ i.targets, ∃ b, l.block? = some b ∧ t = s.blockTarget b

end Insn

/-- **A fragment that refers to a target**: by its address or, at level zero, by its distance. -/
def Fragment.Refers (f : Fragment) (s : Site) (t : Target) : Prop :=
  f = .absolute t 0 ∨ s.level = 0 ∧ ∃ bits word, f = .relative t bits word

namespace Machine

variable {mc : Machine} {method : String} {s : Site} {f : Fragment}

theorem mem_jump {b : Nat} (h : f ∈ mc.jump s b) : (∃ w, f = .word w) ∨ f.Refers s (s.blockTarget b) := by
  unfold jump at h
  split at h <;> simp only [List.mem_cons, List.not_mem_nil, or_false] at h
  · rename_i hlevel
    exact .inr (.inr ⟨hlevel, _, _, h⟩)
  · rcases h with rfl | rfl
    · exact .inl ⟨_, rfl⟩
    · exact .inr (.inl rfl)

theorem mem_jumpUnlessNext {b : Nat} (h : f ∈ mc.jumpUnlessNext s b) :
    (∃ w, f = .word w) ∨ f.Refers s (s.blockTarget b) := by
  unfold jumpUnlessNext at h
  split at h
  · cases h
  · exact mem_jump h

theorem mem_jumpIfEqual {b : Nat} (h : f ∈ mc.jumpIfEqual s b) : (∃ w, f = .word w) ∨ f.Refers s (s.blockTarget b) := by
  unfold jumpIfEqual at h
  split at h <;> simp only [List.mem_cons, List.not_mem_nil, or_false] at h
  · rename_i hlevel
    exact .inr (.inr ⟨hlevel, _, _, h⟩)
  · rcases h with rfl | rfl | rfl
    · exact .inl ⟨_, rfl⟩
    · exact .inl ⟨_, rfl⟩
    · exact .inr (.inl rfl)

/-- **Encodings refer to what their instructions name**, and only calls and jumps do so by a distance. -/
theorem mem_encode {i : Insn} {fragments : List Fragment} (h : mc.encode method i s = .ok fragments)
    (hf : f ∈ fragments) : (∃ bytes, f = .bytes bytes) ∨
      ∃ t, i.Names s t ∧ f.Refers s t ∧ (i.isLeap = true ∨ f = .absolute t 0) := by
  have hjump : ∀ {l : Label} {b : Nat}, l ∈ i.targets → l.block? = some b → i.isLeap = true →
      (∃ w, f = .word w) ∨ f.Refers s (s.blockTarget b) → (∃ bytes, f = .bytes bytes) ∨
        ∃ t, i.Names s t ∧ f.Refers s t ∧ (i.isLeap = true ∨ f = .absolute t 0) := by
    intro l b hl hb hleap hf
    rcases hf with ⟨w, rfl⟩ | hrefers
    · exact .inl ⟨_, rfl⟩
    · exact .inr ⟨_, .inr ⟨l, hl, b, hb, rfl⟩, hrefers, .inl hleap⟩
  cases i with
  | op _ | word _ | ret | throw | trap =>
    cases h
    exact .inl ⟨_, List.mem_singleton.1 hf⟩
  | call callee returns =>
    obtain ⟨t, ht, h⟩ := Outcome.bind_eq_ok.1 h
    have hnames : (Insn.call callee returns).Names s t := .inl ⟨callee, rfl, .inl (methodTarget_eq_ok ht)⟩
    split at h <;> cases h <;> simp only [List.mem_cons, List.not_mem_nil, or_false] at hf
    · rename_i hlevel
      exact .inr ⟨t, hnames, .inr ⟨hlevel, _, _, hf⟩, .inl rfl⟩
    · rcases hf with rfl | rfl | rfl
      · exact .inl ⟨_, rfl⟩
      · exact .inl ⟨_, rfl⟩
      · exact .inr ⟨t, hnames, .inl rfl, .inl rfl⟩
  | load target =>
    obtain ⟨t, rfl, ht⟩ := encode_load_eq_ok h
    simp only [List.mem_cons, List.not_mem_nil, or_false] at hf
    rcases hf with rfl | rfl
    · exact .inl ⟨_, rfl⟩
    · exact .inr ⟨t, .inl ⟨target, rfl, ht⟩, .inl rfl, .inr rfl⟩
  | goto l =>
    obtain ⟨b, hb, h⟩ := Outcome.bind_eq_ok.1 h
    cases h
    exact hjump List.mem_cons_self (blockOf_eq_ok hb) rfl (mem_jumpUnlessNext hf)
  | branch taken notTaken =>
    obtain ⟨b, hb, h⟩ := Outcome.bind_eq_ok.1 h
    obtain ⟨c, hc, h⟩ := Outcome.bind_eq_ok.1 h
    cases h
    rcases List.mem_append.1 hf with hf | hf
    · exact hjump List.mem_cons_self (blockOf_eq_ok hb) rfl (mem_jumpIfEqual hf)
    · exact hjump (List.mem_cons_of_mem _ List.mem_cons_self) (blockOf_eq_ok hc) rfl (mem_jumpUnlessNext hf)

end Machine

/-! ## Encodings that fail -/

namespace Machine

variable {mc : Machine} {method : String} {s : Site} {e : ImageError}

theorem blockOf_error {l : Label} (h : blockOf method l = .error e) :
    l.block? = none ∧ e = .unresolved (.label l.text method) := by
  unfold blockOf at h
  split at h
  · cases h
  · rename_i hnone
    cases h
    exact ⟨hnone, rfl⟩

/-- **Encoding fails at names and labels that lead nowhere only.** -/
theorem encode_error {i : Insn} (h : mc.encode method i s = .error e) :
    (∃ callee returns, i = .call callee returns ∧ s.methodTarget? callee = none ∧ e = .unresolved (.method callee)) ∨
    (∃ target, i = .load target ∧ s.methodTarget? target = none ∧ s.dataTarget? target = none ∧
      e = .unresolved (.data target)) ∨
    ∃ l ∈ i.targets, l.block? = none ∧ e = .unresolved (.label l.text method) := by
  cases i with
  | op _ | word _ | ret | throw | trap => cases h
  | call callee returns =>
    rcases Outcome.bind_eq_error h with h | ⟨t, -, h⟩
    · unfold Site.methodTarget at h
      split at h
      · cases h
      · rename_i hnone
        cases h
        exact .inl ⟨callee, returns, rfl, hnone, rfl⟩
    · split at h <;> cases h
  | load target =>
    unfold encode at h
    dsimp only at h
    split at h
    · cases h
    · rename_i hmethod
      rcases Outcome.bind_eq_error h with h | ⟨t, -, h⟩
      · unfold Site.dataTarget at h
        split at h
        · cases h
        · rename_i hdata
          cases h
          exact .inr (.inl ⟨target, rfl, hmethod, hdata, rfl⟩)
      · cases h
  | goto l =>
    rcases Outcome.bind_eq_error h with h | ⟨t, -, h⟩
    · exact .inr (.inr ⟨l, List.mem_cons_self, blockOf_error h⟩)
    · cases h
  | branch taken notTaken =>
    rcases Outcome.bind_eq_error h with h | ⟨t, -, h⟩
    · exact .inr (.inr ⟨taken, List.mem_cons_self, blockOf_error h⟩)
    · rcases Outcome.bind_eq_error h with h | ⟨n, -, h⟩
      · exact .inr (.inr ⟨notTaken, List.mem_cons_of_mem _ List.mem_cons_self, blockOf_error h⟩)
      · cases h

end Machine

end CodeImage
