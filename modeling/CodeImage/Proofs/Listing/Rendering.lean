import CodeImage.Proofs.Listing.Drafts
/-!
# Rendering — a method that was read is read again from its own text

A method is rendered as the items of its draft (`ListedMethod.toList_render`).  A method of a listing is made again from
its draft, and all that stands in the draft can be written and read (`Readable`, which `readParts` keeps).  So the text
of the method alone is a listing with that method (`Listing.render_reads_back`).
-/
namespace CodeImage

open Lexeme (isWord tokens_nil tokens_blank tokens_sign)

namespace ListedMethod

/-! ## The text of a method -/

theorem toList_renderBlock (m : ListedMethod) (b : ListedBlock) : (m.renderBlock b).toList =
    (BodyItem.block b.name :: ((m.insnsOf b).map fun (i, _) => i.unresolved).map .insn).flatMap (·.text.toList) := by
  rw [renderBlock, String.toList_append, String.toList_join, List.flatMap_cons, List.flatMap_map, List.flatMap_map,
    List.flatMap_map]
  refine congrArg (_ ++ ·) (List.flatMap_congr fun i _ => ?_)
  change ("  " ++ i.1.text ++ "\n").toList = ("  " ++ i.1.unresolved.text ++ "\n").toList
  rw [Insn.text_unresolved]

theorem toList_renderBlocks (m : ListedMethod) (order : List Nat) :
    (String.join (order.map fun i => (m.blocks[i]?.map m.renderBlock).getD "")).toList =
      (order.filterMap fun i => m.blocks[i]?).flatMap fun b => (m.renderBlock b).toList := by
  rw [String.toList_join]
  induction order with
  | nil => rfl
  | cons i order ih =>
    rw [List.map_cons, List.flatMap_cons, ih]
    cases hb : m.blocks[i]? with
    | none => simp [hb]
    | some b => simp [hb]

theorem toList_renderTypes (m : ListedMethod) : (String.join (m.types.parents.map fun (t, p) =>
      "  type " ++ toString t ++ " : " ++ toString p ++ "\n")).toList =
    (m.draft.types.map fun (ty, parent) => BodyItem.type ty parent).flatMap (·.text.toList) := by
  rw [String.toList_join, List.flatMap_map, List.flatMap_map]
  rfl

theorem toList_renderBody (m : ListedMethod) :
    (String.join (m.renderOrder.map fun b => (m.blocks[b]?.map m.renderBlock).getD "")).toList =
      (m.draft.blocks.reverse.flatMap fun (name, insns) => BodyItem.block name :: insns.map .insn).flatMap
        (·.text.toList) := by
  rw [toList_renderBlocks, draft, List.reverse_reverse, List.flatMap_assoc, List.flatMap_map]
  simp only [toList_renderBlock]

theorem toList_renderClauses (m : ListedMethod) :
    (String.join (m.blocks.flatMap fun b => b.protection.map (renderClause b))).toList =
      (m.draft.clauses.map fun (block, handler, filter) => BodyItem.protect block handler filter).flatMap
        (·.text.toList) := by
  rw [String.toList_join, draft, List.map_flatMap, List.flatMap_assoc, List.flatMap_assoc]
  refine List.flatMap_congr fun b _ => ?_
  rw [List.map_map, List.flatMap_map, List.flatMap_map]
  rfl

/-- **A method is written as the items of its draft.** -/
theorem toList_render (m : ListedMethod) : m.render.toList = "method ".toList ++ (m.name.toList ++ (" \x7b\n".toList ++
    (m.draft.items.flatMap (·.text.toList) ++ "\x7d\n".toList))) := by
  simp only [render, String.toList_append, toList_renderTypes, toList_renderBody, toList_renderClauses, Draft.items,
    List.flatMap_append, List.append_assoc]

theorem tokens_flatMap_text {rest : List Char} : ∀ {items : List BodyItem}, (∀ item ∈ items, item.Spelled) →
    Lexeme.tokens (items.flatMap (·.text.toList) ++ rest) = items.flatMap BodyItem.tokens ++ Lexeme.tokens rest
  | [], _ => rfl
  | item :: items, h => by
    obtain ⟨hitem, hitems⟩ := List.forall_mem_cons.1 h
    rw [List.flatMap_cons, List.flatMap_cons, List.append_assoc, List.append_assoc, BodyItem.tokens_text hitem,
      tokens_flatMap_text hitems]

/-- **A method that can be read from its text**: it is made from its draft, which can be written. -/
structure Readable (m : ListedMethod) : Prop where
  name : isWord m.name = true
  spelled : m.draft.Spelled
  finish : m.draft.finish m.name = .ok m

theorem Readable.tokens_render {m : ListedMethod} (h : m.Readable) : Lexeme.tokens m.render.toList =
    .word "method" :: .word m.name :: .sign '\x7b' :: (m.draft.items.flatMap BodyItem.tokens ++ [.sign '\x7d']) := by
  rw [toList_render]
  change Lexeme.tokens ("method".toList ++ ' ' :: (m.name.toList ++ ' ' :: '\x7b' :: '\n' ::
    (m.draft.items.flatMap (·.text.toList) ++ ['\x7d', '\n']))) = _
  rw [tokens_word_blank (by decide), tokens_word_blank h.name, tokens_sign (by decide), tokens_blank (by decide),
    tokens_flatMap_text h.spelled, tokens_sign (by decide), tokens_blank (by decide), tokens_nil]

end ListedMethod

namespace Cursor

/-! ## Reading a method that can be read -/

theorem exists_readMethod {c : Cursor} {m : ListedMethod} {ts : List Token} (hm : m.Readable)
    (h : c.tokens = .word m.name :: .sign '\x7b' :: (m.draft.items.flatMap BodyItem.tokens ++ .sign '\x7d' :: ts)) :
    ∃ c', c.readMethod = .ok (m, c') ∧ c'.tokens = ts := by
  obtain ⟨c₁, h₁, ht⟩ := exists_readWord h
  obtain ⟨c₂, h₂, ht⟩ := exists_expectSign ht
  obtain ⟨c₃, h₃, ht⟩ := exists_readItems hm.spelled m.draft.clauses_last m.draft.foldlM_items ht
  refine ⟨c₃, bind_eq_ok.2 ⟨_, h₁, bind_eq_ok.2 ⟨_, h₂, bind_eq_ok.2 ⟨_, h₃, ?_⟩⟩⟩, ht⟩
  dsimp only
  rw [hm.finish]
  rfl

theorem readParts_method {c c' : Cursor} {l : Listing} {m : ListedMethod} (hc : c.tokens ≠ [])
    (h : c.readPart = .ok (.inl m, c')) : c.readParts l = c'.readParts { l with methods := l.methods ++ [m] } := by
  have hrest : ¬c.rest.isEmpty = true := fun hrest => hc (by simp [tokens, List.isEmpty_iff.1 hrest])
  rw [readParts, if_neg hrest]
  split
  · rename_i e he
    rw [h] at he
    cases he
  · rename_i m₁ c₁ he
    rw [h] at he
    cases he
    rfl
  · rename_i d c₁ he
    rw [h] at he
    cases he

theorem readParts_end {c : Cursor} (l : Listing) (h : c.tokens = []) : c.readParts l = .ok l := by
  rw [readParts, List.map_eq_nil_iff.1 h]
  rfl

end Cursor

/-- **The text of a method that can be read is a listing** of this method alone. -/
theorem ListedMethod.Readable.read_render {m : ListedMethod} (h : m.Readable) (name : String) :
    Listing.read name m.render = .ok ⟨name, [m], []⟩ := by
  have ht : (Cursor.ofText m.render).tokens = _ := h.tokens_render
  obtain ⟨c₁, h₁, ht₁⟩ := Cursor.exists_readWord ht
  obtain ⟨c₂, h₂, ht₂⟩ := Cursor.exists_readMethod h ht₁
  have hpart : (Cursor.ofText m.render).readPart = .ok (.inl m, c₂) :=
    Cursor.bind_eq_ok.2 ⟨_, h₁, Cursor.map_eq_ok.2 ⟨_, h₂, rfl⟩⟩
  have hparts : (Cursor.ofText m.render).readParts ⟨name, [], []⟩ = .ok ⟨name, [m], []⟩ := by
    rw [Cursor.readParts_method (by rw [ht]; simp) hpart, Cursor.readParts_end _ ht₂]
    rfl
  exact Cursor.bind_eq_ok.2 ⟨_, hparts, rfl⟩

namespace Cursor

/-! ## Methods of a text can be read again -/

theorem Words.readDirective {c c' : Cursor} {d : DataDirective} (h : c.Words) (hr : c.readDirective = .ok (d, c')) :
    c'.Words := by
  obtain ⟨⟨w, c₁⟩, h₁, hr⟩ := bind_eq_ok.1 hr
  obtain ⟨-, h⟩ := h.readWord h₁
  dsimp only [readDirectiveOf] at hr
  split at hr
  · obtain ⟨⟨_, _⟩, h₂, hr⟩ := map_eq_ok.1 hr
    cases hr
    exact (h.readNumeral h₂).2
  · obtain ⟨⟨_, _⟩, h₂, hr⟩ := bind_eq_ok.1 hr
    obtain ⟨⟨_, _⟩, h₃, hr⟩ := bind_eq_ok.1 hr
    cases hr
    exact ((h.readWord h₂).2.readOptional h₃).2
  · obtain ⟨⟨_, _⟩, h₂, hr⟩ := map_eq_ok.1 hr
    cases hr
    exact (h.readNumeral h₂).2
  · cases hr

theorem Words.readDirectives {c c' : Cursor} {i i' : DataItem} (h : c.Words) (hr : c.readDirectives i = .ok (i', c')) :
    c'.Words := by
  fun_induction Cursor.readDirectives i c with
  | case1 i c c₁ htake =>
    cases hr
    exact h.tail (take?_eq_some htake)
  | case2 => cases hr
  | case3 i c htake d c₁ hd ih => exact ih (h.readDirective hd) hr

theorem Words.readData {c c' : Cursor} {d : DataItem} (h : c.Words) (hr : c.readData = .ok (d, c')) : c'.Words := by
  obtain ⟨⟨_, _⟩, h₁, hr⟩ := bind_eq_ok.1 hr
  obtain ⟨⟨_, _⟩, h₂, hr⟩ := bind_eq_ok.1 hr
  obtain ⟨_, h₃, hr⟩ := bind_eq_ok.1 hr
  obtain ⟨⟨i, c₄⟩, h₄, hr⟩ := bind_eq_ok.1 hr
  have hwords := (((h.readWord h₁).2.readOptional h₂).2.tail (expectSign_eq_ok h₃)).readDirectives h₄
  dsimp only at hr
  split at hr
  · cases hr
  · cases hr
    exact hwords

/-- **A method that is read can be read again.** -/
theorem Words.readMethod {c c' : Cursor} {m : ListedMethod} (h : c.Words) (hr : c.readMethod = .ok (m, c')) :
    m.Readable ∧ c'.Words := by
  obtain ⟨⟨name, c₁⟩, h₁, hr⟩ := bind_eq_ok.1 hr
  obtain ⟨c₂, h₂, hr⟩ := bind_eq_ok.1 hr
  obtain ⟨⟨d, c₃⟩, h₃, hr⟩ := bind_eq_ok.1 hr
  obtain ⟨hname, h⟩ := h.readWord h₁
  have hempty : Draft.empty.Spelled := by simp [Draft.Spelled, Draft.items, Draft.empty]
  obtain ⟨hd, h⟩ := (h.tail (expectSign_eq_ok h₂)).readItems hempty h₃
  dsimp only at hr
  split at hr
  · rename_i m' hfinish
    cases hr
    obtain ⟨rfl, hspelled, hagain⟩ := Draft.finish_draft hd hfinish
    exact ⟨⟨hname, hspelled, hagain⟩, h⟩
  · cases hr

theorem Words.readPart {c c' : Cursor} {p : ListedMethod ⊕ DataItem} (h : c.Words) (hr : c.readPart = .ok (p, c')) :
    (∀ m, p = .inl m → m.Readable) ∧ c'.Words := by
  obtain ⟨⟨w, c₁⟩, h₁, hr⟩ := bind_eq_ok.1 hr
  obtain ⟨-, h⟩ := h.readWord h₁
  dsimp only at hr
  split at hr
  · obtain ⟨⟨m, c₂⟩, h₂, hr⟩ := map_eq_ok.1 hr
    cases hr
    obtain ⟨hm, h⟩ := h.readMethod h₂
    exact ⟨fun _ heq => Sum.inl.inj heq ▸ hm, h⟩
  · obtain ⟨⟨d, c₂⟩, h₂, hr⟩ := map_eq_ok.1 hr
    cases hr
    exact ⟨nofun, h.readData h₂⟩
  · cases hr

/-- **All methods that are read can be read again**, if those that were read before can. -/
theorem Words.readParts {c : Cursor} {l l' : Listing} (h : c.Words) (hl : ∀ m ∈ l.methods, m.Readable)
    (hr : c.readParts l = .ok l') : ∀ m ∈ l'.methods, m.Readable := by
  fun_induction Cursor.readParts l c with
  | case1 l c _ =>
    cases hr
    exact hl
  | case2 => cases hr
  | case3 l c _ m c₁ hpart ih =>
    obtain ⟨hm, hwords⟩ := h.readPart hpart
    refine ih hwords (fun m' hm' => ?_) hr
    rcases List.mem_append.1 hm' with hm' | hm'
    · exact hl m' hm'
    · rw [List.mem_singleton.1 hm']
      exact hm m rfl
  | case4 l c _ d c₁ hpart ih => exact ih (h.readPart hpart).2 hl hr

end Cursor

namespace Listing

theorem readable_of_read {name text : String} {l : Listing} (h : Listing.read name text = .ok l) :
    ∀ m ∈ l.methods, m.Readable := by
  obtain ⟨l', hparts, h⟩ := Cursor.bind_eq_ok.1 h
  have hreadable := (Cursor.words_ofText text).readParts (by simp) hparts
  split at h
  · cases h
  · cases h
    exact hreadable

/-- **A method of a listing, rendered, is read back as it is**: the text of the method is a listing without data whose
only method has the same name, entry, instructions, blocks with their clauses, types and handlers. -/
theorem render_reads_back (name text : String) (l : Listing) (h : Listing.read name text = .ok l) (m : ListedMethod)
    (hm : m ∈ l.methods) (name' : String) : Listing.read name' m.render = .ok ⟨name', [m], []⟩ :=
  (readable_of_read h m hm).read_render name'

/-- A text with two blocks of one name, names that are also words of listings, and clauses between the blocks. -/
def tangledText : String :=
  "data at \x7b word 1 \x7d method data \x7b catch: op 0xffffffff goto at\n"
    ++ "at: branch at, catch protect catch -> at catch 31 protect at -> catch\nat: word 17 ret type 7 : 2 \x7d"

def tangledMethod : ListedMethod where
  name := "data"
  entry := .resolved "catch" 0
  insns := [.op 4294967295, .goto (.resolved "at" 1), .branch (.resolved "at" 1) (.resolved "catch" 0), .word 17, .ret]
  blocks := [⟨"catch", 0, 2, [⟨.resolved "at" 1, some 31⟩]⟩, ⟨"at", 2, 1, [⟨.resolved "catch" 0, none⟩]⟩,
    ⟨"at", 3, 2, []⟩]
  types := ⟨[(7, 2)]⟩
  handlers := [true, true, false]

theorem render_reads_back_tangled :
    Listing.read "tangled" tangledText = .ok ⟨"tangled", [tangledMethod], [DataItem.plain "at" [1, 0, 0, 0]]⟩ ∧
      Listing.read "again" tangledMethod.render = .ok ⟨"again", [tangledMethod], []⟩ := by
  have h : Listing.read "tangled" tangledText =
      .ok ⟨"tangled", [tangledMethod], [DataItem.plain "at" [1, 0, 0, 0]]⟩ := by decide +kernel
  exact ⟨h, render_reads_back "tangled" tangledText _ h tangledMethod List.mem_cons_self "again"⟩

end Listing

end CodeImage
