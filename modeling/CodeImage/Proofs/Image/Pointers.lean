import CodeImage.Listing.Board
import CodeImage.Listing.Check
import CodeImage.Listing.Machine
import CodeImage.Proofs.Image.Allotment
import CodeImage.Proofs.Memory.FirstFit
/-!
# Pointers — which references lead behind the last address

Whoever refers to a piece of data points some bytes behind its start.  Where room is found for the piece, that point lies
in the room or at its end, so it is an address (`exists_pointer`).  A piece that is pinned at an address is only asked to
end in the memory: its pointer may lie behind the last address there is, and nothing else that a reference leads to does
(`goal_overruns_iff`).
-/
namespace CodeImage

/-- **The pointer of a pinned piece of data lies behind the last address.** -/
def DataItem.Overhangs (item : DataItem) : Prop :=
  ∃ a, item.fixedAddress = some a ∧ wordLimit ≤ a + item.pointerOffset

namespace Program

variable {p : Program} {platform : Platform} {options : Options} {levels : Levels} {scheduled : List Scheduled}
  {data code placed : List Region} {used : MemoryMap}

/-- **The pointer of a piece of data**: behind its start by its offset, and no further than its end where room was found
for it. -/
theorem exists_pointer (h : Emits p platform levels scheduled data code)
    (hplace : p.place platform options (data ++ code) = .ok (placed, used))
    {n : Nat} {item : DataItem} (hitem : p.data[n]? = some item) :
    ∃ r a, placed[n]? = some r ∧ r.base = some a ∧ r.pointer = .ok (a + item.pointerOffset) ∧
      (item.fixedAddress = none → item.pointerOffset ≤ item.payload.length ∧ a + item.payload.length < wordLimit) ∧
      ∀ b, item.fixedAddress = some b → a = b := by
  obtain ⟨e, he, hok⟩ := h.exists_data hitem
  obtain ⟨hcontext, -, hoffset, -, hpayload⟩ := dataRegion_eq_ok hok
  obtain ⟨r, hr, hstep⟩ := data_place hplace hitem he hcontext
  obtain ⟨hplacing, -⟩ := placing_place h hplace
  have hfixed := isFixed_of_item hitem
  cases hpin : item.fixedAddress with
  | some b =>
    simp only [hpin] at hstep
    subst hstep
    refine ⟨_, b, hr, rfl, by rw [← hoffset]; rfl, nofun, fun c hc => Option.some.inj hc⟩
  | none =>
    simp only [hpin] at hstep hfixed
    obtain ⟨m, m', hfound⟩ := hstep
    obtain ⟨-, a, halloc, rfl⟩ := Region.place_eq_ok hfound
    refine ⟨_, a, hr, rfl, by rw [← hoffset]; rfl, fun _ => ⟨?_, ?_⟩, nofun⟩
    · -- an aligned point behind the end of the piece finds no room
      rw [← hoffset, ← hpayload]
      by_contra hlt
      rw [MemoryMap.allocate_eq_none (.inr (by rw [Region.size]; omega))] at halloc
      cases halloc
    · have hstop := hplacing.housed.within _ (List.mem_of_getElem? hr) a rfl
      exact hpayload ▸ hstop

/-- The pointer of a piece of data overruns the addresses where the piece is pinned too near to the last one. -/
theorem pointer_overruns_iff (h : Emits p platform levels scheduled data code)
    (hplace : p.place platform options (data ++ code) = .ok (placed, used))
    {n a : Nat} {item : DataItem} {r : Region}
    (hitem : p.data[n]? = some item) (hr : placed[n]? = some r) (ha : r.base = some a) :
    wordLimit ≤ a + item.pointerOffset ↔ item.Overhangs := by
  obtain ⟨r', a', hr', ha', -, hfree, hpinned⟩ := exists_pointer h hplace hitem
  cases hr.symm.trans hr'
  cases ha.symm.trans ha'
  constructor
  · intro hle
    cases hpin : item.fixedAddress with
    | none =>
      have := hfree hpin
      omega
    | some b => exact ⟨b, hpin, hpinned b hpin ▸ hle⟩
  · rintro ⟨b, hpin, hle⟩
    rwa [hpinned b hpin]

/-- **Code lies in words**, and whoever refers to it points to its start. -/
theorem code_in_words (h : Emits p platform levels scheduled data code)
    (hplace : p.place platform options (data ++ code) = .ok (placed, used))
    {n a : Nat} {r : Region} (hr : placed[n]? = some r)
    (hn : p.data.length ≤ n) (ha : r.base = some a) : r.pointerOffset = 0 ∧ a < wordLimit := by
  obtain ⟨hplacing, -⟩ := placing_place h hplace
  have hlt := hplacing.housed.within r (List.mem_of_getElem? hr) a ha
  obtain ⟨e, base, he, rfl⟩ := getElem?_of_body hplacing.body hr
  obtain ⟨m, sm, b, -, -, hholds⟩ := h.slot_of_le hn he
  exact ⟨hholds.pointer, by omega⟩

theorem resolve_region_eq_ok {book : AddressBook} {n goal : Nat} (h : book.resolve (.region n) = .ok goal) :
    ∃ r a, book.regions[n]? = some r ∧ r.base = some a ∧ goal = a + r.pointerOffset := by
  rw [AddressBook.resolve] at h
  split at h
  · cases h
  · rename_i r hr
    split at h
    · rename_i a ha
      cases h
      exact ⟨r, a, hr, ha, rfl⟩
    · cases h

/-- **The address of a block is a word.** -/
theorem blockAddress?_lt (h : Emits p platform levels scheduled data code)
    (hplace : p.place platform options (data ++ code) = .ok (placed, used))
    {m b a : Nat}
    (ha : AddressBook.blockAddress? ⟨scheduled, placed⟩ m b = some a) : a < wordLimit := by
  obtain ⟨hplacing, -⟩ := placing_place h hplace
  unfold AddressBook.blockAddress? at ha
  split at ha
  · split at ha
    · obtain ⟨r, hfind, hbase⟩ := Option.bind_eq_some_iff.1 ha
      obtain ⟨n, hr⟩ := List.mem_iff_getElem?.1 (List.mem_of_find?_eq_some hfind)
      have hcontext := List.find?_some hfind
      rw [beq_iff_eq] at hcontext
      obtain ⟨e, base, he, heq⟩ := getElem?_of_body hplacing.body hr
      have hn := (h.slot_of_context he (by rw [← hcontext, heq])).1
      exact (code_in_words h hplace hr hn hbase).2
    · cases ha
  · cases ha

/-- **Where the references of a round lead.** -/
structure PointsWithin (p : Program) (scheduled : List Scheduled) (placed : List Region) : Prop where
  /-- Every piece of data has an address and a pointer.  Where room was found for the piece, the pointer lies in it or at
  its end, and that is an address. -/
  data : ∀ (n : Nat) (item : DataItem), p.data[n]? = some item → ∃ (r : Region) (a : Nat), placed[n]? = some r ∧ r.base = some a ∧
    r.pointer = .ok (a + item.pointerOffset) ∧ (wordLimit ≤ a + item.pointerOffset ↔ item.Overhangs) ∧
    (item.fixedAddress = none → item.pointerOffset ≤ item.payload.length ∧ a + item.payload.length < wordLimit)
  /-- A reference leads behind the last address only to a piece of data that is pinned too near to it. -/
  goals : ∀ t goal, AddressBook.resolve ⟨scheduled, placed⟩ t = .ok goal →
    (wordLimit ≤ goal ↔ ∃ n item, t = .region n ∧ p.data[n]? = some item ∧ item.Overhangs)

/-- **References overrun the addresses at pinned data only.**  In every round in which all regions are placed, whatever
the program, its levels, its target and the options, the pointer of a piece of data is an address, unless the piece is
pinned at an address that lies too near to the last one for its pointer offset; and no reference leads behind the last
address but to such a piece. -/
theorem goal_overruns_iff (p : Program) (platform : Platform) (options : Options) (scheduled : List Scheduled)
    (levels : Levels) (emitted placed : List Region) (used : MemoryMap)
    (hemit : p.emit platform levels scheduled = .ok emitted)
    (hplace : p.place platform options emitted = .ok (placed, used)) : p.PointsWithin scheduled placed := by
  obtain ⟨data, code, rfl, h⟩ := emit_eq_ok hemit
  refine ⟨fun n item hitem => ?_, fun t goal hgoal => ?_⟩
  · obtain ⟨r, a, hr, ha, hpointer, hfree, -⟩ := exists_pointer h hplace hitem
    exact ⟨r, a, hr, ha, hpointer, pointer_overruns_iff h hplace hitem hr ha, hfree⟩
  match t with
  | .block m b =>
    have hlt := blockAddress?_lt h hplace (AddressBook.blockAddress?_of_resolve hgoal)
    exact iff_of_false (by omega) (by rintro ⟨n, item, ht, -⟩; cases ht)
  | .region n =>
    obtain ⟨r, a, hr, ha, rfl⟩ := resolve_region_eq_ok hgoal
    cases hitem : p.data[n]? with
    | some item =>
      obtain ⟨e, he, hok⟩ := h.exists_data hitem
      obtain ⟨e', base, he', rfl⟩ := getElem?_of_body (placing_place h hplace).1.body hr
      cases he.symm.trans he'
      rw [(dataRegion_eq_ok hok).2.2.1, pointer_overruns_iff h hplace hitem hr ha]
      constructor
      · exact fun hover => ⟨n, item, rfl, hitem, hover⟩
      · rintro ⟨n', item', hn, hitem', hover⟩
        cases hn
        cases hitem.symm.trans hitem'
        exact hover
    | none =>
      obtain ⟨hzero, hlt⟩ := code_in_words h hplace hr (List.getElem?_eq_none_iff.1 hitem) ha
      refine iff_of_false (by omega) ?_
      rintro ⟨n', item, hn, hitem', -⟩
      cases hn
      rw [hitem] at hitem'
      cases hitem'

/-- **A valid listing with a reference that overruns the addresses**: its data are pinned sixteen bytes below the last
address, and whoever refers to them points thirty-two bytes behind their start. -/
def overhanging : Listing :=
  ⟨"f", [((ListedMethod.empty "f" "a").addBlock "a" [.load "d", .ret]).complete.1],
    [⟨"d", leBytes 4 1, none, some 0xfffffff0, 0x20, []⟩]⟩

theorem goal_overruns_iff_overhanging : overhanging.fault? = none ∧ ∃ scheduled emitted placed used,
      (overhanging.program .default).scheduleAll = .ok scheduled ∧
      (overhanging.program .default).emit Board.default.platform Levels.empty scheduled = .ok emitted ∧
      (overhanging.program .default).place Board.default.platform .default emitted = .ok (placed, used) ∧
      (overhanging.program .default).PointsWithin scheduled placed ∧
      AddressBook.resolve ⟨scheduled, placed⟩ (.region 0) = .ok (wordLimit + 0x10) := by
  have hmap : MemoryMap.ofDeclared Board.default.platform.memory =
      ⟨[⟨0x08000000, 0x08100000, ⟨some "text", ⟨106⟩, ⟨1⟩⟩, false⟩,
        ⟨0x20000000, 0x20010000, ⟨some "data", ⟨25⟩, ⟨2⟩⟩, false⟩]⟩ := by cbv
  have hgoal : ((overhanging.program .default).scheduleAll.toOption.bind fun scheduled =>
      ((overhanging.program .default).emit Board.default.platform Levels.empty scheduled).toOption.bind fun emitted =>
        ((overhanging.program .default).place Board.default.platform .default emitted).toOption.bind fun state =>
          (AddressBook.resolve ⟨scheduled, state.1⟩ (.region 0)).toOption) = some (wordLimit + 0x10) := by
    simp only [place, hmap]
    decide +kernel
  obtain ⟨scheduled, hscheduled, hgoal⟩ := Option.bind_eq_some_iff.1 hgoal
  obtain ⟨emitted, hemit, hgoal⟩ := Option.bind_eq_some_iff.1 hgoal
  obtain ⟨⟨placed, used⟩, hplace, hgoal⟩ := Option.bind_eq_some_iff.1 hgoal
  have hemit := Outcome.toOption_eq_some.1 hemit
  have hplace := Outcome.toOption_eq_some.1 hplace
  exact ⟨by decide +kernel, scheduled, emitted, placed, used, Outcome.toOption_eq_some.1 hscheduled, hemit, hplace,
    goal_overruns_iff _ _ _ scheduled Levels.empty emitted placed used hemit hplace,
    Outcome.toOption_eq_some.1 hgoal⟩

end Program

end CodeImage
