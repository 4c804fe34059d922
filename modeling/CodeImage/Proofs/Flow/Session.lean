import Mathlib.Algebra.GroupWithZero.Nat
import Mathlib.Data.List.Nodup
import CodeImage.Flow.Cache
import CodeImage.Proofs.Outcome
/-!
# Sessions — what a cache answers over time

A session is a row of steps on one cache, over a method that is edited in between.  `Record` reads off the steps and their
answers what the method is now, what it was when the cache last took it over, and which locks are held; it knows nothing of
what is cached.  `Keeps` relates it to the cache and is kept by every step (`Keeps.step`), so all answers are those that
the record expects, and a refused refresh leaves no trace (`answers_never_stale`).
-/
namespace CodeImage

/-! ## Counting locks -/

theorem AnalysisKind.index_inj : ∀ {a b : AnalysisKind}, a.index = b.index → a = b := by
  intro a b h
  cases a <;> cases b <;> first | rfl | cases h

namespace LockCounts

theorem get_zero (kind : AnalysisKind) : zero.get kind = 0 := by
  simp [get, zero]

theorem get_set (l : LockCounts) (kind kind' : AnalysisKind) (n : Nat) :
    get ⟨l.counts.set kind.index n kind.index.isLt⟩ kind' = if kind' = kind then n else l.get kind' := by
  by_cases h : kind' = kind
  · subst h
    simp [get]
  · have hne : kind.index.val ≠ kind'.index.val := fun heq => h (AnalysisKind.index_inj (Fin.ext heq)).symm
    simp [get, h, hne]

theorem get_foldl_acquire (kind : AnalysisKind) : ∀ (kinds : List AnalysisKind) (l : LockCounts),
    (kinds.foldl acquire l).get kind = l.get kind + kinds.count kind
  | [], l => rfl
  | k :: kinds, l => by
    rw [List.foldl_cons, get_foldl_acquire kind kinds, acquire, get_set, List.count_cons]
    by_cases h : kind = k
    · simp [h]
      omega
    · simp [h, Ne.symm h]

theorem get_foldl_release (kind : AnalysisKind) : ∀ (kinds : List AnalysisKind) (l : LockCounts),
    (kinds.foldl release l).get kind = l.get kind - kinds.count kind
  | [], l => rfl
  | k :: kinds, l => by
    rw [List.foldl_cons, get_foldl_release kind kinds, release, get_set, List.count_cons]
    by_cases h : kind = k
    · simp [h]
      omega
    · simp [h, Ne.symm h]

end LockCounts

/-- What one lock adds to a sum over all. -/
theorem sum_map_filter_of_lookup {α : Type} (f : Nat × α → Nat) {n : Nat} {x : α} : ∀ {l : List (Nat × α)},
    (l.map (·.1)).Nodup → l.lookup n = some x → (l.map f).sum = f (n, x) + ((l.filter (·.1 != n)).map f).sum
  | (m, y) :: l, hnodup, h => by
    obtain ⟨hm, hnodup⟩ := List.nodup_cons.1 hnodup
    by_cases hnm : n = m
    · subst hnm
      simp only [List.lookup_cons, beq_self_eq_true, Option.some.injEq] at h
      subst h
      have hothers : l.filter (·.1 != n) = l := List.filter_eq_self.2 fun e he => by
        simp only [bne_iff_ne, ne_eq]
        exact fun heq => hm (List.mem_map.2 ⟨e, he, heq⟩)
      simp [hothers]
    · rw [List.lookup_cons, beq_eq_false_iff_ne.2 hnm] at h
      have hkeep : ((m, y).1 != n) = true := bne_iff_ne.2 (Ne.symm hnm)
      rw [List.filter_cons_of_pos (by exact hkeep), List.map_cons, List.map_cons, List.sum_cons, List.sum_cons,
        sum_map_filter_of_lookup f hnodup h]
      omega

/-! ## Requests -/

/-- **What a request for an analysis of some kind answers.** -/
inductive Analysis where
  | spanningTree (t : SpanningTree)
  | postOrder (l : List Nat)
  | dominance (d : Except AnalysisFault Dominance)
  | postDominance (d : Except AnalysisFault PostDominance)
  | naturalLoops (f : Except AnalysisFault LoopForest)
  deriving DecidableEq

namespace AnalysisCache

def ask (c : AnalysisCache) : AnalysisKind → Analysis × AnalysisCache
  | .spanningTree => let (t, c) := c.spanningTree; (.spanningTree t, c)
  | .postOrder => let (l, c) := c.postOrder; (.postOrder l, c)
  | .dominance => let (d, c) := c.dominance; (.dominance d, c)
  | .postDominance => let (d, c) := c.postDominance; (.postDominance d, c)
  | .naturalLoops => let (f, c) := c.loops; (.naturalLoops f, c)

/-- **What is cached belongs to the graph**: every cell has what the analysis of the graph, with nothing cached, comes
to. -/
structure Current (c : AnalysisCache) : Prop where
  tree : ∀ t ∈ c.tree, t = c.graph.spanningTree
  order : ∀ l ∈ c.order, l = c.graph.postOrder
  dom : ∀ d ∈ c.dom, Dominance.of c.graph = .ok d
  postDom : ∀ d ∈ c.postDom, PostDominance.of c.graph = .ok d
  forest : ∀ f ∈ c.forest, c.graph.loopForest = .ok f

theorem current_ofGraph (g : FlowGraph) : (ofGraph g).Current := ⟨nofun, nofun, nofun, nofun, nofun⟩

theorem Current.relock {c : AnalysisCache} (h : c.Current) (counts : LockCounts) (held : List (Nat × List AnalysisKind))
    (issued : Nat) : { c with counts := counts, held := held, issued := issued }.Current :=
  ⟨h.tree, h.order, h.dom, h.postDom, h.forest⟩

/-- Only what is cached may differ. -/
structure Like (c c' : AnalysisCache) : Prop where
  graph : c'.graph = c.graph
  counts : c'.counts = c.counts
  held : c'.held = c.held
  issued : c'.issued = c.issued

variable {c : AnalysisCache}

theorem Like.refl (c : AnalysisCache) : c.Like c := ⟨rfl, rfl, rfl, rfl⟩

theorem Like.trans {c' c'' : AnalysisCache} (h : c.Like c') (h' : c'.Like c'') : c.Like c'' :=
  ⟨h'.graph.trans h.graph, h'.counts.trans h.counts, h'.held.trans h.held, h'.issued.trans h.issued⟩

theorem spanningTree_spec (h : c.Current) : c.spanningTree.1 = c.graph.spanningTree ∧ c.spanningTree.2.Current ∧
    c.Like c.spanningTree.2 := by
  unfold spanningTree
  split
  · rename_i t ht
    exact ⟨h.tree t ht, h, .refl c⟩
  · exact ⟨rfl, ⟨fun t ht => (Option.some.inj ht).symm, h.order, h.dom, h.postDom, h.forest⟩, rfl, rfl, rfl, rfl⟩

theorem postOrder_spec (h : c.Current) : c.postOrder.1 = c.graph.postOrder ∧ c.postOrder.2.Current ∧
    c.Like c.postOrder.2 := by
  unfold postOrder
  split
  · rename_i l hl
    exact ⟨h.order l hl, h, .refl c⟩
  · exact ⟨rfl, ⟨h.tree, fun l hl => (Option.some.inj hl).symm, h.dom, h.postDom, h.forest⟩, rfl, rfl, rfl, rfl⟩

theorem dominance_spec (h : c.Current) : c.dominance.1 = Dominance.of c.graph ∧ c.dominance.2.Current ∧
    c.Like c.dominance.2 := by
  unfold dominance
  split
  · rename_i d hd
    exact ⟨(h.dom d hd).symm, h, .refl c⟩
  · -- the order may have been cached before; it is that of the graph
    obtain ⟨horder, hcurrent, hlike⟩ := postOrder_spec h
    have hof : Dominance.compute c.postOrder.2.graph c.postOrder.1 = Dominance.of c.postOrder.2.graph := by
      rw [horder, ← hlike.graph]
      rfl
    rw [← hlike.graph]
    dsimp only
    split
    · rename_i d hd
      have hd : Dominance.of c.postOrder.2.graph = .ok d := hof.symm.trans hd
      exact ⟨hd.symm, ⟨hcurrent.tree, hcurrent.order, fun d' hd' => Option.some.inj hd' ▸ hd, hcurrent.postDom,
        hcurrent.forest⟩, hlike.graph, hlike.counts, hlike.held, hlike.issued⟩
    · rename_i fault hfault
      exact ⟨hfault.symm.trans hof, hcurrent, hlike⟩

theorem postDominance_spec (h : c.Current) : c.postDominance.1 = PostDominance.of c.graph ∧ c.postDominance.2.Current ∧
    c.Like c.postDominance.2 := by
  unfold postDominance
  split
  · rename_i d hd
    exact ⟨(h.postDom d hd).symm, h, .refl c⟩
  · obtain ⟨horder, hcurrent, hlike⟩ := postOrder_spec h
    have hof : PostDominance.compute c.postOrder.2.graph c.postOrder.1 = PostDominance.of c.postOrder.2.graph := by
      rw [horder, ← hlike.graph]
      rfl
    rw [← hlike.graph]
    dsimp only
    split
    · rename_i d hd
      have hd : PostDominance.of c.postOrder.2.graph = .ok d := hof.symm.trans hd
      exact ⟨hd.symm, ⟨hcurrent.tree, hcurrent.order, hcurrent.dom, fun d' hd' => Option.some.inj hd' ▸ hd,
        hcurrent.forest⟩, hlike.graph, hlike.counts, hlike.held, hlike.issued⟩
    · rename_i fault hfault
      exact ⟨hfault.symm.trans hof, hcurrent, hlike⟩

theorem loops_spec (h : c.Current) : c.loops.1 = c.graph.loopForest ∧ c.loops.2.Current ∧ c.Like c.loops.2 := by
  unfold loops
  split
  · rename_i f hf
    exact ⟨(h.forest f hf).symm, h, .refl c⟩
  · obtain ⟨htree, hcurrent, hlike⟩ := spanningTree_spec h
    obtain ⟨hdom, hcurrent', hlike'⟩ := dominance_spec hcurrent
    have hall := hlike.trans hlike'
    have hforest : c.graph.loopForest = Dominance.of c.graph >>= c.graph.findLoops c.graph.spanningTree := rfl
    rw [hlike.graph] at hdom
    dsimp only
    split
    · rename_i fault c' heq
      rw [heq] at hdom hcurrent' hall
      rw [hforest, ← hdom]
      exact ⟨rfl, hcurrent', hall⟩
    · rename_i d c' heq
      rw [heq] at hdom hcurrent' hall
      have hfind : c'.graph.findLoops c.spanningTree.1 d = c'.graph.loopForest := by
        rw [hall.graph, htree, hforest, ← hdom]
        rfl
      rw [← hall.graph]
      split
      · rename_i f hf
        have hf : c'.graph.loopForest = .ok f := hfind.symm.trans hf
        exact ⟨hf.symm, ⟨hcurrent'.tree, hcurrent'.order, hcurrent'.dom, hcurrent'.postDom,
          fun f' hf' => Option.some.inj hf' ▸ hf⟩, hall.graph, hall.counts, hall.held, hall.issued⟩
      · rename_i fault hfault
        exact ⟨hfault.symm.trans hfind, hcurrent', hall⟩

/-- **A request answers what a cache answers in which nothing has been asked for**, and changes nothing but what is
cached. -/
theorem ask_spec (h : c.Current) (kind : AnalysisKind) : (c.ask kind).1 = ((ofGraph c.graph).ask kind).1 ∧
    (c.ask kind).2.Current ∧ c.Like (c.ask kind).2 := by
  have hfresh := current_ofGraph c.graph
  cases kind with
  | spanningTree =>
    obtain ⟨hanswer, hrest⟩ := spanningTree_spec h
    exact ⟨congrArg Analysis.spanningTree (hanswer.trans (spanningTree_spec hfresh).1.symm), hrest⟩
  | postOrder =>
    obtain ⟨hanswer, hrest⟩ := postOrder_spec h
    exact ⟨congrArg Analysis.postOrder (hanswer.trans (postOrder_spec hfresh).1.symm), hrest⟩
  | dominance =>
    obtain ⟨hanswer, hrest⟩ := dominance_spec h
    exact ⟨congrArg Analysis.dominance (hanswer.trans (dominance_spec hfresh).1.symm), hrest⟩
  | postDominance =>
    obtain ⟨hanswer, hrest⟩ := postDominance_spec h
    exact ⟨congrArg Analysis.postDominance (hanswer.trans (postDominance_spec hfresh).1.symm), hrest⟩
  | naturalLoops =>
    obtain ⟨hanswer, hrest⟩ := loops_spec h
    exact ⟨congrArg Analysis.naturalLoops (hanswer.trans (loops_spec hfresh).1.symm), hrest⟩

/-- **The counts are those of the locks held**, whose numbers are different. -/
structure Counts (c : AnalysisCache) : Prop where
  counts : ∀ kind, c.counts.get kind = (c.held.map fun lock => lock.2.count kind).sum
  nodup : (c.held.map (·.1)).Nodup
  lt_issued : ∀ lock ∈ c.held, lock.1 < c.issued

/-- Giving a lock back takes it off the counts; without one of that number nothing changes. -/
theorem unlock_cases (c : AnalysisCache) (n : Nat) : (c.held.lookup n = none ∧ c.unlock n = (false, c)) ∨
    ∃ kinds, c.held.lookup n = some kinds ∧ c.unlock n = (true, { c with
      counts := kinds.foldl LockCounts.release c.counts, held := c.held.filter (·.1 != n) }) := by
  unfold unlock
  cases hlookup : c.held.lookup n with
  | none => exact .inl ⟨rfl, rfl⟩
  | some kinds => exact .inr ⟨kinds, rfl, rfl⟩

theorem unlock_held (c : AnalysisCache) (n : Nat) : (c.unlock n).1 = c.held.any (·.1 == n) ∧
    (c.unlock n).2.held = c.held.filter (·.1 != n) := by
  rcases unlock_cases c n with ⟨hlookup, heq⟩ | ⟨kinds, hlookup, heq⟩
  · have hnone : ∀ lock ∈ c.held, lock.1 ≠ n := fun lock hlock heq => by
      have := List.lookup_eq_none_iff.1 hlookup lock hlock
      simp [heq] at this
    rw [heq]
    refine ⟨(List.any_eq_false.2 fun lock hlock => ?_).symm, (List.filter_eq_self.2 fun lock hlock => ?_).symm⟩
    · simpa using hnone lock hlock
    · simpa using hnone lock hlock
  · obtain ⟨front, back, hsplit, -⟩ := List.lookup_eq_some_iff.1 hlookup
    rw [heq]
    exact ⟨by simp [hsplit], rfl⟩

namespace Counts

theorem like {c' : AnalysisCache} (h : c.Counts) (hlike : c.Like c') : c'.Counts := by
  refine ⟨?_, ?_, ?_⟩
  · rw [hlike.counts, hlike.held]
    exact h.counts
  · rw [hlike.held]
    exact h.nodup
  · rw [hlike.held, hlike.issued]
    exact h.lt_issued

theorem lock (h : c.Counts) (kinds : List AnalysisKind) : (c.lock kinds).2.Counts := by
  refine ⟨fun kind => ?_, ?_, ?_⟩
  · simp [AnalysisCache.lock, LockCounts.get_foldl_acquire, h.counts kind]
  · simp only [AnalysisCache.lock, List.map_append, List.map_cons, List.map_nil]
    refine List.nodup_append.2 ⟨h.nodup, List.nodup_singleton _, fun n hn m hm heq => ?_⟩
    obtain ⟨lock, hlock, rfl⟩ := List.mem_map.1 hn
    have := h.lt_issued lock hlock
    rw [heq, List.mem_singleton.1 hm] at this
    omega
  · intro lock hlock
    simp only [AnalysisCache.lock, List.mem_append, List.mem_singleton] at hlock ⊢
    rcases hlock with hlock | rfl
    · exact Nat.lt_succ_of_lt (h.lt_issued lock hlock)
    · exact Nat.lt_succ_self _

theorem unlock (h : c.Counts) (n : Nat) : (c.unlock n).2.Counts := by
  rcases unlock_cases c n with ⟨-, heq⟩ | ⟨kinds, hlookup, heq⟩
  · rw [heq]
    exact h
  · rw [heq]
    refine ⟨fun kind => ?_, h.nodup.sublist (List.filter_sublist.map _), fun lock hlock => ?_⟩
    · have hsum := sum_map_filter_of_lookup (fun lock => lock.2.count kind) h.nodup hlookup
      simp only [LockCounts.get_foldl_release, h.counts kind, hsum]
      omega
    · exact h.lt_issued lock (List.mem_filter.1 hlock).1

theorem isLocked_iff (h : c.Counts) (kind : AnalysisKind) :
    c.isLocked kind = true ↔ ∃ lock ∈ c.held, kind ∈ lock.2 := by
  rw [isLocked, decide_eq_true_iff, h.counts kind, List.sum_pos_iff_exists_pos_nat]
  simp only [List.mem_map, exists_exists_and_eq_and, List.count_pos_iff]

end Counts

end AnalysisCache

/-! ## Sessions -/

/-- **A step on a cache.**  An edit changes the method under it. -/
inductive CacheStep where
  | edit (o : Outline)
  | ask (kind : AnalysisKind)
  | lock (kinds : List AnalysisKind)
  | unlock (n : Nat)
  | isLocked (kind : AnalysisKind)
  | refresh

/-- **The answer to a step.** -/
inductive CacheAnswer where
  | edited
  | analysis (a : Analysis)
  | lock (n : Nat)
  | unlocked (wasHeld : Bool)
  | isLocked (locked : Bool)
  | refreshed (r : Except RefreshError Unit)
  deriving DecidableEq

/-- **A method that may be edited, and a cache over it.** -/
structure Session where
  method : Outline
  cache : AnalysisCache

namespace Session

def start (o : Outline) : Except FlowError Session := (AnalysisCache.ofOutline o).map (⟨o, ·⟩)

def step (s : Session) : CacheStep → CacheAnswer × Session
  | .edit o => (.edited, { s with method := o })
  | .ask kind => let (a, c) := s.cache.ask kind; (.analysis a, { s with cache := c })
  | .lock kinds => let (n, c) := s.cache.lock kinds; (.lock n, { s with cache := c })
  | .unlock n => let (held, c) := s.cache.unlock n; (.unlocked held, { s with cache := c })
  | .isLocked kind => (.isLocked (s.cache.isLocked kind), s)
  | .refresh => match s.cache.refresh s.method with
    | .ok c => (.refreshed (.ok ()), { s with cache := c })
    | .error e => (.refreshed (.error e), s)

/-- **Run steps in order**; every step stands beside its answer. -/
def run (s : Session) : List CacheStep → List (CacheStep × CacheAnswer) × Session
  | [] => ([], s)
  | step :: rest =>
    let (answer, s) := s.step step
    let (more, s) := s.run rest
    ((step, answer) :: more, s)

end Session

/-- **What steps and answers tell**: the method as it is, the method as it was when the cache took it over, how many locks
have been handed out, and those that are still held. -/
structure Record where
  method : Outline
  taken : Outline
  issued : Nat
  locks : List (Nat × List AnalysisKind)

namespace Record

def start (o : Outline) : Record := ⟨o, o, 0, []⟩

def note (r : Record) : CacheStep × CacheAnswer → Record
  | (.edit o, _) => { r with method := o }
  | (.lock kinds, .lock n) => { r with issued := r.issued + 1, locks := r.locks ++ [(n, kinds)] }
  | (.unlock n, _) => { r with locks := r.locks.filter (·.1 != n) }
  | (.refresh, .refreshed (.ok ())) => { r with taken := r.method }
  | _ => r

def of (o : Outline) (steps : List (CacheStep × CacheAnswer)) : Record := steps.foldl note (start o)

/-- A lock that is held lists the kind. -/
def isHeld (r : Record) (kind : AnalysisKind) : Bool := r.locks.any (·.2.contains kind)

/-- **What a refresh should answer**: the first kind, in the order of declaration, that a held lock lists; else what is
wrong with the method. -/
def refreshed (r : Record) : Except RefreshError Unit :=
  match AnalysisKind.all.find? r.isHeld with
  | some kind => .error (.locked kind)
  | none => match FlowGraph.ofOutline r.method with
    | .error e => .error (.flow e)
    | .ok _ => .ok ()

/-- **The answer that a step should get.**  A request is answered as by a fresh cache over the method as it was taken
over. -/
def Expects (r : Record) : CacheStep → CacheAnswer → Prop
  | .edit _, answer => answer = .edited
  | .ask kind, answer => ∃ fresh, AnalysisCache.ofOutline r.taken = .ok fresh ∧ answer = .analysis (fresh.ask kind).1
  | .lock _, answer => answer = .lock r.issued
  | .unlock n, answer => answer = .unlocked (r.locks.any (·.1 == n))
  | .isLocked kind, answer => ∃ locked, answer = .isLocked locked ∧ (locked = true ↔ ∃ lock ∈ r.locks, kind ∈ lock.2)
  | .refresh, answer => answer = .refreshed r.refreshed

end Record

/-- **A record and a session tell the same.** -/
structure Keeps (r : Record) (s : Session) : Prop where
  method : s.method = r.method
  graph : FlowGraph.ofOutline r.taken = .ok s.cache.graph
  current : s.cache.Current
  counts : s.cache.Counts
  held : s.cache.held = r.locks
  issued : s.cache.issued = r.issued

theorem keeps_start {o : Outline} {s : Session} (h : Session.start o = .ok s) : Keeps (.start o) s := by
  obtain ⟨c, hc, rfl⟩ := Outcome.map_eq_ok.1 h
  obtain ⟨g, hg, rfl⟩ := Outcome.map_eq_ok.1 hc
  refine ⟨rfl, hg, AnalysisCache.current_ofGraph g, ⟨fun kind => ?_, List.nodup_nil, nofun⟩, rfl, rfl⟩
  exact LockCounts.get_zero kind

namespace Keeps

variable {r : Record} {s : Session}

theorem isLocked_iff (h : Keeps r s) (kind : AnalysisKind) :
    s.cache.isLocked kind = true ↔ ∃ lock ∈ r.locks, kind ∈ lock.2 := h.held ▸ h.counts.isLocked_iff kind

theorem isLocked_eq (h : Keeps r s) : s.cache.isLocked = r.isHeld := by
  funext kind
  rw [Bool.eq_iff_iff, h.isLocked_iff, Record.isHeld, List.any_eq_true]
  simp only [List.contains_iff_mem]

theorem refresh_cases (h : Keeps r s) :
    (∃ e, r.refreshed = .error e ∧ s.cache.refresh s.method = .error e) ∨
      ∃ g, r.refreshed = .ok () ∧ FlowGraph.ofOutline r.method = .ok g ∧ s.cache.refresh s.method =
        .ok { AnalysisCache.ofGraph g with counts := s.cache.counts, held := s.cache.held, issued := s.cache.issued } := by
  unfold AnalysisCache.refresh Record.refreshed
  rw [h.isLocked_eq, h.method]
  cases AnalysisKind.all.find? r.isHeld with
  | some kind => exact .inl ⟨_, rfl, rfl⟩
  | none =>
    cases FlowGraph.ofOutline r.method with
    | error e => exact .inl ⟨_, rfl, rfl⟩
    | ok g => exact .inr ⟨g, rfl, rfl, rfl⟩

/-- **What a step does**: it gets the answer that the record expects, and the record keeps up with it. -/
theorem step (h : Keeps r s) (step : CacheStep) : r.Expects step (s.step step).1 ∧
    Keeps (r.note (step, (s.step step).1)) (s.step step).2 := by
  cases step with
  | edit o => exact ⟨rfl, rfl, h.graph, h.current, h.counts, h.held, h.issued⟩
  | ask kind =>
    obtain ⟨hanswer, hcurrent, hlike⟩ := AnalysisCache.ask_spec h.current kind
    refine ⟨⟨.ofGraph s.cache.graph, ?_, congrArg CacheAnswer.analysis hanswer⟩, h.method, ?_, hcurrent,
      h.counts.like hlike, hlike.held.trans h.held, hlike.issued.trans h.issued⟩
    · rw [AnalysisCache.ofOutline, h.graph]
      rfl
    · exact h.graph.trans (congrArg Except.ok hlike.graph.symm)
  | lock kinds =>
    refine ⟨congrArg CacheAnswer.lock h.issued, h.method, h.graph, h.current.relock _ _ _, h.counts.lock kinds, ?_, ?_⟩
    · exact congrArg (· ++ [(s.cache.issued, kinds)]) h.held
    · exact congrArg (· + 1) h.issued
  | unlock n =>
    obtain ⟨hanswer, hheld⟩ := s.cache.unlock_held n
    rw [h.held] at hanswer hheld
    refine ⟨congrArg CacheAnswer.unlocked hanswer, ?_⟩
    have hcounts := h.counts.unlock n
    rcases s.cache.unlock_cases n with ⟨-, heq⟩ | ⟨kinds, -, heq⟩
    all_goals
      rw [heq] at hheld hcounts
      simp only [Session.step, Record.note, heq]
      exact ⟨h.method, h.graph, h.current.relock _ _ _, hcounts, hheld, h.issued⟩
  | isLocked kind => exact ⟨⟨_, rfl, h.isLocked_iff kind⟩, h⟩
  | refresh =>
    rcases h.refresh_cases with ⟨e, hexpected, hrefresh⟩ | ⟨g, hexpected, hg, hrefresh⟩
    · simp only [Session.step, hrefresh, Record.note]
      exact ⟨congrArg CacheAnswer.refreshed hexpected.symm, h⟩
    · simp only [Session.step, hrefresh, Record.note]
      exact ⟨congrArg CacheAnswer.refreshed hexpected.symm, h.method, hg, (AnalysisCache.current_ofGraph g).relock _ _ _,
        ⟨h.counts.counts, h.counts.nodup, h.counts.lt_issued⟩, h.held, h.issued⟩

end Keeps

namespace Session

theorem keeps_run : ∀ (steps : List CacheStep) {r : Record} {s : Session}, Keeps r s →
    Keeps ((s.run steps).1.foldl Record.note r) (s.run steps).2
  | [], _, _, h => h
  | step :: rest, _, _, h => keeps_run rest (h.step step).2

theorem run_append : ∀ (a b : List CacheStep) (s : Session),
    s.run (a ++ b) = ((s.run a).1 ++ ((s.run a).2.run b).1, ((s.run a).2.run b).2)
  | [], _, _ => rfl
  | step :: a, b, s => by
    simp only [List.cons_append, run, run_append a b]

theorem map_fst_run : ∀ (steps : List CacheStep) (s : Session), (s.run steps).1.map (·.1) = steps
  | [], _ => rfl
  | step :: rest, s => congrArg (step :: ·) (map_fst_run rest (s.step step).2)

/-- A run is what its parts are. -/
theorem run_split {s : Session} {steps : List CacheStep} {front back : List (CacheStep × CacheAnswer)} {step : CacheStep}
    {answer : CacheAnswer} (h : (s.run steps).1 = front ++ (step, answer) :: back) :
    steps = front.map (·.1) ++ step :: back.map (·.1) ∧ (s.run (front.map (·.1))).1 = front ∧
      ((s.run (front.map (·.1))).2.step step).1 = answer ∧
      ((s.run (front.map (·.1))).2.step step).2.run (back.map (·.1)) = (back, (s.run steps).2) := by
  have hsteps : steps = front.map (·.1) ++ step :: back.map (·.1) := by
    rw [← map_fst_run steps s, h]
    simp
  rw [hsteps, run_append] at h
  have hlength : (s.run (front.map (·.1))).1.length = front.length := by
    rw [← List.length_map (·.1), map_fst_run, List.length_map]
  obtain ⟨hfront, hrest⟩ := List.append_inj h hlength
  obtain ⟨hstep, hback⟩ := List.cons.inj hrest
  refine ⟨hsteps, hfront, (Prod.mk.inj hstep).2, ?_⟩
  rw [hsteps, run_append]
  exact Prod.ext hback rfl

/-- **A cache never answers with something stale or mixed.**  Whatever was done before, a step gets the answer that the
record expects: a request that of a fresh cache over the method as it was when the cache was made or last refreshed, a
question about a lock that of the locks held, a refresh the first kind locked or what is wrong with the method.  And a
refused refresh leaves no trace in what follows. -/
theorem answers_never_stale (o : Outline) (s : Session) (hstart : start o = .ok s) (steps : List CacheStep)
    (front back : List (CacheStep × CacheAnswer)) (step : CacheStep) (answer : CacheAnswer)
    (hrun : (s.run steps).1 = front ++ (step, answer) :: back) :
    steps = front.map (·.1) ++ step :: back.map (·.1) ∧ (Record.of o front).Expects step answer ∧
      ∀ e, answer = .refreshed (.error e) →
        s.run (front.map (·.1) ++ back.map (·.1)) = (front ++ back, (s.run steps).2) := by
  obtain ⟨hsteps, hfront, hanswer, hback⟩ := run_split hrun
  have hkeeps := keeps_run (front.map (·.1)) (keeps_start hstart)
  rw [hfront] at hkeeps
  obtain ⟨hexpects, -⟩ := hkeeps.step step
  refine ⟨hsteps, hanswer ▸ hexpects, fun e he => ?_⟩
  -- a refresh that is refused leaves the session as it was
  have hsame : ((s.run (front.map (·.1))).2.step step).2 = (s.run (front.map (·.1))).2 := by
    rw [he] at hanswer
    cases step with
    | edit | ask | lock | unlock | isLocked => cases hanswer
    | refresh =>
      rcases hkeeps.refresh_cases with ⟨e', -, hrefresh⟩ | ⟨g, -, -, hrefresh⟩
      · simp only [Session.step, hrefresh]
      · simp only [Session.step, hrefresh] at hanswer
        cases hanswer
  rw [hsame] at hback
  rw [run_append, hfront, hback]

/-- Two blocks that follow each other. -/
def ring : Outline := ⟨0, [⟨[1], false, false, false, [0]⟩, ⟨[0], false, false, false, [1]⟩]⟩

/-- A lock that lists a kind twice, an edit under it, and a refresh that is refused until the lock is given back. -/
def editUnderLock : List CacheStep :=
  [.ask .naturalLoops, .lock [.dominance, .dominance], .edit { ring with entry := 1 }, .refresh, .ask .dominance,
    .unlock 0, .isLocked .dominance, .refresh, .ask .dominance]

theorem answers_never_stale_editUnderLock : ∃ s front back, start ring = .ok s ∧
    (s.run editUnderLock).1 = front ++ (.refresh, .refreshed (.error (.locked .dominance))) :: back ∧
    (Record.of ring front).Expects .refresh (.refreshed (.error (.locked .dominance))) ∧
    s.run (front.map (·.1) ++ back.map (·.1)) = (front ++ back, (s.run editUnderLock).2) := by
  obtain ⟨s, hs⟩ : ∃ s, start ring = .ok s := ⟨_, rfl⟩
  have hrun : (s.run editUnderLock).1 = (s.run (editUnderLock.take 3)).1 ++
      (.refresh, .refreshed (.error (.locked .dominance))) ::
        (((s.run (editUnderLock.take 3)).2.step .refresh).2.run (editUnderLock.drop 4)).1 := by
    cases hs
    rfl
  obtain ⟨-, hexpects, htrace⟩ := answers_never_stale ring s hs editUnderLock _ _ _ _ hrun
  exact ⟨s, _, _, hs, hrun, hexpects, htrace _ rfl⟩

end Session

end CodeImage
