import FiniteAutomata.Dfa.Basic
import FiniteAutomata.Proofs.Graph
import Mathlib.Data.List.Nodup

/-! Deterministic automata as relations. The rows of a well-formed automaton are
ascending in the symbol, so its edges say which state follows which, and the edges
determine the rows. -/
namespace FiniteAutomata.Dfa

variable {σ : Type} [Symbol σ]

/-- The states are the numbers below the size, listed in ascending order, there is at least
one, every edge leads to a state, and no two edges of a row read the same symbol. -/
structure WellFormed (d : Dfa σ) : Prop where
  ids : d.entries.map DfaState.id = List.range d.size
  size_pos : 0 < d.size
  mem_graph : ∀ s : State, s ∈ d.graph ↔ s < d.size
  target_lt : ∀ s a t, d.graph.Joins s a t → t < d.size
  symbol_mem : ∀ s a t, d.graph.Joins s a t → a ∈ d.alphabet
  ascending : ∀ s, (d.graph.arrows s).Pairwise fun b c => compare b.weight c.weight = .lt
  accepting_lt : ∀ s ∈ d.accepting, s < d.size

namespace WellFormed

variable {d e : Dfa σ}

theorem lt_size_of_joins (wf : d.WellFormed) {s t : State} {a : σ} (h : d.graph.Joins s a t) :
    s < d.size :=
  (wf.mem_graph s).mp (Graph.mem_of_joins h)

/-- What is listed behind a number is the set of the state with that number. -/
theorem getElem?_numberedStates (wf : d.WellFormed) (i : Nat) :
    d.numberedStates[i]? = (d.members? i).map fun members => (i, members) := by
  have hId : (d.entries.map DfaState.id)[i]? = if i < d.size then some i else none := by
    rw [wf.ids]
    split
    next hLt => exact List.getElem?_range hLt
    next hGe => exact List.getElem?_eq_none (by simpa using hGe)
  rw [numberedStates, members?, states, List.getElem?_map, List.getElem?_map, Option.map_map]
  rw [List.getElem?_map] at hId
  cases hEntry : d.entries[i]? with
  | none => rfl
  | some s =>
    rw [hEntry, Option.map_some] at hId
    split at hId
    next => exact congrArg (fun j => some (j, s.members)) (Option.some.inj hId)
    next => exact nomatch hId

theorem mem_numberedStates_iff (wf : d.WellFormed) {s : State} {members : StateSet} :
    (s, members) ∈ d.numberedStates ↔ d.members? s = some members := by
  rw [List.mem_iff_getElem?]
  simp only [wf.getElem?_numberedStates, Option.map_eq_some_iff, Prod.mk.injEq]
  constructor
  · rintro ⟨i, m, hm, rfl, rfl⟩
    exact hm
  · intro h
    exact ⟨s, members, h, rfl, rfl⟩

theorem nodup_symbols (wf : d.WellFormed) (s : State) :
    ((d.graph.arrows s).map Arrow.weight).Nodup := by
  refine List.pairwise_map.mpr ((wf.ascending s).imp fun {b c} hLt hEq => ?_)
  rw [show b.weight = c.weight from hEq] at hLt
  exact nomatch hLt.symm.trans Std.ReflCmp.compare_self

/-- A state has at most one edge that reads a symbol. -/
theorem joins_unique (wf : d.WellFormed) {s t u : State} {a : σ} (ht : d.graph.Joins s a t)
    (hu : d.graph.Joins s a u) : t = u := by
  have hEq : (⟨t, a⟩ : Arrow State σ) = ⟨u, a⟩ :=
    List.inj_on_of_nodup_map (wf.nodup_symbols s) ht hu rfl
  cases hEq
  rfl

theorem transition_eq_some_iff (wf : d.WellFormed) {s t : State} {a : σ} :
    d.transition s a = some t ↔ d.graph.Joins s a t := by
  rw [transition, Option.map_eq_some_iff]
  constructor
  · intro hSome
    obtain ⟨b, hb, rfl⟩ := hSome
    have hWeight := List.find?_some hb
    rw [beq_iff_eq] at hWeight
    rw [Graph.Joins, ← hWeight]
    exact List.mem_of_find?_eq_some hb
  · intro h
    have hSome : ((d.graph.arrows s).find? fun b => b.weight == a).isSome :=
      List.find?_isSome.mpr ⟨⟨t, a⟩, h, beq_self_eq_true a⟩
    obtain ⟨b, hb⟩ := Option.isSome_iff_exists.mp hSome
    have hWeight := List.find?_some hb
    rw [beq_iff_eq] at hWeight
    have hOther : d.graph.Joins s a b.target := by
      rw [Graph.Joins, ← hWeight]
      exact List.mem_of_find?_eq_some hb
    exact ⟨b, hb, wf.joins_unique hOther h⟩

theorem transition_eq_none_iff (wf : d.WellFormed) {s : State} {a : σ} :
    d.transition s a = none ↔ ∀ t, ¬ d.graph.Joins s a t := by
  rw [Option.eq_none_iff_forall_not_mem]
  exact forall_congr' fun t => not_congr wf.transition_eq_some_iff

/-- The edges determine the rows. -/
theorem arrows_eq (hd : d.WellFormed) (he : e.WellFormed) {s : State}
    (h : ∀ a t, d.graph.Joins s a t ↔ e.graph.Joins s a t) :
    d.graph.arrows s = e.graph.arrows s := by
  have hPerm : (d.graph.arrows s).Perm (e.graph.arrows s) :=
    (List.perm_ext_iff_of_nodup (hd.nodup_symbols s).of_map (he.nodup_symbols s).of_map).mpr
      fun b => h b.weight b.target
  refine hPerm.eq_of_pairwise (fun b c _ _ hbc hcb => ?_) (hd.ascending s) (he.ascending s)
  rw [Std.OrientedCmp.gt_iff_lt.mpr hcb] at hbc
  cases hbc

/-- The size and the edges determine the graph. -/
theorem graph_eq (hd : d.WellFormed) (he : e.WellFormed) (hSize : d.size = e.size)
    (h : ∀ s a t, d.graph.Joins s a t ↔ e.graph.Joins s a t) : d.graph = e.graph := by
  apply Graph.ext
  intro s
  have hRows := hd.arrows_eq he (h s)
  by_cases hs : s < d.size
  · rw [Graph.arrows?_of_mem ((hd.mem_graph s).mpr hs),
      Graph.arrows?_of_mem ((he.mem_graph s).mpr (hSize ▸ hs)), hRows]
  · rw [Graph.arrows?_of_not_mem (fun hMem => hs ((hd.mem_graph s).mp hMem)),
      Graph.arrows?_of_not_mem (fun hMem => hs (hSize ▸ (he.mem_graph s).mp hMem))]

end WellFormed

section Runs

variable (d : Dfa σ)

theorem runFrom_cons (s : State) (a : σ) (word : List σ) :
    d.runFrom s (a :: word) = (d.transition s a).bind fun t => d.runFrom t word := rfl

theorem runFrom_append (s : State) (v w : List σ) :
    d.runFrom s (v ++ w) = (d.runFrom s v).bind fun t => d.runFrom t w := List.foldlM_append

theorem runFrom_append_singleton (s : State) (word : List σ) (a : σ) :
    d.runFrom s (word ++ [a]) = (d.runFrom s word).bind fun t => d.transition t a := by
  rw [runFrom_append]
  refine congrArg (Option.bind _) (funext fun t => ?_)
  rw [runFrom_cons]
  exact Option.bind_fun_some _

theorem acceptsFrom_nil (s : State) : d.acceptsFrom s [] = d.isAccepting s := rfl

theorem acceptsFrom_cons (s : State) (a : σ) (word : List σ) :
    d.acceptsFrom s (a :: word) = (d.transition s a).any fun t => d.acceptsFrom t word := by
  rw [acceptsFrom, runFrom_cons]
  cases d.transition s a <;> rfl

theorem acceptsFrom_append {s t : State} {v : List σ} (h : d.runFrom s v = some t) (w : List σ) :
    d.acceptsFrom s (v ++ w) = d.acceptsFrom t w := by
  rw [acceptsFrom, runFrom_append, h]
  rfl

/-- What is accepted depends on the edges and the accepting states alone. -/
theorem accepts_eq_of_graph_eq {d e : Dfa σ} (hAccepting : d.accepting = e.accepting)
    (hGraph : d.graph = e.graph) : d.accepts = e.accepts := by
  have hNext : d.transition = e.transition := by
    funext s a
    rw [transition, transition, hGraph]
  funext word
  unfold accepts acceptsFrom runFrom isAccepting
  rw [hNext, hAccepting]
  rfl

/-- Some word is accepted from the state on. -/
def Alive (s : State) : Prop := ∃ word, d.acceptsFrom s word = true

variable {d}

theorem alive_iff {s : State} :
    d.Alive s ↔ ∃ word t, d.runFrom s word = some t ∧ t ∈ d.accepting := by
  apply exists_congr
  intro word
  rw [acceptsFrom]
  cases d.runFrom s word with
  | none => simp
  | some t => simp [isAccepting]

theorem Alive.of_transition {s t : State} {a : σ} (hEdge : d.transition s a = some t)
    (ht : d.Alive t) : d.Alive s := by
  obtain ⟨word, hWord⟩ := ht
  refine ⟨a :: word, ?_⟩
  rw [acceptsFrom_cons, hEdge]
  exact hWord

/-- What is accepted after reading a symbol depends on what is accepted before. -/
theorem acceptsFrom_eq_of_transition {e : Dfa σ} {s t s' t' : State} {a : σ}
    (hEq : d.acceptsFrom s = e.acceptsFrom t) (hs : d.transition s a = some s')
    (ht : e.transition t a = some t') : d.acceptsFrom s' = e.acceptsFrom t' := by
  funext word
  have hLonger := congrFun hEq (a :: word)
  rw [acceptsFrom_cons, acceptsFrom_cons, hs, ht] at hLonger
  exact hLonger

/-- A state that accepts the same as one from which a symbol leads on to an accepted
word can read the symbol, too. -/
theorem exists_transition_of_acceptsFrom_eq {e : Dfa σ} {s t s' : State} {a : σ}
    (hEq : d.acceptsFrom s = e.acceptsFrom t) (hs : d.transition s a = some s')
    (hAlive : d.Alive s') :
    ∃ t', e.transition t a = some t' ∧ d.acceptsFrom s' = e.acceptsFrom t' := by
  obtain ⟨word, hWord⟩ := hAlive
  have hLonger := congrFun hEq (a :: word)
  rw [acceptsFrom_cons, acceptsFrom_cons, hs, Option.any_some, hWord] at hLonger
  cases ht : e.transition t a with
  | none =>
      rw [ht] at hLonger
      cases hLonger
  | some t' => exact ⟨t', rfl, acceptsFrom_eq_of_transition hEq hs ht⟩

end Runs

end FiniteAutomata.Dfa
