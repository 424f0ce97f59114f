import FiniteAutomata.Proofs.Fragment.Rename

/-! Moving fragments to other numbers. Adding a constant to all states keeps the order of
the vertices and of the edges, so it makes no difference whether fragments are moved before
they are combined or afterwards. -/
namespace FiniteAutomata

variable {σ : Type} [Symbol σ]

/-- How far things are moved: the numbers of sessions and those of states. -/
structure Offset where
  session : Nat
  state : Nat

/-- The session with its number and its counter moved. -/
def Session.relocate (r : Offset) (t : Session) : Session := ⟨t.id + r.session, t.next + r.state⟩

/-- The failure with the states in it moved. -/
def Fault.relocate {σ : Type} (r : Offset) : Fault σ → Fault σ
  | unknownState s => unknownState (s + r.state)
  | danglingEdge source target => danglingEdge (source + r.state) (target + r.state)
  | undeclaredSymbol source target a =>
    undeclaredSymbol (source + r.state) (target + r.state) a
  | sharedState s => sharedState (s + r.state)
  | fault => fault

namespace Graph

variable {W : Type}

/-- The edge with its target moved. -/
def shiftArrow (k : Nat) (a : Arrow State W) : Arrow State W := a.rename (· + k)

/-- The edge with both ends moved. -/
def shiftEdge (k : Nat) (e : Edge State W) : Edge State W :=
  ⟨e.source + k, e.target + k, e.weight⟩

/-- The graph with a constant added to all places. -/
def shift (k : Nat) (g : Graph State W) : Graph State W where
  adjacency := {
    entries := g.adjacency.entries.map fun row => (row.1 + k, row.2.map (shiftEdge k))
    sorted := List.pairwise_map.mpr (g.adjacency.sorted.imp fun hLt =>
      Nat.compare_eq_lt.mpr (Nat.add_lt_add_right (Nat.compare_eq_lt.mp hLt) k)) }
  sourced row hRow e he := by
    obtain ⟨old, hOld, rfl⟩ := List.mem_map.mp hRow
    obtain ⟨f, hf, rfl⟩ := List.mem_map.mp he
    exact congrArg (· + k) (g.sourced old hOld f hf)

section Rows

variable (k : Nat) (g : Graph State W)

theorem rows_shift :
    (g.shift k).rows = g.rows.map fun row => (row.1 + k, row.2.map (shiftArrow k)) := by
  simp only [rows, shift, List.map_map]
  apply List.map_congr_left
  intro row _
  rw [Function.comp_apply, Function.comp_apply, List.map_map, List.map_map]
  rfl

theorem vertices_shift : (g.shift k).vertices = g.vertices.map (· + k) := by
  rw [vertices_eq, vertices_eq, rows_shift, List.map_map, List.map_map]
  rfl

@[simp]
theorem arrows?_shift (v : State) :
    (g.shift k).arrows? (v + k) = (g.arrows? v).map (List.map (shiftArrow k)) := by
  ext l
  rw [← mem_rows_iff, rows_shift, List.mem_map, Option.map_eq_some_iff]
  constructor
  · rintro ⟨⟨u, old⟩, hRow, hEq⟩
    obtain ⟨hSource, rfl⟩ := Prod.mk.inj hEq
    obtain rfl := Nat.add_right_cancel hSource
    exact ⟨old, mem_rows_iff.mp hRow, rfl⟩
  · rintro ⟨old, hOld, rfl⟩
    exact ⟨(v, old), mem_rows_iff.mpr hOld, rfl⟩

theorem arrows?_shift_of_lt {v : State} (h : v < k) : (g.shift k).arrows? v = none := by
  apply arrows?_of_not_mem
  rw [← mem_vertices, vertices_shift, List.mem_map]
  rintro ⟨u, -, rfl⟩
  exact Nat.not_lt_of_le (Nat.le_add_left k u) h

@[simp]
theorem arrows_shift (v : State) :
    (g.shift k).arrows (v + k) = (g.arrows v).map (shiftArrow k) := by
  rw [arrows, arrows, arrows?_shift]
  cases g.arrows? v <;> rfl

@[simp]
theorem mem_shift {v : State} : v + k ∈ g.shift k ↔ v ∈ g := by
  rw [mem_iff, mem_iff, arrows?_shift, Option.isSome_map]

/-- A graph is the moved one if it has the moved rows and nothing below them. -/
theorem eq_shift {h : Graph State W} (hBelow : ∀ v < k, h.arrows? v = none)
    (hRows : ∀ v, h.arrows? (v + k) = (g.arrows? v).map (List.map (shiftArrow k))) :
    h = g.shift k := by
  apply Graph.ext
  intro v
  rcases Nat.lt_or_ge v k with hLt | hGe
  · rw [hBelow v hLt, arrows?_shift_of_lt k g hLt]
  · obtain ⟨u, rfl⟩ := Nat.exists_eq_add_of_le' hGe
    rw [hRows, arrows?_shift]

end Rows

section Growth

variable (k : Nat) (g : Graph State W)

@[simp]
theorem addVertex_shift (v : State) : (g.shift k).addVertex (v + k) = (g.addVertex v).shift k := by
  apply eq_shift
  · intro u hu
    have hNe : u ≠ v + k := by omega
    rw [arrows?_addVertex, if_neg hNe, arrows?_shift_of_lt k g hu]
  · intro u
    simp only [arrows?_addVertex, Nat.add_right_cancel_iff]
    split <;> simp

@[simp]
theorem addEdge_shift (source target : State) (w : W) :
    (g.shift k).addEdge (source + k) (target + k) w = (g.addEdge source target w).shift k := by
  apply eq_shift
  · intro u hu
    have hSource : u ≠ source + k := by omega
    have hTarget : u ≠ target + k := by omega
    rw [arrows?_addEdge, if_neg hSource, if_neg hTarget, arrows?_shift_of_lt k g hu]
  · intro u
    simp only [arrows?_addEdge, Nat.add_right_cancel_iff]
    split
    next => simp [shiftArrow, Arrow.rename]
    next => split <;> simp

@[simp]
theorem addArrows_shift (source : State) (l : List (Arrow State W)) :
    (g.shift k).addArrows (source + k) (l.map (shiftArrow k)) = (g.addArrows source l).shift k := by
  induction l generalizing g with
  | nil => rfl
  | cons a rest ih =>
      rw [List.map_cons, addArrows_cons, addArrows_cons, ← ih, ← addEdge_shift]
      rfl

@[simp]
theorem remove_shift (v : State) : (g.shift k).remove (v + k) = (g.remove v).shift k := by
  apply eq_shift
  · intro u hu
    rw [arrows?_remove, arrows?_shift_of_lt k g hu, ite_self]
  · intro u
    simp only [arrows?_remove, Nat.add_right_cancel_iff]
    split <;> simp

@[simp]
theorem absorb_shift (h : Graph State W) :
    (g.shift k).absorb (h.shift k) = (g.absorb h).shift k := by
  apply eq_shift
  · intro u hu
    rw [arrows?_absorb, arrows?_shift_of_lt k g hu, arrows?_shift_of_lt k h hu, Option.or_none]
  · intro u
    rw [arrows?_absorb, arrows?_absorb, arrows?_shift, arrows?_shift]
    cases h.arrows? u <;> rfl

end Growth

omit [Symbol σ] in
/-- Renaming a moved graph to moved names gives the moved renamed graph. -/
theorem addRenamed_shift (k : Nat) {f f' : State → State} (hNames : ∀ s, f' (s + k) = f s + k)
    (rows : List (State × List (Arrow State (Label σ)))) (g : Graph State (Label σ)) :
    addRenamed f' (rows.map fun row => (row.1 + k, row.2.map (shiftArrow k))) (g.shift k) =
      (addRenamed f rows g).shift k := by
  induction rows generalizing g with
  | nil => rfl
  | cons row rest ih =>
      have hTargets : (row.2.map (shiftArrow k)).map (Arrow.rename f') =
          (row.2.map (Arrow.rename f)).map (shiftArrow k) := by
        simp [shiftArrow, Arrow.rename, hNames]
      rw [List.map_cons, addRenamed, List.foldl_cons, hNames, hTargets, addVertex_shift,
        addArrows_shift]
      exact ih _

end Graph

namespace Fragment

/-- The fragment with its states and its session moved. -/
def relocate (r : Offset) (x : Fragment σ) : Fragment σ where
  session := x.session + r.session
  graph := x.graph.shift r.state
  start := x.start + r.state
  final := x.final + r.state
  alphabet := x.alphabet

/-- A result with everything in it moved. -/
def relocated {α β : Type} (r : Offset) (move : α → β) :
    Except (Fault σ) α → Except (Fault σ) β
  | .ok a => .ok (move a)
  | .error f => .error (f.relocate r)

omit [Symbol σ] in
theorem relocated_bind {α β γ δ : Type} {r : Offset} {move : α → β} {send : γ → δ}
    {e : Except (Fault σ) α} {f : α → Except (Fault σ) γ} {g : β → Except (Fault σ) δ}
    (h : ∀ a, g (move a) = relocated r send (f a)) :
    relocated r move e >>= g = relocated r send (e >>= f) := by
  cases e with
  | error fault => rfl
  | ok a => exact h a

/-- Dropping repetitions looks only at which items are equal. -/
theorem eraseDups_map {f : State → State} (hf : Function.Injective f) :
    (l : List State) → (l.map f).eraseDups = l.eraseDups.map f
  | [] => rfl
  | a :: rest => by
      have hSame : (fun b => !b == f a) ∘ f = fun b => !b == a := by
        funext b
        simp [hf.eq_iff]
      rw [List.map_cons, List.eraseDups_cons, List.eraseDups_cons, List.map_cons, List.filter_map,
        hSame, eraseDups_map hf]
termination_by l => l.length
decreasing_by
  exact Nat.lt_succ_of_le (List.length_filter_le ..)

theorem idxOf_map {f : State → State} (hf : Function.Injective f) (l : List State) (s : State) :
    (l.map f).idxOf (f s) = l.idxOf s := by
  have hSame : (fun t => t == f s) ∘ f = fun t => t == s := by
    funext t
    simp [hf.eq_iff]
  rw [List.idxOf, List.findIdx_map, hSame, List.idxOf]

section Combinators

variable (r : Offset) (x y : Fragment σ)

theorem relocate_ofEdge (session : Nat) (start final : State) (label : Label σ) :
    (ofEdge session start final label).relocate r =
      ofEdge (session + r.session) (start + r.state) (final + r.state) label := by
  rw [relocate, ofEdge, ← Graph.addEdge_shift]
  rfl

theorem closureBetween_relocate (start final : State) :
    (x.relocate r).closureBetween (start + r.state) (final + r.state) =
      (x.closureBetween start final).relocate r := by
  simp [closureBetween, relocate]

theorem unionBetween_relocate (start final : State) :
    (x.relocate r).unionBetween (y.relocate r) (start + r.state) (final + r.state) =
      (x.unionBetween y start final).relocate r := by
  simp [unionBetween, relocate]

/-- Whether fragments can be merged does not depend on where they are. -/
theorem merge_relocate :
    (x.relocate r).merge (y.relocate r) = relocated r (relocate r) (x.merge y) := by
  have hFind : ((y.relocate r).graph.vertices.find? fun s => decide (s ∈ (x.relocate r).graph)) =
      (y.graph.vertices.find? fun s => decide (s ∈ x.graph)).map (· + r.state) := by
    simp only [relocate, Graph.vertices_shift, List.find?_map, Function.comp_def, Graph.mem_shift]
  have hSession : (x.relocate r).session = (y.relocate r).session ↔ x.session = y.session :=
    Nat.add_right_cancel_iff
  rw [merge, merge, hFind]
  by_cases hSame : x.session = y.session
  · rw [if_neg (not_not.mpr (hSession.mpr hSame)), if_neg (not_not.mpr hSame)]
    cases y.graph.vertices.find? fun s => decide (s ∈ x.graph) with
    | some s => rfl
    | none => simp [relocated, relocate]
  · rw [if_pos (mt hSession.mp hSame), if_pos hSame]
    rfl

theorem concat_relocate :
    (x.relocate r).concat (y.relocate r) = relocated r (relocate r) (x.concat y) := by
  rw [concat, concat, merge_relocate]
  apply relocated_bind
  intro both
  simp [relocate, relocated, pure, Except.pure]

theorem mentioned_relocate : (x.relocate r).mentioned = x.mentioned.map (· + r.state) := by
  rw [mentioned, mentioned, ← eraseDups_map fun _ _ => Nat.add_right_cancel]
  simp [relocate, Graph.rows_shift, Graph.shiftArrow, Arrow.rename, List.map_flatMap,
    List.flatMap_map, Function.comp_def]

theorem rename_relocate {f f' : State → State} (hNames : ∀ s, f' (s + r.state) = f s + r.state) :
    (x.relocate r).rename f' = (x.rename f).relocate r := by
  have hGraph := Graph.addRenamed_shift r.state hNames x.graph.rows ∅
  rw [← Graph.rows_shift] at hGraph
  have hStart := hNames x.start
  have hFinal := hNames x.final
  simp only [rename, relocate, hStart, hFinal, Fragment.mk.injEq, true_and, and_true]
  exact hGraph

end Combinators

end Fragment

end FiniteAutomata
