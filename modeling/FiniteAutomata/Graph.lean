import FiniteAutomata.Multigraph

/-! Directed multigraphs. A graph is the stored form of one in which every edge is kept at the
vertex where it begins, which all operations keep true. So a graph is known from its rows: the
vertices in ascending order, each with its outgoing edges as they look from there. -/
namespace FiniteAutomata

/-- An outgoing edge as its source sees it. -/
structure Arrow (V W : Type) where
  target : V
  weight : W
  deriving DecidableEq, Repr

/-- The same edge with its target renamed. -/
def Arrow.rename {U V W : Type} (f : V → U) (a : Arrow V W) : Arrow U W := ⟨f a.target, a.weight⟩

/-- What the source of an edge sees of it. -/
def Edge.arrow {V W : Type} (e : Edge V W) : Arrow V W := ⟨e.target, e.weight⟩

namespace Multigraph

variable {V W : Type} [Ord V]

/-- Every edge is kept at the vertex where it begins. -/
def Sourced (m : Multigraph V W) : Prop :=
  ∀ row ∈ m.adjacency.entries, ∀ e ∈ row.2, e.source = row.1

theorem sourced_empty : (∅ : Multigraph V W).Sourced := fun _ h => nomatch h

section Preservation

variable [DecidableEq V]

theorem Sourced.remove {m : Multigraph V W} (h : m.Sourced) (v : V) : (m.remove v).Sourced :=
  fun row hRow => h row (List.mem_filter.mp hRow).1

variable [Std.TransOrd V]

theorem sourced_iff {m : Multigraph V W} :
    m.Sourced ↔ ∀ v l, m.edges? v = some l → ∀ e ∈ l, e.source = v :=
  ⟨fun h v l hl => h (v, l) (SortedMap.mem_entries_iff.mpr hl),
    fun h row hRow => h row.1 row.2 (SortedMap.mem_entries_iff.mp hRow)⟩

theorem Sourced.source_eq {m : Multigraph V W} (h : m.Sourced) {v : V} {e : Edge V W}
    (he : e ∈ m.edgesOf v) : e.source = v := by
  rw [edgesOf] at he
  cases hl : m.edges? v with
  | none =>
    rw [hl] at he
    cases he
  | some l =>
    rw [hl] at he
    exact sourced_iff.mp h v l hl e he

variable [Std.LawfulEqOrd V]

theorem Sourced.enter {m : Multigraph V W} (h : m.Sourced) (v : V) : (m.enter v).2.Sourced := by
  refine sourced_iff.mpr fun u l hl e he => ?_
  rw [edges?_enter] at hl
  split at hl
  next hEq =>
    cases hl
    rw [hEq]
    exact h.source_eq he
  next => exact sourced_iff.mp h u l hl e he

theorem Sourced.addEdge {m : Multigraph V W} (h : m.Sourced) (source target : V) (weight : W) :
    (m.addEdge source target weight).Sourced := by
  refine sourced_iff.mpr fun u l hl e he => ?_
  rw [edges?_addEdge] at hl
  split at hl
  next hEq =>
    cases hl
    rw [hEq]
    rcases List.mem_append.mp he with hOld | hNew
    · exact h.source_eq hOld
    · rw [List.mem_singleton.mp hNew]
  next =>
    split at hl
    next hEq =>
      cases hl
      rw [hEq]
      exact h.source_eq he
    next => exact sourced_iff.mp h u l hl e he

theorem Sourced.absorb {m n : Multigraph V W} (hm : m.Sourced) (hn : n.Sourced) :
    (m.absorb n).Sourced := by
  refine sourced_iff.mpr fun u l hl e he => ?_
  rw [edges?_absorb, Option.or_eq_some_iff] at hl
  rcases hl with hl | ⟨-, hl⟩
  · exact sourced_iff.mp hn u l hl e he
  · exact sourced_iff.mp hm u l hl e he

end Preservation

end Multigraph

/-- A directed multigraph, kept as the outgoing edges of each vertex. -/
structure Graph (V W : Type) [Ord V] extends Multigraph V W where
  sourced : toMultigraph.Sourced
  deriving DecidableEq

namespace Graph

variable {V W : Type} [Ord V]

instance [Repr V] [Repr W] : Repr (Graph V W) := ⟨fun g n => reprPrec g.toMultigraph n⟩

/-- The graph without vertices. -/
def empty : Graph V W := ⟨∅, Multigraph.sourced_empty⟩

instance : EmptyCollection (Graph V W) := ⟨empty⟩

instance : Inhabited (Graph V W) := ⟨empty⟩

/-- The vertices in ascending order, each with its outgoing edges. -/
def rows (g : Graph V W) : List (V × List (Arrow V W)) :=
  g.adjacency.entries.map fun row => (row.1, row.2.map Edge.arrow)

/-- The target of every edge, in the order of the rows. -/
def targets (g : Graph V W) : List V := g.rows.flatMap fun row => row.2.map Arrow.target

/-- The edges of a row, each with its source. -/
def edgesFrom (v : V) (arrows : List (Arrow V W)) : List (Edge V W) :=
  arrows.map fun a => ⟨v, a.target, a.weight⟩

section Lookup

variable [DecidableEq V]

instance : Membership V (Graph V W) := ⟨fun g v => v ∈ g.toMultigraph⟩

instance (v : V) (g : Graph V W) : Decidable (v ∈ g) :=
  inferInstanceAs (Decidable (v ∈ g.toMultigraph))

/-- The outgoing edges of `v` as it sees them, if `v` is a vertex. -/
def arrows? (g : Graph V W) (v : V) : Option (List (Arrow V W)) :=
  (g.edges? v).map (List.map Edge.arrow)

/-- The outgoing edges of `v`; a place that is no vertex has none. -/
def arrows (g : Graph V W) (v : V) : List (Arrow V W) := (g.arrows? v).getD []

/-- Drop a vertex with its outgoing edges. Edges that point at it stay. -/
def remove (g : Graph V W) (v : V) : Graph V W := ⟨g.toMultigraph.remove v, g.sourced.remove v⟩

/-- The outgoing edges that `remove` drops, if `v` is a vertex at all. -/
def removed? (g : Graph V W) (v : V) : Option (List (Edge V W)) := g.edges? v

end Lookup

section Growth

variable [DecidableEq V] [Std.TransOrd V] [Std.LawfulEqOrd V]

/-- Add a vertex without edges and say whether it is new; a vertex that is there already stays
as it is. -/
def enter (g : Graph V W) (v : V) : Bool × Graph V W :=
  ((g.toMultigraph.enter v).1, ⟨(g.toMultigraph.enter v).2, g.sourced.enter v⟩)

/-- Add a vertex without edges. -/
def addVertex (g : Graph V W) (v : V) : Graph V W := (g.enter v).2

/-- Add an edge behind the outgoing edges of its source. Both ends become
vertices. -/
def addEdge (g : Graph V W) (source target : V) (weight : W) : Graph V W :=
  ⟨g.toMultigraph.addEdge source target weight, g.sourced.addEdge source target weight⟩

/-- Add edges with a common source one after another. -/
def addArrows (g : Graph V W) (source : V) (arrows : List (Arrow V W)) : Graph V W :=
  arrows.foldl (fun g a => g.addEdge source a.target a.weight) g

/-- Take over every vertex of `h` with its outgoing edges. A vertex of both
graphs keeps only the edges it has in `h`. -/
def absorb (g h : Graph V W) : Graph V W :=
  ⟨g.toMultigraph.absorb h.toMultigraph, g.sourced.absorb h.sourced⟩

end Growth

/-- The graph on the numbers below `n` whose vertex `i` has the edges `arrows i`. -/
def tabulate (n : Nat) (arrows : Nat → List (Arrow Nat W)) : Graph Nat W where
  adjacency := SortedMap.tabulate n fun i => edgesFrom i (arrows i)
  sourced row hRow e he := by
    obtain ⟨i, -, rfl⟩ := List.mem_map.mp hRow
    obtain ⟨a, -, rfl⟩ := List.mem_map.mp he
    rfl

section Laws

omit [Ord V] in
@[simp]
theorem map_arrow_edgesFrom (v : V) (l : List (Arrow V W)) :
    (edgesFrom v l).map Edge.arrow = l := by
  rw [edgesFrom, List.map_map]
  exact List.map_id _

omit [Ord V] in
theorem edgesFrom_map_arrow {v : V} {l : List (Edge V W)} (h : ∀ e ∈ l, e.source = v) :
    edgesFrom v (l.map Edge.arrow) = l := by
  rw [edgesFrom, List.map_map]
  refine (List.map_congr_left fun e he => ?_).trans (List.map_id _)
  rw [← h e he]
  rfl

/-- What is stored are the rows. -/
theorem entries_eq (g : Graph V W) :
    g.adjacency.entries = g.rows.map fun row => (row.1, edgesFrom row.1 row.2) := by
  rw [rows, List.map_map]
  refine ((List.map_congr_left fun row hRow => ?_).trans (List.map_id _)).symm
  exact Prod.ext rfl (edgesFrom_map_arrow (g.sourced row hRow))

theorem vertices_eq (g : Graph V W) : g.vertices = g.rows.map Prod.fst := by
  rw [rows, List.map_map]
  rfl

theorem edges_eq (g : Graph V W) :
    g.edges = g.rows.flatMap fun row => edgesFrom row.1 row.2 := by
  rw [Multigraph.edges, entries_eq, List.flatMap_map]

variable [DecidableEq V]

theorem mem_iff {g : Graph V W} {v : V} : v ∈ g ↔ (g.arrows? v).isSome := by
  rw [arrows?, Option.isSome_map]
  rfl

theorem mem_vertices {g : Graph V W} {v : V} : v ∈ g.vertices ↔ v ∈ g :=
  SortedMap.mem_keys_iff

omit [Ord V] [DecidableEq V] in
theorem arrows?_tabulate (n : Nat) (arrows : Nat → List (Arrow Nat W)) (i : Nat) :
    (tabulate n arrows).arrows? i = if i < n then some (arrows i) else none := by
  have hEdges : (tabulate n arrows).edges? i =
      if i < n then some (edgesFrom i (arrows i)) else none := SortedMap.get?_tabulate ..
  rw [arrows?, hEdges]
  split
  next => exact congrArg some (map_arrow_edgesFrom i (arrows i))
  next => rfl

theorem arrows?_remove (g : Graph V W) (v u : V) :
    (g.remove v).arrows? u = if u = v then none else g.arrows? u := by
  rw [arrows?, remove, Multigraph.edges?_remove]
  split <;> rfl

/-- What a place sees of its edges. -/
theorem map_arrow_edgesOf (g : Graph V W) (v : V) : (g.edgesOf v).map Edge.arrow = g.arrows v := by
  rw [Multigraph.edgesOf, arrows, arrows?]
  cases g.edges? v <;> rfl

variable [Std.TransOrd V]

theorem edges?_eq (g : Graph V W) (v : V) : g.edges? v = (g.arrows? v).map (edgesFrom v) := by
  rw [arrows?, Option.map_map]
  cases hl : g.edges? v with
  | none => rfl
  | some l =>
    exact congrArg some (edgesFrom_map_arrow (Multigraph.sourced_iff.mp g.sourced v l hl)).symm

theorem edgesOf_eq (g : Graph V W) (v : V) : g.edgesOf v = edgesFrom v (g.arrows v) := by
  rw [← map_arrow_edgesOf, edgesFrom_map_arrow fun e he => g.sourced.source_eq he]

theorem mem_rows_iff {g : Graph V W} {v : V} {l : List (Arrow V W)} :
    (v, l) ∈ g.rows ↔ g.arrows? v = some l := by
  rw [rows, List.mem_map, arrows?, Option.map_eq_some_iff]
  constructor
  · rintro ⟨⟨u, m⟩, hRow, hEq⟩
    cases hEq
    exact ⟨m, SortedMap.mem_entries_iff.mp hRow, rfl⟩
  · rintro ⟨m, hm, rfl⟩
    exact ⟨(v, m), SortedMap.mem_entries_iff.mpr hm, rfl⟩

/-- The rows determine the graph. -/
theorem ext {g h : Graph V W} (hRows : ∀ v, g.arrows? v = h.arrows? v) : g = h := by
  have hEdges : ∀ v, g.edges? v = h.edges? v := fun v => by rw [edges?_eq, edges?_eq, hRows]
  cases g
  cases h
  congr
  exact congrArg Multigraph.mk (SortedMap.ext hEdges)

theorem target_mem_targets {g : Graph V W} {v : V} {l : List (Arrow V W)} {a : Arrow V W}
    (hRow : g.arrows? v = some l) (hArrow : a ∈ l) : a.target ∈ g.targets :=
  List.mem_flatMap.mpr ⟨(v, l), mem_rows_iff.mpr hRow, List.mem_map_of_mem hArrow⟩

variable [Std.LawfulEqOrd V]

theorem arrows?_addVertex (g : Graph V W) (v u : V) :
    (g.addVertex v).arrows? u = if u = v then some (g.arrows v) else g.arrows? u := by
  rw [arrows?, addVertex, enter, Multigraph.edges?_enter]
  split
  next => exact congrArg some (map_arrow_edgesOf g v)
  next => rfl

theorem arrows_addVertex (g : Graph V W) (v u : V) : (g.addVertex v).arrows u = g.arrows u := by
  unfold arrows
  rw [arrows?_addVertex]
  split
  next h => subst h; rfl
  next => rfl

theorem arrows?_addEdge (g : Graph V W) (source target v : V) (weight : W) :
    (g.addEdge source target weight).arrows? v =
      if v = source then some (g.arrows source ++ [⟨target, weight⟩])
      else if v = target then some (g.arrows target) else g.arrows? v := by
  rw [arrows?, addEdge, Multigraph.edges?_addEdge]
  split
  next =>
    rw [Option.map_some, List.map_append, map_arrow_edgesOf]
    rfl
  next =>
    split
    next => exact congrArg some (map_arrow_edgesOf g target)
    next => rfl

theorem arrows?_absorb (g h : Graph V W) (v : V) :
    (g.absorb h).arrows? v = (h.arrows? v).or (g.arrows? v) := by
  rw [arrows?, absorb, Multigraph.edges?_absorb, arrows?, arrows?]
  cases h.edges? v <;> rfl

end Laws

end Graph

end FiniteAutomata
