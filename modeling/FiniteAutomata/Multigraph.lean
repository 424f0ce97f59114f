import FiniteAutomata.Ordered.Map

/-! Directed multigraphs with weighted edges, as they are stored: for each vertex, in
ascending order, its outgoing edges in the order they were added, each with both of its ends.
Parallel edges are kept, and removing a vertex leaves the edges that point at it alone, so
edges may lead to places that are no longer vertices. -/
namespace FiniteAutomata

/-- An edge with both ends. -/
structure Edge (V W : Type) where
  source : V
  target : V
  weight : W
  deriving DecidableEq, Repr

/-- The stored form of a directed multigraph. -/
structure Multigraph (V W : Type) [Ord V] where
  adjacency : SortedMap V (List (Edge V W))
  deriving DecidableEq, Repr

namespace Multigraph

variable {V W : Type} [Ord V]

instance : EmptyCollection (Multigraph V W) := ⟨⟨∅⟩⟩

/-- The vertices in ascending order. -/
def vertices (m : Multigraph V W) : List V := m.adjacency.keys

/-- How many vertices there are. -/
def size (m : Multigraph V W) : Nat := m.adjacency.size

/-- Whether there is no vertex. -/
def isEmpty (m : Multigraph V W) : Bool := m.adjacency.isEmpty

/-- Every edge, vertex by vertex. -/
def edges (m : Multigraph V W) : List (Edge V W) := m.adjacency.entries.flatMap Prod.snd

/-- How many edges there are, parallel ones counted one by one. -/
def edgeCount (m : Multigraph V W) : Nat :=
  m.adjacency.entries.foldl (fun n row => n + row.2.length) 0

section Lookup

variable [DecidableEq V]

instance : Membership V (Multigraph V W) := ⟨fun m v => (m.adjacency.get? v).isSome⟩

instance (v : V) (m : Multigraph V W) : Decidable (v ∈ m) :=
  inferInstanceAs (Decidable ((m.adjacency.get? v).isSome = true))

/-- The outgoing edges of `v`, if `v` is a vertex. -/
def edges? (m : Multigraph V W) (v : V) : Option (List (Edge V W)) := m.adjacency.get? v

/-- The outgoing edges of `v`; a place that is no vertex has none. -/
def edgesOf (m : Multigraph V W) (v : V) : List (Edge V W) := (m.edges? v).getD []

/-- Drop a vertex with its outgoing edges. Edges that point at it stay. -/
def remove (m : Multigraph V W) (v : V) : Multigraph V W := ⟨m.adjacency.erase v⟩

end Lookup

section Growth

variable [Std.TransOrd V]

/-- Add a vertex without edges and say whether it is new; a vertex that is there already stays
as it is. -/
def enter [DecidableEq V] (m : Multigraph V W) (v : V) : Bool × Multigraph V W :=
  if v ∈ m then (false, m) else (true, ⟨m.adjacency.insert v []⟩)

/-- Add an edge behind the outgoing edges of its source. Both ends become vertices. -/
def addEdge [DecidableEq V] (m : Multigraph V W) (source target : V) (weight : W) :
    Multigraph V W :=
  ⟨(m.enter target).2.adjacency.alter source fun old =>
    old.getD [] ++ [⟨source, target, weight⟩]⟩

/-- Take over every vertex of `n` with its outgoing edges. A vertex of both keeps only the edges
it has in `n`. -/
def absorb (m n : Multigraph V W) : Multigraph V W := ⟨m.adjacency.absorb n.adjacency⟩

end Growth

section Laws

variable [DecidableEq V]

theorem mem_iff {m : Multigraph V W} {v : V} : v ∈ m ↔ (m.edges? v).isSome := Iff.rfl

theorem mem_vertices {m : Multigraph V W} {v : V} : v ∈ m.vertices ↔ v ∈ m :=
  SortedMap.mem_keys_iff

theorem edgesOf_eq_nil {m : Multigraph V W} {v : V} (h : v ∉ m) : m.edgesOf v = [] := by
  rw [edgesOf, Option.not_isSome_iff_eq_none.mp fun hSome => h (mem_iff.mpr hSome),
    Option.getD_none]

theorem edges?_remove (m : Multigraph V W) (v u : V) :
    (m.remove v).edges? u = if u = v then none else m.edges? u :=
  SortedMap.get?_erase ..

theorem edgesOf_remove (m : Multigraph V W) (v u : V) :
    (m.remove v).edgesOf u = if u = v then [] else m.edgesOf u := by
  rw [edgesOf, edges?_remove]
  split <;> rfl

theorem mem_remove {m : Multigraph V W} {v u : V} : u ∈ m.remove v ↔ u ≠ v ∧ u ∈ m := by
  rw [mem_iff, edges?_remove, mem_iff]
  split
  next h => simp [h]
  next h => simp [h]

variable [Std.TransOrd V] [Std.LawfulEqOrd V]

theorem edges?_enter (m : Multigraph V W) (v u : V) :
    (m.enter v).2.edges? u = if u = v then some (m.edgesOf v) else m.edges? u := by
  unfold enter
  split
  next hOld =>
    obtain ⟨l, hl⟩ := Option.isSome_iff_exists.mp (mem_iff.mp hOld)
    split
    next hEq => rw [hEq, edgesOf, hl, Option.getD_some]
    next => rfl
  next hNew =>
    have hInsert : (⟨m.adjacency.insert v []⟩ : Multigraph V W).edges? u =
        if u = v then some [] else m.edges? u := SortedMap.get?_insert ..
    rw [hInsert, edgesOf_eq_nil hNew]

theorem edgesOf_enter (m : Multigraph V W) (v u : V) : (m.enter v).2.edgesOf u = m.edgesOf u := by
  rw [edgesOf, edges?_enter]
  split
  next h => rw [h, Option.getD_some]
  next => rfl

theorem mem_enter {m : Multigraph V W} {v u : V} : u ∈ (m.enter v).2 ↔ u = v ∨ u ∈ m := by
  rw [mem_iff, edges?_enter, mem_iff]
  split
  next h => simp [h]
  next h => simp [h]

theorem edges?_addEdge (m : Multigraph V W) (source target v : V) (weight : W) :
    (m.addEdge source target weight).edges? v =
      if v = source then some (m.edgesOf source ++ [⟨source, target, weight⟩])
      else if v = target then some (m.edgesOf target) else m.edges? v := by
  have hAlter : (m.addEdge source target weight).edges? v =
      if v = source then some ((m.enter target).2.edgesOf source ++ [⟨source, target, weight⟩])
      else (m.enter target).2.edges? v := SortedMap.get?_alter ..
  rw [hAlter, edgesOf_enter, edges?_enter]

theorem edgesOf_addEdge (m : Multigraph V W) (source target v : V) (weight : W) :
    (m.addEdge source target weight).edgesOf v =
      m.edgesOf v ++ if v = source then [⟨source, target, weight⟩] else [] := by
  rw [edgesOf, edges?_addEdge]
  split
  next h => rw [h, Option.getD_some]
  next =>
    rw [List.append_nil]
    split
    next h => rw [h, Option.getD_some]
    next => rfl

theorem mem_addEdge {m : Multigraph V W} {source target v : V} {weight : W} :
    v ∈ m.addEdge source target weight ↔ v = source ∨ v = target ∨ v ∈ m := by
  rw [mem_iff, edges?_addEdge, mem_iff]
  split
  next h => simp [h]
  next h =>
    split
    next hTarget => simp [hTarget]
    next hTarget => simp [h, hTarget]

theorem edges?_absorb (m n : Multigraph V W) (v : V) :
    (m.absorb n).edges? v = (n.edges? v).or (m.edges? v) :=
  SortedMap.get?_absorb ..

theorem mem_absorb {m n : Multigraph V W} {v : V} : v ∈ m.absorb n ↔ v ∈ m ∨ v ∈ n := by
  rw [mem_iff, edges?_absorb, mem_iff, mem_iff, Option.isSome_or, Bool.or_eq_true, or_comm]

theorem edgesOf_absorb_right {m n : Multigraph V W} {v : V} (h : v ∈ n) :
    (m.absorb n).edgesOf v = n.edgesOf v := by
  obtain ⟨l, hl⟩ := Option.isSome_iff_exists.mp (mem_iff.mp h)
  rw [edgesOf, edges?_absorb, edgesOf, hl, Option.some_or]

theorem edgesOf_absorb_left {m n : Multigraph V W} {v : V} (h : v ∉ n) :
    (m.absorb n).edgesOf v = m.edgesOf v := by
  have hNone : n.edges? v = none := Option.not_isSome_iff_eq_none.mp fun hSome =>
    h (mem_iff.mpr hSome)
  rw [edgesOf, edges?_absorb, hNone, Option.none_or, edgesOf]

end Laws

end Multigraph

end FiniteAutomata
