import FiniteAutomata.Proofs.Graph.Count

/-! Where the edges of a multigraph come from. It is the outcome of the changes made to it, one
after another. Every edge is stored where it begins. The edges of a place are those added there
since its entry was last removed or replaced, and behind those that it had where it was taken
over from. No edge loses its target otherwise than by a removal. -/
namespace FiniteAutomata.Multigraph

/-- A change of a multigraph. One that is absorbed comes with the changes that it was made by. -/
inductive Change (V W : Type) where
  | addVertex (v : V)
  | addEdge (e : Edge V W)
  | remove (v : V)
  | absorb (changes : List (Change V W))

variable {V W : Type} [Ord V] [DecidableEq V] [Std.TransOrd V]

mutual

/-- The multigraph after a change. -/
def Change.apply : Change V W → Multigraph V W → Multigraph V W
  | .addVertex v, m => (m.enter v).2
  | .addEdge e, m => m.addEdge e.source e.target e.weight
  | .remove v, m => m.remove v
  | .absorb changes, m => m.absorb (applyAll changes ∅)

/-- The multigraph after a list of changes. -/
def applyAll : List (Change V W) → Multigraph V W → Multigraph V W
  | [], m => m
  | c :: rest, m => applyAll rest (c.apply m)

end

/-- The multigraph that a list of changes makes of the empty one. -/
def ofChanges (changes : List (Change V W)) : Multigraph V W := applyAll changes ∅

theorem apply_absorb (changes : List (Change V W)) (m : Multigraph V W) :
    (Change.absorb changes).apply m = m.absorb (ofChanges changes) := rfl

namespace Change

/-- The change takes the edges of `v` away: the vertex is removed, or its entry is replaced by
the one of another multigraph. -/
def Drops (v : V) : Change V W → Prop
  | addVertex _ => False
  | addEdge _ => False
  | remove u => u = v
  | absorb changes => v ∈ ofChanges changes

omit [Ord V] [Std.TransOrd V] in
/-- The edge from `v` that the change adds, if it adds one. -/
def added? (v : V) : Change V W → Option (Edge V W)
  | addEdge e => if e.source = v then some e else none
  | _ => none

end Change

omit [Ord V] [Std.TransOrd V] in
/-- The edges from `v` that are added one after another. -/
def addedFrom (v : V) (changes : List (Change V W)) : List (Edge V W) :=
  changes.filterMap (Change.added? v)

/-- What the changes tell about the edges of `v`: those added since the last change that took
edges of `v` away. If this change took over an entry, then they stand behind the edges that the
other multigraph had there, which are told by its own changes. -/
inductive Tells (v : V) : List (Change V W) → List (Edge V W) → Prop where
  | untouched {since : List (Change V W)} (kept : ∀ c ∈ since, ¬ c.Drops v) :
      Tells v since (addedFrom v since)
  | removed {before since : List (Change V W)} (kept : ∀ c ∈ since, ¬ c.Drops v) :
      Tells v (before ++ .remove v :: since) (addedFrom v since)
  | replaced {before changes since : List (Change V W)} {edges : List (Edge V W)}
      (present : v ∈ ofChanges changes) (there : Tells v changes edges)
      (kept : ∀ c ∈ since, ¬ c.Drops v) :
      Tells v (before ++ .absorb changes :: since) (edges ++ addedFrom v since)

/-- The vertex was removed at some time, from the graph itself or from one that came into it. -/
inductive Removed (v : V) : List (Change V W) → Prop where
  | here {changes : List (Change V W)} (change : .remove v ∈ changes) : Removed v changes
  | there {changes others : List (Change V W)} (change : .absorb others ∈ changes)
      (earlier : Removed v others) : Removed v changes

section Histories

variable {v : V} {before since changes : List (Change V W)} {edges : List (Edge V W)}

theorem applyAll_append (first second : List (Change V W)) (m : Multigraph V W) :
    applyAll (first ++ second) m = applyAll second (applyAll first m) := by
  induction first generalizing m with
  | nil => rfl
  | cons c rest ih => exact ih (c.apply m)

theorem ofChanges_append_cons (c : Change V W) :
    ofChanges (before ++ c :: since) = applyAll since (c.apply (ofChanges before)) :=
  applyAll_append before (c :: since) ∅

theorem ofChanges_append_singleton (c : Change V W) :
    ofChanges (before ++ [c]) = c.apply (ofChanges before) :=
  ofChanges_append_cons c

omit [Ord V] [DecidableEq V] [Std.TransOrd V] in
theorem sizeOf_lt_append_singleton (before : List (Change V W)) (c : Change V W) :
    sizeOf before < sizeOf (before ++ [c]) := by
  induction before with
  | nil => simp only [List.nil_append, List.nil.sizeOf_spec, List.cons.sizeOf_spec]; omega
  | cons d rest ih => simpa using ih

omit [Ord V] [DecidableEq V] [Std.TransOrd V] in
theorem sizeOf_lt_append_absorb (before others : List (Change V W)) :
    sizeOf others < sizeOf (before ++ [.absorb others]) := by
  have hMem : .absorb others ∈ before ++ [.absorb others] := List.mem_concat_self
  have hLt := List.sizeOf_lt_of_mem hMem
  rw [Change.absorb.sizeOf_spec] at hLt
  omega

omit [Ord V] [DecidableEq V] [Std.TransOrd V] in
/-- Histories grow at their end, and a multigraph that is absorbed has one of its own. -/
@[elab_as_elim]
theorem changes_induction {motive : List (Change V W) → Prop} (changes : List (Change V W))
    (nil : motive [])
    (addVertex : ∀ before v, motive before → motive (before ++ [.addVertex v]))
    (addEdge : ∀ before e, motive before → motive (before ++ [.addEdge e]))
    (remove : ∀ before v, motive before → motive (before ++ [.remove v]))
    (absorb : ∀ before others, motive before → motive others →
      motive (before ++ [.absorb others])) : motive changes := by
  rcases List.eq_nil_or_concat' changes with hNil | ⟨before, c, hChanges⟩
  · exact hNil ▸ nil
  · have hBefore := changes_induction before nil addVertex addEdge remove absorb
    cases c with
    | addVertex v => exact hChanges ▸ addVertex before v hBefore
    | addEdge e => exact hChanges ▸ addEdge before e hBefore
    | remove v => exact hChanges ▸ remove before v hBefore
    | absorb others =>
        have hOthers := changes_induction others nil addVertex addEdge remove absorb
        exact hChanges ▸ absorb before others hBefore hOthers
termination_by sizeOf changes
decreasing_by
  · exact hChanges ▸ sizeOf_lt_append_singleton before _
  · exact hChanges ▸ sizeOf_lt_append_absorb before others

end Histories

section Edges

variable {v : V} {changes : List (Change V W)} {edges : List (Edge V W)}

omit [Ord V] [Std.TransOrd V] in
theorem addedFrom_append (v : V) (first second : List (Change V W)) :
    addedFrom v (first ++ second) = addedFrom v first ++ addedFrom v second :=
  List.filterMap_append

variable [Std.LawfulEqOrd V]

/-- A change that does not take the edges of `v` away adds at most one behind them. -/
theorem edgesOf_apply {c : Change V W} (h : ¬ c.Drops v) (m : Multigraph V W) :
    (c.apply m).edgesOf v = m.edgesOf v ++ addedFrom v [c] := by
  cases c with
  | addVertex u =>
      rw [Change.apply, edgesOf_enter]
      exact (List.append_nil _).symm
  | addEdge e =>
      rw [Change.apply, edgesOf_addEdge]
      by_cases hSource : v = e.source
      · simp [addedFrom, Change.added?, hSource]
      · simp [addedFrom, Change.added?, hSource, Ne.symm hSource]
  | remove u =>
      rw [Change.apply, edgesOf_remove, if_neg (Ne.symm h)]
      exact (List.append_nil _).symm
  | absorb others =>
      rw [apply_absorb, edgesOf_absorb_left h]
      exact (List.append_nil _).symm

theorem edgesOf_applyAll {since : List (Change V W)} (h : ∀ c ∈ since, ¬ c.Drops v)
    (m : Multigraph V W) : (applyAll since m).edgesOf v = m.edgesOf v ++ addedFrom v since := by
  induction since generalizing m with
  | nil => exact (List.append_nil _).symm
  | cons c rest ih =>
      obtain ⟨hFirst, hRest⟩ := List.forall_mem_cons.mp h
      rw [applyAll, ih hRest, edgesOf_apply hFirst, List.append_assoc, ← addedFrom_append]
      rfl

/-- The changes tell what the edges are. -/
theorem Tells.edgesOf_eq (h : Tells v changes edges) : (ofChanges changes).edgesOf v = edges := by
  induction h with
  | untouched kept => exact edgesOf_applyAll kept ∅
  | removed kept =>
      rw [ofChanges_append_cons, edgesOf_applyAll kept, Change.apply, edgesOf_remove, if_pos rfl]
      rfl
  | replaced present _ kept ih =>
      rw [ofChanges_append_cons, edgesOf_applyAll kept, apply_absorb,
        edgesOf_absorb_right present, ih]

omit [Std.LawfulEqOrd V] in
theorem Tells.append_singleton (h : Tells v changes edges) {c : Change V W} (hKept : ¬ c.Drops v) :
    Tells v (changes ++ [c]) (edges ++ addedFrom v [c]) := by
  have hAll : ∀ {since : List (Change V W)}, (∀ b ∈ since, ¬ b.Drops v) →
      ∀ b ∈ since ++ [c], ¬ b.Drops v := fun kept =>
    List.forall_mem_append.mpr ⟨kept, List.forall_mem_singleton.mpr hKept⟩
  cases h with
  | untouched kept =>
      rw [← addedFrom_append]
      exact .untouched (hAll kept)
  | removed kept =>
      rw [← addedFrom_append, List.append_assoc]
      exact .removed (hAll kept)
  | replaced present there kept =>
      rw [List.append_assoc, List.append_assoc, ← addedFrom_append]
      exact .replaced present there (hAll kept)

omit [Std.LawfulEqOrd V] in
/-- The changes always tell something. -/
theorem exists_tells (v : V) (changes : List (Change V W)) : ∃ edges, Tells v changes edges := by
  induction changes using changes_induction with
  | nil => exact ⟨_, .untouched (List.forall_mem_nil _)⟩
  | addVertex before u ih =>
      obtain ⟨edges, h⟩ := ih
      exact ⟨_, h.append_singleton id⟩
  | addEdge before e ih =>
      obtain ⟨edges, h⟩ := ih
      exact ⟨_, h.append_singleton id⟩
  | remove before u ih =>
      obtain ⟨edges, h⟩ := ih
      by_cases hu : u = v
      · subst hu
        exact ⟨_, .removed (List.forall_mem_nil _)⟩
      · exact ⟨_, h.append_singleton hu⟩
  | absorb before others ih ihOthers =>
      obtain ⟨edges, h⟩ := ih
      obtain ⟨edges', hOthers⟩ := ihOthers
      by_cases hv : v ∈ ofChanges others
      · exact ⟨_, .replaced hv hOthers (List.forall_mem_nil _)⟩
      · exact ⟨_, h.append_singleton hv⟩

theorem tells_iff : Tells v changes edges ↔ (ofChanges changes).edgesOf v = edges := by
  refine ⟨Tells.edgesOf_eq, ?_⟩
  intro hEdges
  obtain ⟨told, h⟩ := exists_tells v changes
  rw [← hEdges, h.edgesOf_eq]
  exact h

end Edges

section Targets

variable {v : V} {changes after : List (Change V W)}

omit [Ord V] [DecidableEq V] [Std.TransOrd V] in
theorem Removed.append (h : Removed v changes) : Removed v (changes ++ after) := by
  cases h with
  | here change => exact .here (List.mem_append_left _ change)
  | there change earlier => exact .there (List.mem_append_left _ change) earlier

variable [Std.LawfulEqOrd V]

/-- An edge leads to a vertex, unless this was removed. -/
theorem mem_or_removed {e : Edge V W} (h : e ∈ (ofChanges changes).edgesOf v) :
    e.target ∈ ofChanges changes ∨ Removed e.target changes := by
  induction changes using changes_induction with
  | nil => exact nomatch h
  | addVertex before u ih =>
      rw [ofChanges_append_singleton, Change.apply] at h ⊢
      rw [edgesOf_enter] at h
      exact (ih h).imp (fun ht => mem_enter.mpr (Or.inr ht)) Removed.append
  | addEdge before d ih =>
      rw [ofChanges_append_singleton, Change.apply] at h ⊢
      rw [edgesOf_addEdge] at h
      rcases List.mem_append.mp h with hOld | hNew
      · exact (ih hOld).imp (fun ht => mem_addEdge.mpr (Or.inr (Or.inr ht))) Removed.append
      · split at hNew
        next =>
          rw [List.mem_singleton.mp hNew]
          exact Or.inl (mem_addEdge.mpr (Or.inr (Or.inl rfl)))
        next => cases hNew
  | remove before u ih =>
      rw [ofChanges_append_singleton, Change.apply] at h ⊢
      rw [edgesOf_remove] at h
      by_cases ht : e.target = u
      · exact Or.inr (.here (ht ▸ List.mem_concat_self))
      · split at h
        next => cases h
        next =>
          exact (ih h).imp (fun hMem => mem_remove.mpr ⟨ht, hMem⟩) Removed.append
  | absorb before others ih ihOthers =>
      rw [ofChanges_append_singleton, apply_absorb] at h ⊢
      -- An edge of an entry that is replaced comes from the other history, which tells of it.
      by_cases hv : v ∈ ofChanges others
      · rw [edgesOf_absorb_right hv] at h
        exact (ihOthers h).imp (fun ht => mem_absorb.mpr (Or.inr ht))
          fun ht => .there List.mem_concat_self ht
      · rw [edgesOf_absorb_left hv] at h
        exact (ih h).imp (fun ht => mem_absorb.mpr (Or.inl ht)) Removed.append

end Targets

/-- Every edge is stored where it begins: new ones are, and no change moves one. -/
theorem sourced_ofChanges [Std.LawfulEqOrd V] (changes : List (Change V W)) :
    (ofChanges changes).Sourced := by
  induction changes using changes_induction with
  | nil => exact sourced_empty
  | addVertex before v ih =>
      rw [ofChanges_append_singleton]
      exact ih.enter v
  | addEdge before e ih =>
      rw [ofChanges_append_singleton]
      exact ih.addEdge e.source e.target e.weight
  | remove before v ih =>
      rw [ofChanges_append_singleton]
      exact ih.remove v
  | absorb before others ih ihOthers =>
      rw [ofChanges_append_singleton, apply_absorb]
      exact ih.absorb ihOthers

/-- Whatever changes it went through, the vertices of a multigraph are in ascending order, and
the edges listed for a place are stored as beginning there. They are those that its history
tells of, in the order in which they were added and as often. The edges are counted place by
place, and where one of them leads to is a vertex, unless it was removed. -/
theorem ofChanges_keeps_edges [Std.LawfulEqOrd V] (changes : List (Change V W)) :
    (ofChanges changes).vertices.Pairwise (fun u v => compare u v = .lt) ∧
      (∀ v, ∀ e ∈ (ofChanges changes).edgesOf v, e.source = v) ∧
      (∀ v edges, Tells v changes edges ↔ (ofChanges changes).edgesOf v = edges) ∧
      (ofChanges changes).edgeCount = ((ofChanges changes).vertices.map fun v =>
        ((ofChanges changes).edgesOf v).length).sum ∧
      ∀ v, ∀ e ∈ (ofChanges changes).edgesOf v,
        e.target ∉ ofChanges changes → Removed e.target changes := by
  refine ⟨List.pairwise_map.mpr (ofChanges changes).adjacency.sorted,
    fun v e he => (sourced_ofChanges changes).source_eq he, fun v edges => tells_iff,
    edgeCount_eq_sum_vertices _, fun v e he hMissing => ?_⟩
  exact (mem_or_removed he).resolve_left hMissing

/-- Edges from 0 and 1, two of them parallel. The vertex 0 is removed and comes back as a target;
then the entry of 1 is replaced by that of a graph from which 5 was removed. -/
def twice : List (Change Nat Char) :=
  [.addEdge ⟨0, 1, 'a'⟩, .addEdge ⟨0, 1, 'a'⟩, .addEdge ⟨1, 2, 'b'⟩, .remove 0,
    .absorb [.addEdge ⟨1, 5, 'c'⟩, .addEdge ⟨5, 1, 'd'⟩, .remove 5],
    .addEdge ⟨1, 0, 'e'⟩, .addEdge ⟨1, 0, 'e'⟩]

/-- The edges of 0 are gone, those of 1 begin with the one that came with the other graph. -/
theorem ofChanges_keeps_edges_twice :
    Tells 0 twice [] ∧ Tells 1 twice [⟨1, 5, 'c'⟩, ⟨1, 0, 'e'⟩, ⟨1, 0, 'e'⟩] ∧
      (ofChanges twice).vertices = [0, 1, 2] ∧ (ofChanges twice).edgeCount = 3 ∧
      Removed 5 twice := by
  obtain ⟨-, -, hTells, -, hRemoved⟩ := ofChanges_keeps_edges twice
  refine ⟨(hTells 0 _).mpr (by decide), (hTells 1 _).mpr (by decide), by decide, by decide, ?_⟩
  exact hRemoved 1 ⟨1, 5, 'c'⟩ (by decide) (by decide)

end FiniteAutomata.Multigraph
