import FiniteAutomata.Proofs.Fragment.Replica
import FiniteAutomata.Proofs.Workbench.Counting

/-! Replicas on the bench. Whatever was done before, the numbers from which a session goes on
are above all that its fragments mention, so that a replica has nothing in common with what it
was made from, unless the counter has to begin again. -/
namespace FiniteAutomata.Workbench

open Counting Fragment

variable {σ : Type} [Symbol σ]

/-- A fragment that passes its check is replicated onto the next numbers of its session, as
many as it has vertices. The replica is the same fragment over these numbers, with every edge
in its place, and passes the check; no vertex of it occurs in the fragment. The counter may be
any exact one, if a register holds all these numbers. -/
theorem replicate_isomorphic [Counting] [Exact] (cs : List (Command σ)) (hFits : Fits cs)
    {name : String} {x : Fragment σ} (hx : (new.after cs).fragments.get? name = some x)
    (hValid : x.validate = .ok ())
    (hRoom : ((new.after cs).session x.session).next + x.graph.size ≤ greatest) :
    let t := (new.after cs).session x.session
    ∃ r g, x.replicate.run t = (r, { t with next := t.next + x.graph.size }) ∧
      r.graph.vertices = List.range' t.next x.graph.size ∧ Isomorphism g x r ∧
      r.session = x.session ∧ (∀ v ∈ r.graph, ¬ x.Mentions v) ∧ r.validate = .ok () := by
  intro t
  have hw : (new.after cs : Workbench σ).Orderly := hFits.orderly
  have wf := validate_eq_ok_iff.mp hValid
  rw [← wf.length_mentioned] at hRoom
  obtain ⟨r, g, hRun, hVertices, same, hSession, hNew, wf'⟩ := (hw name x hx).replicate_spec wf
  exact ⟨r, g, (run_replicate_of_room hRoom).trans hRun, hVertices, same, hSession, hNew,
    validate_eq_ok_iff.mpr wf'⟩

/-- Three states in a circle, two of them joined twice. The second state that is seen is not
the second one in order. -/
def circle : Fragment Char where
  session := 0
  graph := (((Graph.empty.addEdge 4 9 (.symbol 'a')).addEdge 4 9 (.symbol 'a')).addEdge 9 7
    .epsilon).addEdge 7 4 (.symbol 'b')
  start := 4
  final := 7
  alphabet := .ofList ['a', 'b']

/-- A command that puts the circle together. -/
def drawCircle : List (Command Char) :=
  [.assemble 0 "circle" ⟨none, [], [⟨4, 9, .symbol 'a'⟩, ⟨4, 9, .symbol 'a'⟩, ⟨9, 7, .epsilon⟩,
    ⟨7, 4, .symbol 'b'⟩], [], 4, 7, .ofList ['a', 'b']⟩]

theorem replicate_isomorphic_circle :
    (@after _ _ wrapping new drawCircle).fragments.get? "circle" = some circle ∧
    circle.validate = .ok () ∧ ∃ r g,
      (@replicate _ _ wrapping circle).run ((@after _ _ wrapping new drawCircle).session 0) =
        (r, ⟨0, 13⟩) ∧
      r.graph.vertices = [10, 11, 12] ∧ Isomorphism g circle r ∧ r.validate = .ok () := by
  have hFits : Fits drawCircle := by decide +kernel
  have hx : (@after _ _ wrapping new drawCircle).fragments.get? "circle" = some circle := by
    decide +kernel
  have hValid : circle.validate = .ok () := by rfl
  have hRoom : ((@after _ _ wrapping new drawCircle).session circle.session).next +
      circle.graph.size ≤ greatest := by decide +kernel
  obtain ⟨r, g, hRun, hVertices, same, -, -, hReplica⟩ :=
    @replicate_isomorphic _ _ wrapping exact_wrapping drawCircle hFits _ _ hx hValid hRoom
  exact ⟨hx, hValid, r, g, hRun, hVertices, same, hReplica⟩

/-- A command that puts together a single edge, after which only one number is left. -/
def drawLastEdge : List (Command Char) :=
  [.assemble 0 "edge" ⟨none, [], [⟨0, greatest - 1, .symbol 'a'⟩], [], 0, greatest - 1,
    .ofList ['a']⟩]

/-- The replica of the edge has a vertex that the edge has, too, and it is not made of the numbers
that follow the one that is left, nor does the session go on above them; or the program ends. -/
theorem exists_overrun_replica : ∃ x,
    (@after _ _ wrapping new drawLastEdge).fragments.get? "edge" = some x ∧
    x.validate = .ok () ∧ ∃ r,
      (@replicate _ _ wrapping x).run ((@after _ _ wrapping new drawLastEdge).session 0) =
        (r, ⟨0, 1⟩) ∧
      ((@after _ _ wrapping new drawLastEdge).session 0).next + x.graph.size ≠ 1 ∧
      r.graph.vertices ≠
        List.range' ((@after _ _ wrapping new drawLastEdge).session 0).next x.graph.size ∧
      (∃ v ∈ r.graph, v ∈ x.graph) ∧
      ((new.after drawLastEdge).runChecked (.replicate "edge" "copy")).isNone := by
  refine ⟨_, rfl, by decide +kernel, _, rfl, by decide +kernel, by decide +kernel, ?_,
    by decide +kernel⟩
  exact ⟨0, by decide +kernel, by decide +kernel⟩

end FiniteAutomata.Workbench
