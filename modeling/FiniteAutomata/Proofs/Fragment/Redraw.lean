import FiniteAutomata.Proofs.Fragment.Replica

/-! A replica drawn edge by edge. A state gets its number when it is first seen, be it as a
vertex or as the target of an edge, while the new graph is already being filled. What comes of
it is the replica, because the number that a state gets does not change later and depends only
on the states that were seen before. -/
namespace FiniteAutomata.Fragment

variable {σ : Type}

/-- Work that gives out new numbers for states. The table holds the numbers given out so far. -/
abbrev Relabeling (α : Type) := StateT (SortedMap State State) (StateM Session) α

/-- The number of a state: the one it has got, or else the next number of the session. -/
def relabel [Counting] (s : State) : Relabeling State := do
  match (← get).get? s with
  | some number => return number
  | none =>
    let number ← (Session.fresh : StateM Session State)
    modify fun table => table.insert s number
    return number

/-- Add edges with a common source one after another, with new numbers for their targets. -/
def redrawArrows [Counting] (g : Graph State (Label σ)) (source : State)
    (arrows : List (Arrow State (Label σ))) : Relabeling (Graph State (Label σ)) :=
  arrows.foldlM (fun g a => do return g.addEdge source (← relabel a.target) a.weight) g

/-- Add vertices with their edges one after another, with new numbers for all states. -/
def redrawRows [Counting] (g : Graph State (Label σ))
    (rows : List (State × List (Arrow State (Label σ)))) : Relabeling (Graph State (Label σ)) :=
  rows.foldlM (fun g row => do
    let source ← relabel row.1
    redrawArrows (g.addVertex source) source row.2) g

/-- The states in the order in which rows mention them. -/
def occurrences (rows : List (State × List (Arrow State (Label σ)))) : List State :=
  rows.flatMap fun row => row.1 :: row.2.map Arrow.target

/-- The number that a state gets if the states `seen` are seen in this order and the numbers
begin at `next`. -/
def numberIn [Counting] (next : State) (seen : List State) (s : State) : State :=
  Counting.ahead next (seen.eraseDups.idxOf s)

/-- The table holds the numbers of the states `seen`. -/
def Records [Counting] (next : State) (seen : List State) (table : SortedMap State State) : Prop :=
  ∀ s, table.get? s = if s ∈ seen then some (numberIn next seen s) else none

/-- Coming from the states `seen`, the work sees the states `more` and yields `a`. The session
hands out a number for each state that it has not seen before. -/
def Sees [Counting] {α : Type} (t : Session) (seen more : List State) (b : Relabeling α) (a : α) :
    Prop :=
  ∀ table, Records t.next seen table → ∃ table', Records t.next (seen ++ more) table' ∧
    (b.run table).run { t with next := Counting.ahead t.next seen.eraseDups.length } =
      ((a, table'), { t with next := Counting.ahead t.next (seen ++ more).eraseDups.length })

section Sees

variable [Counting] {α β : Type} {t : Session} {seen more later all : List State}

theorem numberIn_append {next s : State} (h : s ∈ seen) :
    numberIn next (seen ++ more) s = numberIn next seen s := by
  rw [numberIn, List.eraseDups_append, List.idxOf_append_of_mem (List.mem_eraseDups.mpr h)]
  rfl

theorem numberIn_of_prefix {next s : State} (h : seen <+: all) (hs : s ∈ seen) :
    numberIn next seen s = numberIn next all s := by
  obtain ⟨rest, rfl⟩ := h
  exact (numberIn_append hs).symm

theorem sees_pure (a : α) : Sees t seen [] (pure a) a := by
  intro table hTable
  rw [List.append_nil]
  exact ⟨table, hTable, rfl⟩

theorem Sees.bind {b : Relabeling α} {f : α → Relabeling β} {a : α} {c : β}
    (first : Sees t seen more b a) (next : Sees t (seen ++ more) later (f a) c) :
    Sees t seen (more ++ later) (b >>= f) c := by
  intro table hTable
  obtain ⟨middle, hMiddle, hFirst⟩ := first table hTable
  obtain ⟨last, hLast, hNext⟩ := next middle hMiddle
  rw [← List.append_assoc]
  refine ⟨last, hLast, ?_⟩
  rw [StateT.run_bind, StateT.run_bind, hFirst]
  exact hNext

theorem Sees.map {b : Relabeling α} {a : α} (h : Sees t seen more b a) (f : α → β) :
    Sees t seen more (b >>= fun a => pure (f a)) (f a) := by
  rw [← List.append_nil more]
  exact h.bind (sees_pure (f a))

theorem run_relabel (s : State) (table : SortedMap State State) (u : Session) :
    ((relabel s).run table).run u =
      match table.get? s with
      | some number => ((number, table), u)
      | none => ((u.next, table.insert s u.next), { u with next := Counting.succ u.next }) := by
  change StateT.run (StateT.run (match table.get? s with
    | some number => (return number : Relabeling State)
    | none => do
      let number ← (Session.fresh : StateM Session State)
      modify fun table => table.insert s number
      return number) table) u = _
  cases table.get? s <;> rfl

theorem Records.again {next s : State} {table : SortedMap State State}
    (h : Records next seen table) (hs : s ∈ seen) : Records next (seen ++ [s]) table := by
  intro v
  rw [h v, numberIn, numberIn, eraseDups_concat, if_pos hs]
  by_cases hv : v = s
  · simp [hv, hs]
  · simp [hv]

theorem numberIn_concat {next s : State} (hs : s ∉ seen) :
    numberIn next (seen ++ [s]) s = Counting.ahead next seen.eraseDups.length := by
  have hNew : s ∉ seen.eraseDups := fun hMem => hs (List.mem_eraseDups.mp hMem)
  rw [numberIn, eraseDups_concat, if_neg hs, List.idxOf_append_of_notMem hNew,
    List.idxOf_cons_self, Nat.add_zero]

theorem Records.insert {next s : State} {table : SortedMap State State}
    (h : Records next seen table) (hs : s ∉ seen) :
    Records next (seen ++ [s]) (table.insert s (Counting.ahead next seen.eraseDups.length)) := by
  intro v
  rw [SortedMap.get?_insert, h v]
  by_cases hv : v = s
  · simp [hv, numberIn_concat hs]
  · by_cases hMem : v ∈ seen
    · simp [hv, hMem, numberIn_append hMem]
    · simp [hv, hMem]

/-- A state is looked up in the table, or it gets the next number. -/
theorem sees_relabel {s : State} (h : seen ++ [s] <+: all) :
    Sees t seen [s] (relabel s) (numberIn t.next all s) := by
  intro table hTable
  rw [run_relabel, hTable, ← numberIn_of_prefix h List.mem_concat_self]
  by_cases hs : s ∈ seen
  · refine ⟨table, hTable.again hs, ?_⟩
    rw [if_pos hs, numberIn_append hs, eraseDups_concat, if_pos hs]
  · refine ⟨_, hTable.insert hs, ?_⟩
    rw [if_neg hs, numberIn_concat hs, eraseDups_concat, if_neg hs, List.length_append]
    rfl

theorem sees_redrawArrows {source : State} {arrows : List (Arrow State (Label σ))}
    {g : Graph State (Label σ)} (h : seen ++ arrows.map Arrow.target <+: all) :
    Sees t seen (arrows.map Arrow.target) (redrawArrows g source arrows)
      (g.addArrows source (arrows.map (Arrow.rename (numberIn t.next all)))) := by
  induction arrows generalizing g seen with
  | nil => exact sees_pure g
  | cons a rest ih =>
      rw [List.map_cons, ← List.singleton_append, ← List.append_assoc] at h
      have hTarget := sees_relabel (t := t) ((List.prefix_append _ _).trans h)
      rw [redrawArrows, List.foldlM_cons]
      exact (hTarget.map fun target => g.addEdge source target a.weight).bind (ih h)

theorem sees_redrawRows {rows : List (State × List (Arrow State (Label σ)))}
    {g : Graph State (Label σ)} (h : seen ++ occurrences rows <+: all) :
    Sees t seen (occurrences rows) (redrawRows g rows)
      (Graph.addRenamed (numberIn t.next all) rows g) := by
  induction rows generalizing g seen with
  | nil => exact sees_pure g
  | cons row rest ih =>
      rw [occurrences, List.flatMap_cons, ← occurrences, ← List.append_assoc] at h
      have hRow := (List.prefix_append _ _).trans h
      rw [← List.singleton_append, ← List.append_assoc] at hRow
      have hSource := sees_relabel (t := t) ((List.prefix_append _ _).trans hRow)
      rw [redrawRows, List.foldlM_cons, occurrences, List.flatMap_cons]
      exact (hSource.bind (sees_redrawArrows hRow)).bind (ih h)

end Sees

section Redraw

variable [Symbol σ] [Counting]

/-- Draw a fragment again with new numbers for all states. -/
def redraw (x : Fragment σ) : Relabeling (Fragment σ) := do
  let graph ← redrawRows ∅ x.graph.rows
  let start ← relabel x.start
  let final ← relabel x.final
  return { x with graph, start, final }

/-- The states are seen in the order in which the fragment mentions them. -/
theorem sees_redraw (x : Fragment σ) (t : Session) :
    Sees t [] (occurrences x.graph.rows ++ ([x.start] ++ [x.final])) x.redraw
      (x.rename fun s => Counting.ahead t.next (x.mentioned.idxOf s)) := by
  -- Every part of the work sees a prefix of `all`, which fixes the numbers for good.
  let seen := occurrences x.graph.rows
  let all := seen ++ [x.start] ++ [x.final]
  have hRows : Sees t [] seen (redrawRows ∅ x.graph.rows)
      (Graph.addRenamed (numberIn t.next all) x.graph.rows ∅) :=
    sees_redrawRows ((List.prefix_append seen [x.start]).trans (List.prefix_append _ [x.final]))
  have hStart := sees_relabel (t := t) (List.prefix_append (seen ++ [x.start]) [x.final])
  have hFinal := sees_relabel (t := t) (List.prefix_refl all)
  have hAll : all.eraseDups = x.mentioned := congrArg List.eraseDups (List.append_assoc ..)
  have hNumber : numberIn t.next all = fun s => Counting.ahead t.next (x.mentioned.idxOf s) := by
    funext s
    rw [numberIn, hAll]
  rw [← hNumber]
  exact hRows.bind (hStart.bind (hFinal.map _))

/-- Drawn again with each number given out when it is needed, a fragment comes out as its
replica. -/
theorem replicate_eq_redraw (x : Fragment σ) (t : Session) :
    x.replicate.run t = (x.redraw.run' ∅).run t := by
  obtain ⟨table, -, hRun⟩ := x.sees_redraw t ∅ fun s => rfl
  rw [List.nil_append, List.eraseDups_nil] at hRun
  exact (congrArg (fun result => (result.1.1, result.2)) hRun).symm

end Redraw

end FiniteAutomata.Fragment
