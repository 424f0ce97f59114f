import FiniteAutomata.Proofs.Dfa.Minimize
import FiniteAutomata.Proofs.Legible

/-! The table of an automaton. Symbols stand in it as they are, also those that the table uses
between them, but a character takes one place and an integer ends with its digits. So the
table can be read line by line, and tells all of the automaton but its alphabet. -/
namespace FiniteAutomata.Dfa

variable {σ : Type} [Symbol σ] {d e : Dfa σ}

/-- The same states, which stand for the same sets, the same accepting states and the same
graph. The alphabets may differ. -/
structure Agrees (d e : Dfa σ) : Prop where
  states : d.states = e.states
  accepting : d.accepting = e.accepting
  graph : d.graph = e.graph

theorem Agrees.accepts_eq (h : d.Agrees e) : d.accepts = e.accepts :=
  accepts_eq_of_graph_eq h.accepting h.graph

/-- Fragments that answer differently to a word have automata that do not agree. -/
theorem exists_not_agrees (x y : Fragment σ) (word : List σ) (hx : x.validate = .ok ())
    (hy : y.validate = .ok ()) (hWord : x.accepts word ≠ y.accepts word) :
    ∃ d e, x.determinize = .ok d ∧ y.determinize = .ok e ∧ d.Constructed ∧ e.Constructed ∧
      ¬ d.Agrees e := by
  have wfx := Fragment.validate_eq_ok_iff.mp hx
  have wfy := Fragment.validate_eq_ok_iff.mp hy
  obtain ⟨d, hd⟩ := exists_ofFragment wfx
  obtain ⟨e, he⟩ := exists_ofFragment wfy
  refine ⟨d, e, hd, he, .ofFragment hd, .ofFragment he, fun hAgrees => hWord ?_⟩
  rw [(simulates_of_ofFragment hd).1.accepts_eq wfx, (simulates_of_ofFragment he).1.accepts_eq wfy,
    hAgrees.accepts_eq]

/-- The numbers come with the sets. -/
theorem map_snd_numberedStates (d : Dfa σ) : d.numberedStates.map Prod.snd = d.states := by
  rw [numberedStates, List.map_map]
  rfl

theorem entries_inj : d.numberedStates = e.numberedStates ↔ d.entries = e.entries :=
  (List.map_injective_iff.mpr fun s t h => by
    cases s
    cases t
    cases h
    rfl).eq_iff

/-- As the numbers are the positions, the list of the states is known from the sets. -/
theorem numberedStates_inj (hd : d.WellFormed) (he : e.WellFormed) :
    d.numberedStates = e.numberedStates ↔ d.states = e.states := by
  constructor
  · intro h
    rw [← map_snd_numberedStates, h, map_snd_numberedStates]
  · intro h
    apply List.ext_getElem?
    intro i
    rw [hd.getElem?_numberedStates, he.getElem?_numberedStates, members?, h, members?]

section Table

/-- The rows of the graph that the table shows. -/
def shownRows (d : Dfa σ) : List (State × List (Arrow State σ)) :=
  d.graph.rows.filter fun row => !row.2.isEmpty

theorem text_eq (d : Dfa σ) : d.text =
    "DFA\nStates:\n" ++
      String.join (d.numberedStates.map fun row =>
        toString row.1 ++ ": " ++ row.2.text ++ "\n") ++
      "Accepting states:\n" ++ String.intercalate ", " (d.accepting.toList.map toString) ++ "\n" ++
      "Transitions:\n" ++ String.join (d.shownRows.map rowText) := rfl

/-- A state with the set that it stands for. -/
theorem legible_stateLine : Legible (fun _ => True) (fun _ => True)
    fun row : State × StateSet => (toString row.1 ++ ": " ++ row.2.text ++ "\n").toList := by
  have hState := legible_number.append ": ".toList ⟨':', rfl, rfl⟩
  have hSet := legible_stateSet.append "\n".toList ⟨'\n', rfl, trivial⟩
  have hLine := hState.pair hSet fun _ _ _ _ _ _ => trivial
  simpa only [String.toList_append, List.append_assoc, and_self] using hLine

/-- A transition of a row, which ends with the number of the target. -/
theorem legible_transition
    (hSymbol : Legible (fun _ => True) (· = ':') fun a : σ => (Symbol.text a).toList) :
    Legible (fun _ => True) (fun c => c.isDigit = false) fun a : Arrow State σ =>
      (" " ++ Symbol.text a.weight ++ ":" ++ toString a.target).toList := by
  have hInj : Function.Injective fun a : Arrow State σ => (a.weight, a.target) := by
    rintro ⟨s, a⟩ ⟨t, b⟩ h
    cases h
    rfl
  have hArrow := (((hSymbol.append ":".toList ⟨':', rfl, rfl⟩).pair legible_number
    fun _ _ _ _ _ _ => trivial).comap hInj).prepend " ".toList
  simpa only [String.toList_append, List.append_assoc, and_self] using hArrow

/-- A row with its transitions. -/
theorem legible_rowText
    (hSymbol : Legible (fun _ => True) (· = ':') fun a : σ => (Symbol.text a).toList) :
    Legible (fun _ => True) (fun _ => True) fun row : State × List (Arrow State σ) =>
      (rowText row).toList := by
  have hState := legible_number.append " ->".toList ⟨' ', rfl, rfl⟩
  have hArrows := (legible_transition hSymbol).flatMap (· = ' ') (· = '\n')
    (fun a _ => by simp only [String.toList_append, List.append_assoc]; exact ⟨' ', rfl, rfl⟩)
    (by rintro _ rfl; rfl) (by rintro _ rfl; decide)
  have hRow := hState.pair (hArrows.append "\n".toList ⟨'\n', rfl, rfl⟩)
    fun _ _ _ _ _ _ => trivial
  simpa only [rowText, String.toList_append, String.toList_join, List.flatMap_map,
    List.append_assoc, implies_true, and_self] using hRow

theorem opens_stateLine (row : State × StateSet) : Opens (fun c => c.isDigit = true)
    (toString row.1 ++ ": " ++ row.2.text ++ "\n").toList := by
  simp only [String.toList_append, List.append_assoc]
  exact (opens_number row.1).append

theorem opens_rowText (row : State × List (Arrow State σ)) :
    Opens (fun c => c.isDigit = true) (rowText row).toList := by
  simp only [rowText, String.toList_append, List.append_assoc]
  exact (opens_number row.1).append

/-- The three parts of the table can be told apart: no line of a state begins as the heading
behind the states does, and the accepting states fill a line. -/
theorem parts_eq_of_text
    (hSymbol : Legible (fun _ => True) (· = ':') fun a : σ => (Symbol.text a).toList)
    (h : d.text = e.text) :
    d.numberedStates = e.numberedStates ∧ d.accepting = e.accepting ∧
      d.shownRows = e.shownRows := by
  have hLines := legible_stateLine.flatMap _ (· = 'A') (fun row _ => opens_stateLine row)
    (fun _ _ => trivial) (by rintro _ rfl; decide)
  have hStates := hLines.append "Accepting states:\n".toList ⟨'A', rfl, rfl⟩
  have hNumbers := legible_number.intercalate ", ".toList _ (· = ',') (· = '\n')
    (fun n _ => opens_number n) ⟨',', rfl, rfl⟩ (by rintro _ rfl; rfl) (by rintro _ rfl; decide)
  have hAccepting := hNumbers.append "\n".toList ⟨'\n', rfl, rfl⟩
  have hShown := (legible_rowText hSymbol).flatMap _ (fun _ => False)
    (fun row _ => opens_rowText row) (fun _ _ => trivial) nofun
  have hRows := hShown.prepend "Transitions:\n".toList
  have hText := (hStates.pair (hAccepting.pair hRows fun _ _ _ _ _ _ => trivial)
    fun _ _ _ _ _ _ => trivial).prepend "DFA\nStates:\n".toList
  have hParts : (d.numberedStates, d.accepting.toList, d.shownRows) =
      (e.numberedStates, e.accepting.toList, e.shownRows) := by
    have hEq := congrArg String.toList h
    refine hText.inj (by simp) (by simp) ?_
    simpa only [text_eq, String.toList_append, String.toList_join, String.toList_intercalate,
      List.flatMap_map, List.map_map, Function.comp_def, List.append_assoc] using hEq
  simp only [Prod.mk.injEq] at hParts
  obtain ⟨hNumbered, hList, hShown⟩ := hParts
  exact ⟨hNumbered, SortedSet.toList_inj.mp hList, hShown⟩

/-- The rows without transitions, which the table leaves out, add no edge. -/
theorem joins_iff_shownRows {s t : State} {a : σ} :
    d.graph.Joins s a t ↔ ∃ row ∈ d.shownRows, row.1 = s ∧ ⟨t, a⟩ ∈ row.2 := by
  constructor
  · intro h
    refine ⟨(s, d.graph.arrows s), List.mem_filter.mpr ⟨?_, ?_⟩, rfl, h⟩
    · exact Graph.mem_rows_iff.mpr (Graph.arrows?_of_mem (Graph.mem_of_joins h))
    · simpa using List.ne_nil_of_mem h
  · rintro ⟨⟨_, l⟩, hRow, rfl, hArrow⟩
    exact Graph.joins_of_arrows? (Graph.mem_rows_iff.mp (List.mem_of_mem_filter hRow)) hArrow

/-- The table tells the states, the accepting ones and the graph, if symbols are written so that
they end at the colon behind them. -/
theorem text_eq_iff
    (hSymbol : Legible (fun _ => True) (· = ':') fun a : σ => (Symbol.text a).toList)
    (hd : d.WellFormed) (he : e.WellFormed) : d.text = e.text ↔ d.Agrees e := by
  constructor
  · intro h
    obtain ⟨hNumbered, hAccepting, hShown⟩ := parts_eq_of_text hSymbol h
    have hStates := (numberedStates_inj hd he).mp hNumbered
    refine ⟨hStates, hAccepting, hd.graph_eq he (congrArg List.length hStates) fun s a t => ?_⟩
    rw [joins_iff_shownRows, joins_iff_shownRows, hShown]
  · intro h
    have hShown : d.shownRows = e.shownRows := by rw [shownRows, h.graph, shownRows]
    rw [text_eq, text_eq, (numberedStates_inj hd he).mpr h.states, h.accepting, hShown]

/-- The table of an automaton over characters or over integers can be read back, whatever the
symbols are: line breaks, blanks, colons and digits too. -/
theorem text_eq_iff_agrees :
    (∀ d e : Dfa Char, d.Constructed → e.Constructed → (d.text = e.text ↔ d.Agrees e)) ∧
      ∀ d e : Dfa Int, d.Constructed → e.Constructed → (d.text = e.text ↔ d.Agrees e) := by
  have hChar : Legible (fun _ => True) (· = ':') fun a : Char => (Symbol.text a).toList :=
    legible_char.mono (fun _ _ => trivial) fun _ _ => trivial
  have hInt : Legible (fun _ => True) (· = ':') fun a : Int => (Symbol.text a).toList :=
    legible_integer.mono (fun _ _ => trivial) (by rintro _ rfl; rfl)
  exact ⟨fun d e hd he => text_eq_iff hChar hd.wellFormed he.wellFormed,
    fun d e hd he => text_eq_iff hInt hd.wellFormed he.wellFormed⟩

/-- The automata for a colon and for a line break have different tables, and so have those for
an integer and for its opposite. -/
theorem text_eq_iff_agrees_colon :
    (∃ d e : Dfa Char, (Fragment.ofEdge 0 0 1 (.symbol ':')).determinize = .ok d ∧
        (Fragment.ofEdge 0 0 1 (.symbol '\n')).determinize = .ok e ∧ d.text ≠ e.text) ∧
      ∃ d e : Dfa Int, (Fragment.ofEdge 0 0 1 (.symbol 1)).determinize = .ok d ∧
        (Fragment.ofEdge 0 0 1 (.symbol (-1))).determinize = .ok e ∧ d.text ≠ e.text := by
  constructor
  · obtain ⟨d, e, hd, he, hMadeD, hMadeE, hNot⟩ := exists_not_agrees
      (Fragment.ofEdge 0 0 1 (.symbol ':')) (Fragment.ofEdge 0 0 1 (.symbol '\n')) [':'] (by rfl)
      (by rfl) (by decide +kernel)
    exact ⟨d, e, hd, he, fun h => hNot ((text_eq_iff_agrees.1 d e hMadeD hMadeE).mp h)⟩
  · obtain ⟨d, e, hd, he, hMadeD, hMadeE, hNot⟩ := exists_not_agrees
      (Fragment.ofEdge 0 0 1 (.symbol (1 : Int))) (Fragment.ofEdge 0 0 1 (.symbol (-1))) [1]
      (by rfl) (by rfl) (by decide +kernel)
    exact ⟨d, e, hd, he, fun h => hNot ((text_eq_iff_agrees.2 d e hMadeD hMadeE).mp h)⟩

end Table

end FiniteAutomata.Dfa
