import FiniteAutomata.Proofs.Fragment.Counting
import FiniteAutomata.Proofs.Workbench.Numbers

/-! Machine counters on the bench. As long as commands leave room in every session, they do with
a machine counter what they do with numbers without end, and a program that ends when a counter
gets too far carries them out to the last. -/
namespace FiniteAutomata.Workbench

open Counting Fragment

variable {σ : Type} [Symbol σ] {w : Workbench σ}

theorem hasRoom_iff : w.HasRoom ↔ ∀ id, (w.session id).HasRoom := by
  constructor
  · intro h id
    rw [Session.HasRoom, session]
    cases hNext : w.counters.get? id with
    | none => exact Nat.zero_le greatest
    | some n => exact h (id, n) (SortedMap.mem_entries_iff.mpr hNext)
  · rintro h ⟨id, n⟩ hEntry
    have hRoom := h id
    rw [Session.HasRoom, session, SortedMap.mem_entries_iff.mp hEntry] at hRoom
    exact hRoom

/-- Room after a session has gone on is room in that session, and in the others. -/
theorem hasRoom_insert {id : Nat} {n : State} :
    ({ w with counters := w.counters.insert id n } : Workbench σ).HasRoom ↔
      n ≤ greatest ∧ ∀ i, i ≠ id → (w.session i).HasRoom := by
  simp only [hasRoom_iff, session_insert]
  constructor
  · intro h
    refine ⟨?_, fun i hi => ?_⟩
    · have hHere := h id
      rw [if_pos rfl] at hHere
      exact hHere
    · have hThere := h i
      rwa [if_neg hi] at hThere
  · rintro ⟨hn, hOthers⟩ i
    split
    next => exact hn
    next hi => exact hOthers i hi

/-- Work in a session leaves room on the bench if it leaves room in the session. -/
theorem countsAlike_build {α : Type} {b : Counting → Build σ α}
    (h : CountsAlike Session.HasRoom b) (id : Nat) :
    CountsAlike HasRoom fun c => build id (b c) := by
  constructor
  · intro w hRoom
    rw [run_build, hasRoom_insert] at hRoom
    refine hasRoom_iff.mpr fun i => ?_
    by_cases hi : i = id
    · exact hi ▸ h.room_of _ hRoom.1
    · exact hRoom.2 i hi
  · intro c hExact w hRoom
    rw [run_build, hasRoom_insert] at hRoom
    rw [run_build, run_build, h.agrees c hExact _ hRoom.1]

/-- Looking at the bench, and taking and storing fragments and automata. -/
theorem countsAlike_of_counters {α : Type} {m : Work σ α}
    (h : ∀ w, (m.run.run w).2.counters = w.counters) : CountsAlike HasRoom fun _ => m :=
  countsAlike_of_room fun w hRoom => by rwa [HasRoom, h w] at hRoom

theorem countsAlike_keep (dest : String) (x : Fragment σ) :
    CountsAlike HasRoom fun _ => keep dest x := countsAlike_of_counters fun _ => rfl

theorem countsAlike_keepAutomaton (dest : String) (d : Dfa σ) :
    CountsAlike HasRoom fun _ => keepAutomaton dest d := countsAlike_of_counters fun _ => rfl

theorem countsAlike_look {α : Type} (look : Workbench σ → Except (Refusal σ) α) :
    CountsAlike HasRoom fun _ => (do liftExcept (look (← get)) : Work σ α) :=
  countsAlike_of_counters fun w => by
    change (StateT.run (ExceptT.run (liftExcept (look w) : Work σ α)) w).2.counters = _
    cases look w <;> rfl

theorem countsAlike_take (name : String) :
    CountsAlike HasRoom fun _ => (take name : Work σ (Fragment σ)) :=
  countsAlike_of_counters fun w => by
    rw [run_take]
    cases w.fragments.get? name <;> rfl

theorem countsAlike_takeOperands (x : String) (y : Option String) :
    CountsAlike HasRoom fun _ => (takeOperands x y : Work σ _) :=
  countsAlike_of_counters fun w => by
    cases y with
    | none =>
        rw [run_takeOperand]
        cases w.fragments.get? x <;> rfl
    | some y =>
        rw [run_takeOperands]
        cases w.fragments.get? x <;> cases w.fragments.get? y <;> try rfl
        all_goals
          dsimp only
          split <;> rfl

theorem countsAlike_junction (junction : Junction) (x : Fragment σ) (y : Option (Fragment σ)) :
    CountsAlike Session.HasRoom fun _ => junction.apply x y := by
  cases junction with
  | concat => exact countsAlike_liftExcept (x.concatMaybe y)
  | union =>
      cases y with
      | none => exact countsAlike_pure x
      | some y => exact countsAlike_union x y

/-- Build a fragment and store it. -/
theorem countsAlike_build_keep {b : Counting → Build σ (Fragment σ)}
    (h : CountsAlike Session.HasRoom b) (id : Nat) (dest : String) :
    CountsAlike HasRoom fun c => build id (b c) >>= keep dest :=
  (countsAlike_build h id).bind (countsAlike_keep dest)

/-- Every command goes the same way with all exact counters. -/
theorem countsAlike_perform (command : Command σ) :
    CountsAlike HasRoom fun _ => perform command := by
  cases command with
  | fresh id =>
      exact (countsAlike_build countsAlike_fresh id).bind fun s =>
        countsAlike_pure (Product.state s)
  | literal id dest a => exact countsAlike_build_keep (countsAlike_ofLabel (.symbol a)) id dest
  | epsilon id dest => exact countsAlike_build_keep (countsAlike_ofLabel .epsilon) id dest
  | compile id dest pattern =>
      cases pattern with
      | error e => exact countsAlike_throw (Refusal.failed (.malformed e))
      | ok p => exact countsAlike_build_keep (countsAlike_ofPattern p) id dest
  | assemble id dest parts =>
      exact (countsAlike_look fun w => w.baseGraph parts.base).bind fun base =>
        countsAlike_build_keep (countsAlike_ofParts (parts.graph base) parts.start parts.final
          parts.alphabet) id dest
  | closure x dest =>
      exact (countsAlike_take x).bind fun x =>
        countsAlike_build_keep (countsAlike_closure x) x.session dest
  | join junction x y dest =>
      exact (countsAlike_takeOperands x y).bind fun operands =>
        countsAlike_build_keep (countsAlike_junction junction operands.1 operands.2)
          operands.1.session dest
  | replicate x dest =>
      exact (countsAlike_look fun w => w.fragment x).bind fun x =>
        countsAlike_build_keep (countsAlike_replicate x) x.session dest
  | determinize x limit dest =>
      refine (countsAlike_look fun w => w.fragment x).bind fun x => ?_
      cases Dfa.ofFragment limit x with
      | ok d => exact countsAlike_keepAutomaton dest d
      | error fault => exact countsAlike_throw (Refusal.failed fault)
  | minimize d dest =>
      exact (countsAlike_look fun w => w.automaton d).bind fun d =>
        countsAlike_keepAutomaton dest d.minimize

/-- Commands that leave room have left room all the time. -/
theorem hasRoom_of_after {cs : List (Command σ)} (h : (@after _ _ unbounded w cs).HasRoom) :
    w.HasRoom := by
  induction cs generalizing w with
  | nil => exact h
  | cons c rest ih =>
      rw [@after_cons _ _ unbounded] at h
      exact (countsAlike_perform c).room_of w (ih h)

section Run

variable [Counting] [Exact]

/-- A command that leaves room when numbers have no end does the same with an exact counter. -/
theorem run_eq_of_room {command : Command σ} (h : (@run _ _ unbounded w command).2.HasRoom) :
    w.run command = @run _ _ unbounded w command :=
  (countsAlike_perform command).agrees _ ‹_› w h

/-- What a program that ends when a counter gets too far answers to a command is what every
exact counter answers. -/
theorem run_eq_of_runChecked {command : Command σ}
    {outcome : Except (Refusal σ) (Product σ) × Workbench σ}
    (h : w.runChecked command = some outcome) : w.run command = outcome := by
  unfold runChecked at h
  dsimp only at h
  split at h
  next hRoom => rw [run_eq_of_room hRoom, Option.some.inj h]
  next => cases h

theorem after_eq_of_room {cs : List (Command σ)} (h : (@after _ _ unbounded w cs).HasRoom) :
    w.after cs = @after _ _ unbounded w cs := by
  induction cs generalizing w with
  | nil => rw [after_nil, @after_nil _ _ unbounded]
  | cons c rest ih =>
      rw [@after_cons _ _ unbounded] at h
      have hFirst : w.run c = @run _ _ unbounded w c := run_eq_of_room (hasRoom_of_after h)
      rw [after_cons, hFirst, ih h, @after_cons _ _ unbounded]

end Run

/-- Commands that count no number that a register cannot hold. -/
def Fits (cs : List (Command σ)) : Prop := (@after σ _ unbounded new cs).HasRoom

instance (cs : List (Command σ)) : Decidable (Fits cs) :=
  instDecidableHasRoom (@after σ _ unbounded new cs)

/-- On a bench to which commands that fit have led, every fragment is made of numbers that its
session has counted. -/
theorem Fits.orderly [Counting] [Exact] {cs : List (Command σ)} (h : Fits cs) :
    (new.after cs : Workbench σ).Orderly := by
  rw [after_eq_of_room h]
  exact orderly_new.after cs

end FiniteAutomata.Workbench
