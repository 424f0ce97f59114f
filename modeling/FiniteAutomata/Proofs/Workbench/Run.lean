import FiniteAutomata.Proofs.Outcome
import FiniteAutomata.Workbench

/-! What a command can do to a bench. Either nothing is built, or a fragment is: then the
operands are off the bench, whatever becomes of the work, and the session has moved on. -/
namespace FiniteAutomata.Workbench

variable {σ : Type} [Symbol σ]

/-- The session that a command works in, if there is one. -/
def sessionOf (w : Workbench σ) : Command σ → Option Nat
  | .fresh id => some id
  | .literal id _ _ => some id
  | .epsilon id _ => some id
  | .compile id _ _ => some id
  | .assemble id _ _ => some id
  | .closure x _ => (w.fragments.get? x).map Fragment.session
  | .join _ x _ _ => (w.fragments.get? x).map Fragment.session
  | .replicate x _ => (w.fragments.get? x).map Fragment.session
  | .determinize _ _ _ => none
  | .minimize _ _ => none

/-- A fragment that is to be built: in which session, from which operands, how, and under
which name it will be stored. -/
structure Task (σ : Type) [Symbol σ] where
  session : Nat
  used : List String
  work : Build σ (Fragment σ)
  dest : String

/-- What the commands ask for that build a fragment. -/
inductive Asks (w : Workbench σ) : Command σ → Task σ → Prop where
  | literal (id : Nat) (dest : String) (a : σ) :
      Asks w (.literal id dest a) ⟨id, [], liftM (Fragment.literal a), dest⟩
  | epsilon (id : Nat) (dest : String) :
      Asks w (.epsilon id dest) ⟨id, [], liftM Fragment.epsilon, dest⟩
  | compile (id : Nat) (dest : String) (p : Pattern σ) :
      Asks w (.compile id dest (.ok p)) ⟨id, [], Fragment.ofPattern p, dest⟩
  | assemble (id : Nat) (dest : String) (parts : Parts σ) {base : Graph State (Label σ)}
      (hBase : w.baseGraph parts.base = .ok base) :
      Asks w (.assemble id dest parts)
        ⟨id, [], Fragment.ofParts (parts.graph base) parts.start parts.final parts.alphabet, dest⟩
  | closure {x : String} (dest : String) {f : Fragment σ} (hx : w.fragments.get? x = some f) :
      Asks w (.closure x dest) ⟨f.session, [x], liftM f.closure, dest⟩
  | alone (junction : Junction) {x : String} (dest : String) {f : Fragment σ}
      (hx : w.fragments.get? x = some f) :
      Asks w (.join junction x none dest) ⟨f.session, [x], junction.apply f none, dest⟩
  | join (junction : Junction) {x y : String} (dest : String) {f g : Fragment σ}
      (hx : w.fragments.get? x = some f) (hy : w.fragments.get? y = some g) (hNe : x ≠ y) :
      Asks w (.join junction x (some y) dest)
        ⟨f.session, [x, y], junction.apply f (some g), dest⟩
  | replicate {x : String} (dest : String) {f : Fragment σ} (hx : w.fragments.get? x = some f) :
      Asks w (.replicate x dest) ⟨f.session, [], liftM f.replicate, dest⟩

theorem Asks.sessionOf_eq {w : Workbench σ} {c : Command σ} {task : Task σ} (h : Asks w c task) :
    w.sessionOf c = some task.session := by
  cases h with
  | literal | epsilon | compile | assemble => rfl
  | closure _ hx | alone _ _ hx | join _ _ hx | replicate _ hx =>
      rw [sessionOf, hx]
      rfl

/-- The bench without the operands of a task. -/
def without (w : Workbench σ) (names : List String) : Workbench σ :=
  { w with fragments := names.foldl SortedMap.erase w.fragments }

/-- The bench after work in a session, whose result is stored if there is one. -/
def built (w : Workbench σ) (task : Task σ) : Workbench σ :=
  let outcome := task.work.run.run (w.session task.session)
  { w with
    counters := w.counters.insert task.session outcome.2.next
    fragments :=
      match outcome.1 with
      | .ok x => w.fragments.insert task.dest x
      | .error _ => w.fragments }

section Run

variable (w : Workbench σ)

theorem run_build {α : Type} (id : Nat) (b : Build σ α) : (build id b).run.run w =
    (match (b.run.run (w.session id)).1 with
      | .ok a => .ok a
      | .error fault => .error (.failed fault),
      { w with counters := w.counters.insert id (b.run.run (w.session id)).2.next }) := by
  change StateT.run (ExceptT.run (do
    set { w with counters := w.counters.insert id (b.run.run (w.session id)).2.next }
    match (b.run.run (w.session id)).1 with
    | .ok a => return a
    | .error fault => throw (.failed fault) : Work σ α)) w = _
  cases (b.run.run (w.session id)).1 <;> rfl

theorem run_take (name : String) : (take name).run.run w =
    match w.fragments.get? name with
    | some x => (.ok x, w.without [name])
    | none => (.error (.noFragment name), w) := by
  change StateT.run (ExceptT.run (do
    let x ← (liftExcept (w.fragment name) : Work σ (Fragment σ))
    modify fun w => { w with fragments := w.fragments.erase name }
    return x)) w = _
  rw [fragment]
  cases w.fragments.get? name <;> rfl

theorem run_build_keep (task : Task σ) :
    ((build task.session task.work >>= keep task.dest).run.run w).2 = w.built task := by
  rw [Outcome.run_bind, run_build, built]
  cases (task.work.run.run (w.session task.session)).1 <;> rfl

/-- A command that begins with a look at the bench. -/
theorem run_look_bind {α : Type} (look : Workbench σ → Except (Refusal σ) α)
    (m : α → Work σ (Product σ)) :
    ((do m (← liftExcept (look (← get))) : Work σ (Product σ)).run.run w).2 =
      match look w with
      | .ok a => ((m a).run.run w).2
      | .error _ => w := by
  change (StateT.run (ExceptT.run (liftExcept (look w) >>= m)) w).2 = _
  rw [Outcome.run_bind]
  cases look w <;> rfl

/-- A command that begins with taking a fragment off the bench. -/
theorem run_take_bind (name : String) (m : Fragment σ → Work σ (Product σ)) :
    ((take name >>= m).run.run w).2 =
      match w.fragments.get? name with
      | some x => ((m x).run.run (w.without [name])).2
      | none => w := by
  rw [Outcome.run_bind, run_take]
  cases w.fragments.get? name <;> rfl

theorem run_takeOperand (x : String) : (takeOperands x none).run.run w =
    match w.fragments.get? x with
    | some f => (.ok (f, none), w.without [x])
    | none => (.error (.noFragment x), w) := by
  change StateT.run (ExceptT.run (do
    let _ ← (liftExcept (w.fragment x) : Work σ (Fragment σ))
    return (← take x, none))) w = _
  rw [fragment]
  cases hx : w.fragments.get? x with
  | none => rfl
  | some f =>
      change StateT.run (ExceptT.run (do return (← take x, none))) w = _
      rw [Outcome.run_bind, run_take, hx]
      rfl

/-- Taking two fragments off the bench. If that fails, both are left there. -/
theorem run_takeOperands (x y : String) : (takeOperands x (some y)).run.run w =
    match w.fragments.get? x, w.fragments.get? y with
    | some f, some g =>
      if x = y then (.error .sameFragment, w) else (.ok (f, some g), w.without [x, y])
    | some _, none =>
      if x = y then (.error .sameFragment, w) else (.error (.noFragment y), w)
    | none, _ => (.error (.noFragment x), w) := by
  change StateT.run (ExceptT.run (do
    let _ ← (liftExcept (w.fragment x) : Work σ (Fragment σ))
    if x = y then throw .sameFragment
    let _ ← (liftExcept (w.fragment y) : Work σ (Fragment σ))
    return (← take x, some (← take y)))) w = _
  rw [fragment]
  cases hx : w.fragments.get? x with
  | none => rfl
  | some f =>
      by_cases hEq : x = y
      · simp only [if_pos hEq]
        cases w.fragments.get? y <;> rfl
      · simp only [if_neg hEq]
        rw [fragment]
        cases hy : w.fragments.get? y with
        | none => rfl
        | some g =>
            change StateT.run (ExceptT.run (do
              let f ← (take x : Work σ (Fragment σ))
              let g ← (take y : Work σ (Fragment σ))
              return (f, some g))) w = _
            rw [Outcome.run_bind, run_take, hx]
            change StateT.run (ExceptT.run (do
              let g ← (take y : Work σ (Fragment σ))
              return (f, some g))) (w.without [x]) = _
            rw [Outcome.run_bind, run_take]
            have hLeft : (w.without [x]).fragments.get? y = some g := by
              rw [without, List.foldl_cons, List.foldl_nil, SortedMap.get?_erase,
                if_neg (Ne.symm hEq), hy]
            rw [hLeft]
            rfl

end Run

/-- Store an automaton if it could be made. -/
def keepMade (dest : String) : Except (Fault σ) (Dfa σ) → Work σ (Product σ)
  | .ok d => keepAutomaton dest d
  | .error fault => throw (.failed fault)

/-- What becomes of a bench: a number is handed out, something happens that leaves sessions
and fragments alone, or a fragment is built. -/
inductive Effect (w : Workbench σ) (c : Command σ) : Workbench σ → Prop where
  | fresh {id : Nat} (hc : c = .fresh id) :
      Effect w c { w with counters := w.counters.insert id ((w.session id).next + 1) }
  | other (automata : SortedMap String (Dfa σ)) : Effect w c { w with automata := automata }
  | built {task : Task σ} (asks : Asks w c task) : Effect w c ((w.without task.used).built task)

namespace Effect

variable {w w' : Workbench σ} {c : Command σ}

theorem unchanged (h : w' = w) : Effect w c w' := by
  rw [h]
  exact .other w.automata

theorem of_asks {task : Task σ} (asks : Asks w c task)
    (h : w' = ((build task.session task.work >>= keep task.dest).run.run (w.without task.used)).2) :
    Effect w c w' := by
  rw [h, run_build_keep]
  exact .built asks

theorem assemble (w : Workbench σ) (id : Nat) (dest : String) (parts : Parts σ) :
    Effect w (.assemble id dest parts) (w.run (.assemble id dest parts)).2 := by
  have hRun := run_look_bind w (fun w => w.baseGraph parts.base) fun base =>
    build id (Fragment.ofParts (parts.graph base) parts.start parts.final parts.alphabet) >>=
      keep dest
  cases hBase : w.baseGraph parts.base with
  | error e =>
      rw [hBase] at hRun
      exact unchanged hRun
  | ok base =>
      rw [hBase] at hRun
      exact of_asks (.assemble id dest parts hBase) hRun

theorem closure (w : Workbench σ) (x dest : String) :
    Effect w (.closure x dest) (w.run (.closure x dest)).2 := by
  have hRun := run_take_bind w x fun f => build f.session (liftM f.closure) >>= keep dest
  cases hx : w.fragments.get? x with
  | none =>
      rw [hx] at hRun
      exact unchanged hRun
  | some f =>
      rw [hx] at hRun
      exact of_asks (.closure dest hx) hRun

theorem join (w : Workbench σ) (junction : Junction) (x : String) (y : Option String)
    (dest : String) :
    Effect w (.join junction x y dest) (w.run (.join junction x y dest)).2 := by
  have hRun : (w.run (.join junction x y dest)).2 =
      ((takeOperands x y >>= fun both =>
        build both.1.session (junction.apply both.1 both.2) >>= keep dest).run.run w).2 := rfl
  rw [Outcome.run_bind] at hRun
  cases y with
  | none =>
      rw [run_takeOperand] at hRun
      cases hx : w.fragments.get? x with
      | none =>
          rw [hx] at hRun
          exact unchanged hRun
      | some f =>
          rw [hx] at hRun
          exact of_asks (.alone junction dest hx) hRun
  | some y =>
      rw [run_takeOperands] at hRun
      cases hx : w.fragments.get? x with
      | none =>
          rw [hx] at hRun
          exact unchanged hRun
      | some f =>
          by_cases hSame : x = y
          · cases hy : w.fragments.get? y <;> simp only [hx, hy, if_pos hSame] at hRun <;>
              exact unchanged hRun
          · cases hy : w.fragments.get? y with
            | none =>
                simp only [hx, hy, if_neg hSame] at hRun
                exact unchanged hRun
            | some g =>
                simp only [hx, hy, if_neg hSame] at hRun
                exact of_asks (.join junction dest hx hy hSame) hRun

theorem replicate (w : Workbench σ) (x dest : String) :
    Effect w (.replicate x dest) (w.run (.replicate x dest)).2 := by
  have hRun := run_look_bind w (fun w => w.fragment x) fun f =>
    build f.session (liftM f.replicate) >>= keep dest
  rw [fragment] at hRun
  cases hx : w.fragments.get? x with
  | none =>
      rw [hx] at hRun
      exact unchanged hRun
  | some f =>
      rw [hx] at hRun
      exact of_asks (.replicate dest hx) hRun

theorem determinize (w : Workbench σ) (x : String) (limit : Option Nat) (dest : String) :
    Effect w (.determinize x limit dest) (w.run (.determinize x limit dest)).2 := by
  have hRun := run_look_bind w (fun w => w.fragment x) fun f =>
    keepMade dest (Dfa.ofFragment limit f)
  cases hx : w.fragment x with
  | error e =>
      rw [hx] at hRun
      exact unchanged hRun
  | ok f =>
      rw [hx] at hRun
      cases hd : Dfa.ofFragment limit f with
      | error fault =>
          simp only [hd, keepMade] at hRun
          exact unchanged hRun
      | ok d =>
          simp only [hd, keepMade] at hRun
          rw [show (w.run (.determinize x limit dest)).2 = _ from hRun]
          exact .other (w.automata.insert dest d)

theorem minimize (w : Workbench σ) (d dest : String) :
    Effect w (.minimize d dest) (w.run (.minimize d dest)).2 := by
  have hRun := run_look_bind w (fun w => w.automaton d) fun d => keepAutomaton dest d.minimize
  cases hd : w.automaton d with
  | error e =>
      rw [hd] at hRun
      exact unchanged hRun
  | ok e =>
      rw [hd] at hRun
      rw [show (w.run (.minimize d dest)).2 = _ from hRun]
      exact .other (w.automata.insert dest e.minimize)

end Effect

theorem run_effect (w : Workbench σ) (c : Command σ) : Effect w c (w.run c).2 := by
  cases c with
  | fresh id => exact .fresh rfl
  | literal id dest a => exact .of_asks (.literal id dest a) rfl
  | epsilon id dest => exact .of_asks (.epsilon id dest) rfl
  | compile id dest pattern =>
      cases pattern with
      | error e => exact .unchanged rfl
      | ok p => exact .of_asks (.compile id dest p) rfl
  | assemble id dest parts => exact .assemble w id dest parts
  | closure x dest => exact .closure w x dest
  | join junction x y dest => exact .join w junction x y dest
  | replicate x dest => exact .replicate w x dest
  | determinize x limit dest => exact .determinize w x limit dest
  | minimize d dest => exact .minimize w d dest

end FiniteAutomata.Workbench
