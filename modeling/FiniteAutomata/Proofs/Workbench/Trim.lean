import FiniteAutomata.Proofs.Dfa.Trim
import FiniteAutomata.Proofs.Workbench.Numbers

/-! Nothing superfluous on the bench. As long as no fragment is put together from a given
graph, every fragment on the bench is trim: the operations build on trim operands, and the
states that they add are new to them. -/
namespace FiniteAutomata

variable {σ : Type} [Symbol σ]

namespace Fragment

variable {t u : Session} {x y z : Fragment σ}

theorem trim_of_yields_ofLabel {label : Label σ}
    (h : Yields (liftM (ofLabel label) : Build σ (Fragment σ)) t x u) : x.Trim := by
  obtain ⟨rfl, -⟩ := (yields_lift _ t).unique h
  exact trim_ofEdge t.id (Nat.succ_ne_self t.next).symm label

theorem trim_of_yields_ofPattern {p : Pattern σ} (h : Yields (ofPattern p) t x u) : x.Trim := by
  rcases stops_or_builds p t with ⟨feature, v, hRun, -⟩ | ⟨y, v, hYields, built⟩
  · cases hRun.symm.trans h
  · obtain ⟨rfl, -⟩ := hYields.unique h
    exact built.recognizes.toTrim

theorem Trim.of_yields_closure (hx : x.Trim) (hBelongs : x.Belongs t)
    (h : Yields (liftM x.closure : Build σ (Fragment σ)) t z u) : z.Trim := by
  obtain ⟨rfl, -⟩ := (yields_lift _ t).unique h
  obtain ⟨hStart, hFinal⟩ := hBelongs.not_mem_pair
  exact hx.closureBetween hStart hFinal (Nat.succ_ne_self t.next).symm

theorem Trim.of_yields_union (hx : x.Trim) (hy : y.Trim) (hBelongs : x.Belongs t)
    (hOther : x.session = y.session → y.Belongs t) (h : Yields (x.union y) t z u) : z.Trim := by
  obtain ⟨hSession, hApart, rfl⟩ := Fragment.of_yields_union h
  obtain ⟨hStart, hFinal⟩ := hBelongs.not_mem_pair
  obtain ⟨hStart', hFinal'⟩ := (hOther hSession).not_mem_pair
  exact hx.unionBetween hy hApart ⟨hStart, hStart'⟩ ⟨hFinal, hFinal'⟩ (Nat.succ_ne_self _).symm

theorem Trim.of_yields_concat (hx : x.Trim) (hy : y.Trim)
    (h : Yields (liftExcept (x.concat y) : Build σ (Fragment σ)) t z u) : z.Trim := by
  cases hConcat : x.concat y with
  | error f =>
      rw [hConcat] at h
      cases h
  | ok both =>
      obtain ⟨rfl, -⟩ := (yields_liftExcept hConcat t).unique h
      obtain ⟨-, hApart, rfl⟩ := concat_eq_ok_iff.mp hConcat
      exact hx.concatenated hy hApart

theorem Trim.of_yields_replicate (hx : x.Trim)
    (h : Yields (liftM x.replicate : Build σ (Fragment σ)) t z u) : z.Trim := by
  obtain ⟨rfl, -⟩ := (yields_replicate x t).unique h
  exact hx.rename (replica_injective hx.wellFormed t.next)

end Fragment

namespace Workbench

open Fragment

/-- Every fragment on the bench is trim. -/
def AllTrim (w : Workbench σ) : Prop := ∀ name x, w.fragments.get? name = some x → x.Trim

section Step

variable {w w' : Workbench σ} {c : Command σ} {task : Task σ}

/-- What is built from trim fragments is trim. -/
theorem Asks.trim (hw : w.Orderly) (hTrim : w.AllTrim) (hc : c.assembles = false)
    (asks : Asks w c task) {x : Fragment σ} {u : Session}
    (h : Yields task.work (w.session task.session) x u) : x.Trim := by
  cases asks with
  | literal | epsilon => exact trim_of_yields_ofLabel h
  | compile => exact trim_of_yields_ofPattern h
  | assemble => cases hc
  | closure _ hf => exact (hTrim _ _ hf).of_yields_closure (hw _ _ hf) h
  | @alone junction _ _ f hf =>
      cases junction with
      | concat =>
          obtain ⟨rfl, -⟩ := (yields_liftExcept rfl _).unique h
          exact hTrim _ _ hf
      | union =>
          obtain ⟨rfl, -⟩ := (yields_pure f _).unique h
          exact hTrim _ _ hf
  | @join junction _ _ _ f g hf hg _ =>
      cases junction with
      | concat => exact (hTrim _ _ hf).of_yields_concat (hTrim _ _ hg) h
      | union =>
          exact (hTrim _ _ hf).of_yields_union (hTrim _ _ hg) (hw _ _ hf)
            (fun hEq => hEq ▸ hw _ _ hg) h
  | replicate _ hf => exact (hTrim _ _ hf).of_yields_replicate h

theorem Effect.allTrim (hw : w.Orderly) (hTrim : w.AllTrim) (hc : c.assembles = false)
    (h : Effect w c w') : w'.AllTrim := by
  cases h with
  | fresh => exact hTrim
  | other => exact hTrim
  | built asks =>
      intro name x hx
      rcases get?_built hx with ⟨-, hMade⟩ | ⟨-, hOld⟩
      · exact asks.trim hw hTrim hc hMade
      · exact hTrim name x hOld

end Step

section Run

variable {w : Workbench σ}

theorem allTrim_new : (new : Workbench σ).AllTrim := fun _ _ h => nomatch h

theorem AllTrim.after (hTrim : w.AllTrim) (hw : w.Orderly) (cs : List (Command σ))
    (hNone : ∀ c ∈ cs, c.assembles = false) : (w.after cs).AllTrim := by
  induction cs generalizing w with
  | nil => exact hTrim
  | cons c rest ih =>
      obtain ⟨hc, hRest⟩ := List.forall_mem_cons.mp hNone
      exact ih ((run_effect w c).allTrim hw hTrim hc) ((run_effect w c).orderly hw) hRest

/-- If no fragment is put together from a given graph, then every fragment that commands
bring about passes its check and has nothing superfluous: nothing leads into its start state
or out of its final one, its alphabet is what its edges read, and all its states lie on paths
from the start to the final state. So every state of its automaton leads to an accepting one,
and minimizing brings states together but leaves out no state and no edge. -/
theorem trim_of_operations (cs : List (Command σ)) (hNone : ∀ c ∈ cs, c.assembles = false)
    {name : String} {x : Fragment σ} (hx : (new.after cs).fragments.get? name = some x) :
    (x.validate = .ok () ∧ (∀ s l, ¬ x.graph.Joins s l x.start) ∧
      (∀ l t, ¬ x.graph.Joins x.final l t) ∧ x.start ≠ x.final ∧
      (∀ a, a ∈ x.alphabet ↔ ∃ s t, x.graph.Joins s (.symbol a) t) ∧
      ∀ s ∈ x.graph, ∃ v w, x.graph.Path x.start v s ∧ x.graph.Path s w x.final) ∧
    ∃ d, x.determinize = .ok d ∧
      (∀ s < d.size, ∃ word t, d.runFrom s word = some t ∧ t ∈ d.accepting) ∧
      d.kept d.live = List.range d.size ∧
      (∀ s, ((d.graph.arrows s).filter fun b => decide (b.target ∈ d.live)) = d.graph.arrows s) ∧
      ∃ f : State → State, f d.start = d.minimize.start ∧
        (∀ i < d.minimize.size, ∃ s < d.size, f s = i) ∧
        ∀ s < d.size, f s < d.minimize.size ∧
          d.minimize.isAccepting (f s) = d.isAccepting s ∧
          ∀ a, d.minimize.transition (f s) a = (d.transition s a).map f := by
  have hTrim : x.Trim := allTrim_new.after orderly_new cs hNone name x hx
  exact ⟨⟨validate_eq_ok_iff.mpr hTrim.wellFormed, hTrim.no_entry, hTrim.no_exit,
    hTrim.start_ne_final, fun _ => hTrim.mem_alphabet_iff, hTrim.on_path⟩,
    Dfa.exists_determinize_of_trim hTrim⟩

/-- Commands for a fragment of `(ab)*c`. -/
def starredPair : List (Command Char) :=
  [.literal 0 "a" 'a', .literal 0 "b" 'b', .join .concat "a" (some "b") "ab",
    .closure "ab" "abs", .compile 0 "c" (.ok (.literal 'c')),
    .join .concat "abs" (some "c") "all"]

theorem trim_of_operations_starredPair :
    ∃ x, (new.after starredPair).fragments.get? "all" = some x ∧ x.validate = .ok () ∧
      (∀ s l, ¬ x.graph.Joins s l x.start) ∧
      ∃ d, x.determinize = .ok d ∧ d.kept d.live = List.range d.size := by
  have hFound : ∃ x, (new.after starredPair).fragments.get? "all" = some x := ⟨_, rfl⟩
  obtain ⟨x, hx⟩ := hFound
  obtain ⟨⟨hValid, hEntry, -⟩, d, hd, -, hKept, -⟩ :=
    trim_of_operations starredPair (by decide) hx
  exact ⟨x, hx, hValid, hEntry, d, hd, hKept⟩

end Run

end Workbench

end FiniteAutomata
