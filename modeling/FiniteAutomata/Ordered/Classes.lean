import FiniteAutomata.Ordered.Map

/-! Sorting the elements of a list into classes by a key. Nothing is lost and no
class is empty, which is what bounds a repeated splitting. -/
namespace FiniteAutomata

/-- The classes of a list under their keys. Within a class the elements keep their
order. -/
def keyedClasses {α κ : Type} [Ord κ] [Std.TransOrd κ] (key : α → κ) (l : List α) :
    SortedMap κ (List α) :=
  l.foldr (fun a classes => classes.alter (key a) fun old => a :: old.getD []) ∅

/-- The classes of the elements of a list with equal keys, in the order of the keys. -/
def classes {α κ : Type} [Ord κ] [Std.TransOrd κ] (key : α → κ) (l : List α) : List (List α) :=
  (keyedClasses key l).entries.map Prod.snd

section Laws

variable {α κ : Type} [Ord κ] {key : α → κ} {l m : List α}

theorem flatten_alterIn_perm (k : κ) (a : α) (c : List (κ × List α)) :
    ((SortedMap.alterIn k (fun old => a :: old.getD []) c).map Prod.snd).flatten.Perm
      (a :: (c.map Prod.snd).flatten) := by
  induction c with
  | nil => exact List.Perm.refl _
  | cons d rest ih =>
    unfold SortedMap.alterIn
    split
    next => exact List.Perm.refl _
    next => exact List.Perm.refl _
    next =>
      simp only [List.map_cons, List.flatten_cons]
      exact (ih.append_left d.2).trans List.perm_middle

theorem ne_nil_of_mem_alterIn {k : κ} {a : α} {c : List (κ × List α)} (h : ∀ d ∈ c, d.2 ≠ []) :
    ∀ d ∈ SortedMap.alterIn k (fun old => a :: old.getD []) c, d.2 ≠ [] := by
  induction c with
  | nil => simp [SortedMap.alterIn]
  | cons d rest ih =>
    unfold SortedMap.alterIn
    split <;> grind

variable [Std.TransOrd κ]

/-- Sorting into classes loses nothing. -/
theorem flatten_classes_perm (key : α → κ) (l : List α) : (classes key l).flatten.Perm l := by
  induction l with
  | nil => exact List.Perm.refl _
  | cons a rest ih => exact (flatten_alterIn_perm (key a) a _).trans (ih.cons a)

theorem ne_nil_of_mem_keyedClasses : ∀ d ∈ (keyedClasses key l).entries, d.2 ≠ [] := by
  induction l with
  | nil => exact fun d hd => nomatch hd
  | cons a rest ih => exact ne_nil_of_mem_alterIn ih

theorem ne_nil_of_mem_classes (h : m ∈ classes key l) : m ≠ [] := by
  obtain ⟨d, hd, rfl⟩ := List.mem_map.mp h
  exact ne_nil_of_mem_keyedClasses d hd

theorem length_le_length_flatten {α : Type} {c : List (List α)} (h : ∀ l ∈ c, l ≠ []) :
    c.length ≤ c.flatten.length := by
  induction c with
  | nil => exact Nat.le_refl _
  | cons l rest ih =>
    have hHead := List.length_pos_iff.mpr (h l List.mem_cons_self)
    have hTail := ih fun m hm => h m (List.mem_cons_of_mem _ hm)
    simp only [List.length_cons, List.flatten_cons, List.length_append]
    omega

/-- A list of one element has one class. -/
theorem classes_eq_of_length_eq_one (key : α → κ) (h : l.length = 1) : classes key l = [l] := by
  obtain ⟨a, rfl⟩ := List.length_eq_one_iff.mp h
  rfl

end Laws

end FiniteAutomata
