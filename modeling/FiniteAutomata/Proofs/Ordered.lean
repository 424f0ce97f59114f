import FiniteAutomata.Ordered.Classes
import FiniteAutomata.Ordered.Set
import Mathlib.Data.List.Nodup
import Mathlib.Data.List.Perm.Subperm

/-! Facts about ordered sets and about sorting into classes that are not needed to
run anything. The classes of a list hold its elements, each class in the order of the
list, and two elements share a class exactly if they have the same key. -/
namespace FiniteAutomata

namespace SortedSet

variable {α : Type} [Ord α]

theorem isEmpty_iff {s : SortedSet α} : s.isEmpty = true ↔ s = ∅ :=
  List.isEmpty_iff.trans (toList_inj (t := ∅))

theorem eq_empty_iff [Std.TransOrd α] {s : SortedSet α} : s = ∅ ↔ ∀ a, a ∉ s := by
  constructor
  · rintro rfl a
    exact not_mem_empty
  · exact fun hNone => SortedSet.ext fun a => iff_of_false (hNone a) not_mem_empty

theorem size_insert [Std.TransOrd α] [Std.LawfulEqOrd α] {s : SortedSet α} {a : α} (h : a ∉ s) :
    (s.insert a).size = s.size + 1 := by
  have hNodup : (a :: s.toList).Nodup := List.nodup_cons.mpr ⟨h, s.nodup⟩
  have hPerm : (s.insert a).toList.Perm (a :: s.toList) := by
    apply (List.perm_ext_iff_of_nodup (s.insert a).nodup hNodup).mpr
    intro b
    rw [mem_toList, mem_insert, List.mem_cons, mem_toList]
  exact hPerm.length_eq

theorem size_le_of_lt {s : SortedSet Nat} {n : Nat} (h : ∀ i ∈ s, i < n) : s.size ≤ n := by
  have hSubset : s.toList ⊆ List.range n := fun i hi => List.mem_range.mpr (h i hi)
  have hLe := (List.subperm_of_subset s.nodup hSubset).length_le
  rwa [List.length_range] at hLe

theorem union_assoc [Std.TransOrd α] [Std.LawfulEqOrd α] (s t u : SortedSet α) :
    (s.union t).union u = s.union (t.union u) := by
  apply SortedSet.ext
  intro a
  simp only [mem_union, or_assoc]

end SortedSet

section Classes

variable {α κ : Type} [Ord κ] [Std.TransOrd κ] {key : α → κ} {l : List α}

theorem flatten_flatMap_classes_perm (key : α → κ) (p : List (List α)) :
    (p.flatMap (classes key)).flatten.Perm p.flatten := by
  induction p with
  | nil => exact List.Perm.refl _
  | cons g rest ih =>
      rw [List.flatMap_cons, List.flatten_append, List.flatten_cons]
      exact (flatten_classes_perm key g).append ih

theorem length_classes_pos (key : α → κ) (h : l ≠ []) : 0 < (classes key l).length := by
  apply List.length_pos_iff.mpr
  intro hNone
  have hPerm := flatten_classes_perm key l
  rw [hNone] at hPerm
  exact h hPerm.nil_eq.symm

theorem length_le_flatMap_classes (key : α → κ) {p : List (List α)}
    (hNonempty : ∀ g ∈ p, g ≠ []) : p.length ≤ (p.flatMap (classes key)).length := by
  induction p with
  | nil => exact Nat.le_refl _
  | cons g rest ih =>
      have hHead := length_classes_pos key (hNonempty g List.mem_cons_self)
      have hTail := ih fun m hm => hNonempty m (List.mem_cons_of_mem _ hm)
      rw [List.flatMap_cons, List.length_append, List.length_cons]
      omega

variable [Std.LawfulEqOrd κ] [DecidableEq κ]

/-- Under a key stand the elements that have it. -/
theorem getD_keyedClasses (key : α → κ) (l : List α) (k : κ) :
    ((keyedClasses key l).get? k).getD [] = l.filter fun a => decide (key a = k) := by
  induction l with
  | nil => rfl
  | cons a rest ih =>
      rw [keyedClasses, List.foldr_cons, ← keyedClasses, SortedMap.get?_alter]
      by_cases hKey : key a = k
      · subst hKey
        rw [if_pos rfl, ih, Option.getD_some, List.filter_cons_of_pos (by simp)]
      · rw [if_neg (Ne.symm hKey), ih, List.filter_cons_of_neg (by simpa using hKey)]

/-- A class consists of all elements that have the key of one of them. -/
theorem mem_classes_iff {c : List α} :
    c ∈ classes key l ↔ ∃ a ∈ l, c = l.filter fun b => decide (key b = key a) := by
  constructor
  · intro hc
    obtain ⟨a, ha⟩ := List.exists_mem_of_ne_nil c (ne_nil_of_mem_classes hc)
    obtain ⟨⟨k, c⟩, hEntry, rfl⟩ := List.mem_map.mp hc
    have hFilter := getD_keyedClasses key l k
    rw [SortedMap.mem_entries_iff.mp hEntry, Option.getD_some] at hFilter
    simp only [hFilter, List.mem_filter, decide_eq_true_iff] at ha
    obtain ⟨hMem, rfl⟩ := ha
    exact ⟨a, hMem, hFilter⟩
  · intro h
    obtain ⟨a, ha, rfl⟩ := h
    have hFilter := getD_keyedClasses key l (key a)
    cases hClass : (keyedClasses key l).get? (key a) with
    | none =>
        rw [hClass, Option.getD_none] at hFilter
        exact False.elim (List.not_mem_nil (hFilter ▸ List.mem_filter.mpr ⟨ha, decide_eq_true rfl⟩))
    | some c =>
        rw [hClass, Option.getD_some] at hFilter
        rw [← hFilter]
        exact List.mem_map_of_mem (SortedMap.mem_entries_iff.mpr hClass)

theorem sublist_of_mem_classes {c : List α} (h : c ∈ classes key l) : c.Sublist l := by
  obtain ⟨a, -, rfl⟩ := mem_classes_iff.mp h
  exact List.filter_sublist

/-- Two elements share a class exactly if they have the same key. -/
theorem exists_mem_classes_iff {a b : α} :
    (∃ c ∈ classes key l, a ∈ c ∧ b ∈ c) ↔ a ∈ l ∧ b ∈ l ∧ key a = key b := by
  constructor
  · intro h
    obtain ⟨c, hc, ha, hb⟩ := h
    obtain ⟨e, -, rfl⟩ := mem_classes_iff.mp hc
    simp only [List.mem_filter, decide_eq_true_iff] at ha hb
    exact ⟨ha.1, hb.1, ha.2.trans hb.2.symm⟩
  · intro h
    obtain ⟨ha, hb, hEq⟩ := h
    refine ⟨_, mem_classes_iff.mpr ⟨a, ha, rfl⟩, ?_, ?_⟩
    · exact List.mem_filter.mpr ⟨ha, decide_eq_true rfl⟩
    · exact List.mem_filter.mpr ⟨hb, decide_eq_true hEq.symm⟩

/-- A list with a single class is that class. -/
theorem classes_eq_singleton (h : (classes key l).length = 1) : classes key l = [l] := by
  obtain ⟨c, hc⟩ := List.length_eq_one_iff.mp h
  have hPerm := flatten_classes_perm key l
  rw [hc, List.flatten_singleton] at hPerm
  have hMem : c ∈ classes key l := hc ▸ List.mem_singleton_self c
  rw [hc, (sublist_of_mem_classes hMem).eq_of_length hPerm.length_eq]

/-- If sorting every list of a list of lists into classes gives no more lists, then it
gives the same lists. -/
theorem flatMap_classes_eq_self {p : List (List α)} (hNonempty : ∀ g ∈ p, g ≠ [])
    (h : (p.flatMap (classes key)).length ≤ p.length) : p.flatMap (classes key) = p := by
  induction p with
  | nil => rfl
  | cons g rest ih =>
      have hRest : ∀ m ∈ rest, m ≠ [] := fun m hm => hNonempty m (List.mem_cons_of_mem _ hm)
      have hHead := length_classes_pos key (hNonempty g List.mem_cons_self)
      have hTail := length_le_flatMap_classes key hRest
      rw [List.flatMap_cons, List.length_append, List.length_cons] at h
      have hOne : (classes key g).length = 1 := by omega
      have hLe : (rest.flatMap (classes key)).length ≤ rest.length := by omega
      rw [List.flatMap_cons, classes_eq_singleton hOne, ih hRest hLe, List.singleton_append]

end Classes

end FiniteAutomata
