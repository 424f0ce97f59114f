/-! Finite sets in canonical form. A set is the strictly ascending list of its
elements, so two sets with the same elements are the same value and may serve
as keys. Main facts: `mem_insert`, `mem_ofList`, and `ext`, which says that the
elements determine the set. -/
namespace FiniteAutomata

/-- A finite set, kept as the ascending list of its elements. -/
structure SortedSet (α : Type) [Ord α] where
  toList : List α
  /-- Every element comes before all later ones, so none occurs twice. -/
  sorted : toList.Pairwise fun a b => compare a b = .lt

namespace SortedSet

variable {α : Type} [Ord α]

instance [DecidableEq α] : DecidableEq (SortedSet α) := fun s t =>
  decidable_of_iff (s.toList = t.toList) (by cases s; cases t; simp)

instance [Repr α] : Repr (SortedSet α) := ⟨fun s n => reprPrec s.toList n⟩

instance : Membership α (SortedSet α) := ⟨fun s a => a ∈ s.toList⟩

instance [DecidableEq α] (a : α) (s : SortedSet α) : Decidable (a ∈ s) :=
  inferInstanceAs (Decidable (a ∈ s.toList))

/-- The set without elements. -/
def empty : SortedSet α := ⟨[], .nil⟩

instance : EmptyCollection (SortedSet α) := ⟨empty⟩

instance : Inhabited (SortedSet α) := ⟨empty⟩

/-- The set with one element. -/
def singleton (a : α) : SortedSet α := ⟨[a], List.pairwise_singleton _ a⟩

theorem toList_inj {s t : SortedSet α} : s.toList = t.toList ↔ s = t := by
  cases s
  cases t
  simp

/-- How many elements the set has. -/
def size (s : SortedSet α) : Nat := s.toList.length

/-- Whether the set has no element. -/
def isEmpty (s : SortedSet α) : Bool := s.toList.isEmpty

/-- Put `a` at its place in an ascending list, unless it is already there. -/
def insertInto (a : α) : List α → List α
  | [] => [a]
  | b :: rest =>
    match compare a b with
    | .lt => a :: b :: rest
    | .eq => b :: rest
    | .gt => b :: insertInto a rest

theorem mem_of_mem_insertInto {a x : α} {l : List α} (h : x ∈ insertInto a l) :
    x = a ∨ x ∈ l := by
  induction l with
  | nil => simpa [insertInto] using h
  | cons b rest ih =>
    unfold insertInto at h
    split at h <;> grind

theorem pairwise_insertInto [Std.TransOrd α] (a : α) {l : List α}
    (h : l.Pairwise fun x y => compare x y = .lt) :
    (insertInto a l).Pairwise fun x y => compare x y = .lt := by
  induction l with
  | nil => exact List.pairwise_singleton _ a
  | cons b rest ih =>
    have hTail := List.pairwise_cons.mp h
    unfold insertInto
    split
    next hLt =>
      refine List.pairwise_cons.mpr ⟨fun x hx => ?_, h⟩
      rcases List.mem_cons.mp hx with rfl | hx
      · exact hLt
      · exact Std.TransCmp.lt_trans hLt (hTail.1 x hx)
    next => exact h
    next hGt =>
      refine List.pairwise_cons.mpr ⟨fun x hx => ?_, ih hTail.2⟩
      rcases mem_of_mem_insertInto hx with rfl | hx
      · exact Std.OrientedCmp.gt_iff_lt.mp hGt
      · exact hTail.1 x hx

variable [Std.TransOrd α]

/-- Add an element. -/
def insert (s : SortedSet α) (a : α) : SortedSet α :=
  ⟨insertInto a s.toList, pairwise_insertInto a s.sorted⟩

/-- Add the elements of a list one after another. -/
def insertAll (s : SortedSet α) (l : List α) : SortedSet α := l.foldl insert s

/-- The set of the elements of a list. -/
def ofList (l : List α) : SortedSet α := insertAll ∅ l

/-- The elements of either set. -/
def union (s t : SortedSet α) : SortedSet α := s.insertAll t.toList

section Laws

variable [Std.LawfulEqOrd α]

omit [Std.TransOrd α] in
theorem mem_insertInto {a x : α} {l : List α} : x ∈ insertInto a l ↔ x = a ∨ x ∈ l := by
  induction l with
  | nil => simp [insertInto]
  | cons b rest ih =>
    unfold insertInto
    split
    next => simp
    next hEq => have := Std.LawfulEqCmp.compare_eq_iff_eq.mp hEq; grind
    next => grind

@[simp]
theorem mem_insert {s : SortedSet α} {a x : α} : x ∈ s.insert a ↔ x = a ∨ x ∈ s :=
  mem_insertInto

@[simp]
theorem mem_insertAll {s : SortedSet α} {l : List α} {x : α} :
    x ∈ s.insertAll l ↔ x ∈ l ∨ x ∈ s := by
  induction l generalizing s with
  | nil => simp [insertAll]
  | cons a rest ih =>
    have := ih (s := s.insert a)
    simp only [insertAll, List.foldl_cons] at this ⊢
    rw [this]
    simp only [mem_insert, List.mem_cons]
    grind

omit [Std.TransOrd α] [Std.LawfulEqOrd α] in
@[simp]
theorem not_mem_empty {x : α} : x ∉ (∅ : SortedSet α) := List.not_mem_nil

omit [Std.TransOrd α] [Std.LawfulEqOrd α] in
@[simp]
theorem mem_singleton {a x : α} : x ∈ singleton a ↔ x = a := List.mem_singleton

omit [Std.TransOrd α] [Std.LawfulEqOrd α] in
@[simp]
theorem mem_toList {s : SortedSet α} {x : α} : x ∈ s.toList ↔ x ∈ s := Iff.rfl

@[simp]
theorem mem_ofList {l : List α} {x : α} : x ∈ ofList l ↔ x ∈ l := by
  simp [ofList]

@[simp]
theorem mem_union {s t : SortedSet α} {x : α} : x ∈ s.union t ↔ x ∈ t ∨ x ∈ s := by
  simp [union]

omit [Std.LawfulEqOrd α] in
theorem nodup (s : SortedSet α) : s.toList.Nodup := by
  refine s.sorted.imp ?_
  rintro a _ h rfl
  simp [Std.ReflCmp.compare_self] at h

omit [Std.LawfulEqOrd α] in
/-- The elements determine the set. -/
theorem ext {s t : SortedSet α} (h : ∀ x, x ∈ s ↔ x ∈ t) : s = t := by
  obtain ⟨l, hl⟩ := s
  obtain ⟨m, hm⟩ := t
  have hPerm : l.Perm m :=
    (List.perm_ext_iff_of_nodup (nodup ⟨l, hl⟩) (nodup ⟨m, hm⟩)).mpr h
  have : l = m := by
    refine hPerm.eq_of_pairwise (fun a b _ _ hab hba => ?_) hl hm
    have hgt := Std.OrientedCmp.gt_iff_lt.mpr hba
    rw [hab] at hgt
    cases hgt
  subst this
  rfl

end Laws

end SortedSet

end FiniteAutomata
