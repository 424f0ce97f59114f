/-! Finite maps in canonical form. A map is the list of its entries with strictly
ascending keys, so equality of maps is equality of these lists. Main facts:
`get?_alter`, `get?_erase` and `get?_absorb` say what each operation does to a
lookup, and `ext` says that the lookups determine the map. -/
namespace FiniteAutomata

/-- A finite map, kept as the list of its entries in ascending order of keys. -/
structure SortedMap (κ ν : Type) [Ord κ] where
  entries : List (κ × ν)
  /-- Every key comes before all later ones, so none occurs twice. -/
  sorted : entries.Pairwise fun a b => compare a.1 b.1 = .lt

namespace SortedMap

variable {κ ν : Type} [Ord κ]

instance [DecidableEq κ] [DecidableEq ν] : DecidableEq (SortedMap κ ν) := fun m n =>
  decidable_of_iff (m.entries = n.entries) (by cases m; cases n; simp)

instance [Repr κ] [Repr ν] : Repr (SortedMap κ ν) := ⟨fun m n => reprPrec m.entries n⟩

/-- The map without entries. -/
def empty : SortedMap κ ν := ⟨[], .nil⟩

instance : EmptyCollection (SortedMap κ ν) := ⟨empty⟩

instance : Inhabited (SortedMap κ ν) := ⟨empty⟩

/-- The keys in ascending order. -/
def keys (m : SortedMap κ ν) : List κ := m.entries.map Prod.fst

/-- How many entries the map has. -/
def size (m : SortedMap κ ν) : Nat := m.entries.length

/-- Whether the map has no entry. -/
def isEmpty (m : SortedMap κ ν) : Bool := m.entries.isEmpty

/-- The value stored for a key. -/
def get? [DecidableEq κ] (m : SortedMap κ ν) (k : κ) : Option ν := m.entries.lookup k

/-- Replace the value of `k` in an ascending list of entries by `f` of it, or
put a new entry for `k` at its place. -/
def alterIn (k : κ) (f : Option ν → ν) : List (κ × ν) → List (κ × ν)
  | [] => [(k, f none)]
  | (j, v) :: rest =>
    match compare k j with
    | .lt => (k, f none) :: (j, v) :: rest
    | .eq => (j, f (some v)) :: rest
    | .gt => (j, v) :: alterIn k f rest

theorem key_of_mem_alterIn {k : κ} {f : Option ν → ν} {l : List (κ × ν)} {e : κ × ν}
    (h : e ∈ alterIn k f l) : e.1 = k ∨ e.1 ∈ l.map Prod.fst := by
  induction l with
  | nil => simp [alterIn] at h; simp [h]
  | cons d rest ih =>
    unfold alterIn at h
    split at h <;> grind

theorem pairwise_alterIn [Std.TransOrd κ] (k : κ) (f : Option ν → ν) {l : List (κ × ν)}
    (h : l.Pairwise fun a b => compare a.1 b.1 = .lt) :
    (alterIn k f l).Pairwise fun a b => compare a.1 b.1 = .lt := by
  induction l with
  | nil => exact List.pairwise_singleton _ _
  | cons d rest ih =>
    have hTail := List.pairwise_cons.mp h
    unfold alterIn
    split
    next hLt =>
      refine List.pairwise_cons.mpr ⟨fun x hx => ?_, h⟩
      rcases List.mem_cons.mp hx with rfl | hx
      · exact hLt
      · exact Std.TransCmp.lt_trans hLt (hTail.1 x hx)
    next => exact List.pairwise_cons.mpr ⟨fun x hx => hTail.1 x hx, hTail.2⟩
    next hGt =>
      refine List.pairwise_cons.mpr ⟨fun x hx => ?_, ih hTail.2⟩
      rcases key_of_mem_alterIn hx with hKey | hKey
      · rw [hKey]
        exact Std.OrientedCmp.gt_iff_lt.mp hGt
      · obtain ⟨e, he, hKey⟩ := List.mem_map.mp hKey
        rw [← hKey]
        exact hTail.1 e he

section Operations

variable [Std.TransOrd κ]

/-- Set the value of `k` to `f` of its present value. -/
def alter (m : SortedMap κ ν) (k : κ) (f : Option ν → ν) : SortedMap κ ν :=
  ⟨alterIn k f m.entries, pairwise_alterIn k f m.sorted⟩

/-- Set the value of `k`. -/
def insert (m : SortedMap κ ν) (k : κ) (v : ν) : SortedMap κ ν := m.alter k fun _ => v

/-- Take over every entry of `n`; where both maps have a key, `n` decides. -/
def absorb (m n : SortedMap κ ν) : SortedMap κ ν :=
  n.entries.foldl (fun m e => m.insert e.1 e.2) m

omit [Std.TransOrd κ] in
/-- The map without the entry of `k`. -/
def erase [DecidableEq κ] (m : SortedMap κ ν) (k : κ) : SortedMap κ ν :=
  ⟨m.entries.filter (·.1 ≠ k), m.sorted.filter _⟩

end Operations

/-- The map from each number below `n` to its value under `f`. -/
def tabulate (n : Nat) (f : Nat → ν) : SortedMap Nat ν where
  entries := (List.range n).map fun i => (i, f i)
  sorted := by
    refine List.Pairwise.map _ (fun a b h => ?_) List.pairwise_lt_range
    exact Nat.compare_eq_lt.mpr h

section Laws

variable [DecidableEq κ]

omit [Ord κ] in
theorem lookup_cons_ite (i k : κ) (v : ν) (l : List (κ × ν)) :
    ((i, v) :: l).lookup k = if k = i then some v else l.lookup k := by
  by_cases h : k = i
  · simp [h]
  · simp [List.lookup_cons, h, beq_false_of_ne h]

theorem get?_erase (m : SortedMap κ ν) (k j : κ) :
    (m.erase k).get? j = if j = k then none else m.get? j := by
  obtain ⟨l, h⟩ := m
  simp only [get?, erase]
  clear h
  induction l with
  | nil => simp
  | cons d rest ih =>
    obtain ⟨i, v⟩ := d
    by_cases hik : i = k
    · rw [List.filter_cons_of_neg (by simpa using hik), ih, lookup_cons_ite]
      grind
    · rw [List.filter_cons_of_pos (by simpa using hik), lookup_cons_ite, lookup_cons_ite, ih]
      grind

theorem mem_keys_iff {m : SortedMap κ ν} {k : κ} : k ∈ m.keys ↔ (m.get? k).isSome := by
  obtain ⟨l, h⟩ := m
  simp only [keys, get?]
  clear h
  induction l with
  | nil => simp
  | cons d rest ih =>
    obtain ⟨i, w⟩ := d
    by_cases hki : k = i <;> simp_all [lookup_cons_ite]

omit [Ord κ] [DecidableEq κ] in
theorem get?_tabulate (n : Nat) (f : Nat → ν) (i : Nat) :
    (tabulate n f).get? i = if i < n then some (f i) else none := by
  simp only [tabulate, get?]
  induction n with
  | zero => simp
  | succ n ih =>
    rw [List.range_succ, List.map_append, List.lookup_append, ih]
    simp only [List.map_cons, List.map_nil, lookup_cons_ite, List.lookup_nil]
    grind

variable [Std.TransOrd κ]

theorem lookup_eq_none_of_lt {l : List (κ × ν)} {k : κ}
    (h : ∀ e ∈ l, compare k e.1 = .lt) : l.lookup k = none := by
  rw [List.lookup_eq_none_iff]
  intro e he
  have hLt := h e he
  simp only [bne_iff_ne, ne_eq]
  rintro rfl
  simp [Std.ReflCmp.compare_self] at hLt

omit [DecidableEq κ] in
theorem nodup_entries (m : SortedMap κ ν) : m.entries.Nodup := by
  refine m.sorted.imp ?_
  rintro a _ h rfl
  simp [Std.ReflCmp.compare_self] at h

/-- The entries are exactly the lookups. -/
theorem mem_entries_iff {m : SortedMap κ ν} {k : κ} {v : ν} :
    (k, v) ∈ m.entries ↔ m.get? k = some v := by
  obtain ⟨l, h⟩ := m
  simp only [get?]
  induction l with
  | nil => simp
  | cons d rest ih =>
    obtain ⟨i, w⟩ := d
    have hTail := List.pairwise_cons.mp h
    have := ih hTail.2
    rw [List.mem_cons, lookup_cons_ite]
    by_cases hki : k = i
    · subst hki
      have hNone := lookup_eq_none_of_lt hTail.1
      have hAbsent : (k, v) ∉ rest := fun hMem => by simp [this.mp hMem] at hNone
      simp only [Prod.mk.injEq, true_and, if_pos, hAbsent, or_false, Option.some.injEq]
      exact eq_comm
    · simp [hki, this]

/-- The lookups determine the map. -/
theorem ext {m n : SortedMap κ ν} (h : ∀ k, m.get? k = n.get? k) : m = n := by
  have hMem : ∀ e, e ∈ m.entries ↔ e ∈ n.entries := fun ⟨k, v⟩ => by
    rw [mem_entries_iff, mem_entries_iff, h]
  have hPerm := (List.perm_ext_iff_of_nodup (nodup_entries m) (nodup_entries n)).mpr hMem
  have hEq : m.entries = n.entries := by
    refine hPerm.eq_of_pairwise (fun a b _ _ hab hba => ?_) m.sorted n.sorted
    have hgt := Std.OrientedCmp.gt_iff_lt.mpr hba
    rw [hab] at hgt
    cases hgt
  cases m
  cases n
  simpa using hEq

variable [Std.LawfulEqOrd κ]

theorem lookup_alterIn {k j : κ} {f : Option ν → ν} {l : List (κ × ν)}
    (h : l.Pairwise fun a b => compare a.1 b.1 = .lt) :
    (alterIn k f l).lookup j = if j = k then some (f (l.lookup k)) else l.lookup j := by
  induction l with
  | nil => simp [alterIn, lookup_cons_ite]
  | cons d rest ih =>
    obtain ⟨i, v⟩ := d
    have hTail := List.pairwise_cons.mp h
    unfold alterIn
    split
    next hLt =>
      have hNone : List.lookup k ((i, v) :: rest) = none := by
        apply lookup_eq_none_of_lt
        intro e he
        rcases List.mem_cons.mp he with rfl | he
        · exact hLt
        · exact Std.TransCmp.lt_trans hLt (hTail.1 e he)
      rw [hNone, lookup_cons_ite]
    next hEq =>
      have hki := Std.LawfulEqCmp.compare_eq_iff_eq.mp hEq
      subst hki
      simp only [lookup_cons_ite]
      grind
    next hGt =>
      have hne : k ≠ i := by
        rintro rfl
        simp [Std.ReflCmp.compare_self] at hGt
      simp only [lookup_cons_ite, ih hTail.2]
      grind

theorem get?_alter (m : SortedMap κ ν) (k j : κ) (f : Option ν → ν) :
    (m.alter k f).get? j = if j = k then some (f (m.get? k)) else m.get? j :=
  lookup_alterIn m.sorted

theorem get?_insert (m : SortedMap κ ν) (k j : κ) (v : ν) :
    (m.insert k v).get? j = if j = k then some v else m.get? j :=
  get?_alter m k j _

theorem get?_absorb (m n : SortedMap κ ν) (k : κ) :
    (m.absorb n).get? k = (n.get? k).or (m.get? k) := by
  obtain ⟨l, h⟩ := n
  simp only [absorb, get?]
  induction l generalizing m with
  | nil => simp
  | cons d rest ih =>
    obtain ⟨i, w⟩ := d
    have hTail := List.pairwise_cons.mp h
    have hInsert := get?_insert m i k w
    simp only [get?] at hInsert ih
    rw [List.foldl_cons, ih (m.insert i w) hTail.2, lookup_cons_ite, hInsert]
    by_cases hki : k = i
    · subst hki
      rw [lookup_eq_none_of_lt hTail.1]
      simp
    · simp [hki]

end Laws

end SortedMap

end FiniteAutomata
