import FiniteAutomata.State
import Mathlib.Data.List.TakeWhile

/-! Written forms that can be read back. Things are written as rows of tokens, one behind
another: numbers as characters, states as the lines of a drawing. A way of writing is legible
if the whole row determines the thing at its front and what stands behind it, as long as the
next token is of a kind that cannot continue the thing. Lists of legible things are legible,
one after another or with a separator between them. -/
namespace FiniteAutomata

variable {α β τ : Type} {P : α → Prop} {p q first mid next last : τ → Prop}
  {write : α → List τ} {l m r s : List τ}

/-- The first token, if there is one, satisfies `p`. -/
def Begins (p : τ → Prop) (l : List τ) : Prop := ∀ t ∈ l.head?, p t

/-- There is a first token, and it satisfies `p`. -/
def Opens (p : τ → Prop) (l : List τ) : Prop := ∃ t ∈ l.head?, p t

/-- What is written for things with `P` can be read off the front of a row that goes on with
a token for which `next` holds, or not at all. -/
def Legible (P : α → Prop) (next : τ → Prop) (write : α → List τ) : Prop :=
  ∀ ⦃a b : α⦄ ⦃r s : List τ⦄, P a → P b → Begins next r → Begins next s →
    write a ++ r = write b ++ s → a = b ∧ r = s

section Front

theorem begins_nil : Begins p [] := nofun

theorem begins_cons {t : τ} : Begins p (t :: l) ↔ p t := by simp [Begins]

theorem Begins.mono (h : Begins p l) (hImp : ∀ t, p t → q t) : Begins q l :=
  fun t ht => hImp t (h t ht)

theorem Begins.append (hl : Begins p l) (hr : Begins p r) : Begins p (l ++ r) := by
  cases l with
  | nil => exact hr
  | cons t rest => exact hl

theorem begins_flatMap {items : List α} (h : ∀ a ∈ items, Begins p (write a)) :
    Begins p (items.flatMap write) := by
  induction items with
  | nil => exact begins_nil
  | cons a rest ih =>
      rw [List.flatMap_cons]
      exact (h a List.mem_cons_self).append (ih fun b hb => h b (List.mem_cons_of_mem a hb))

theorem Opens.begins (h : Opens p l) : Begins p l := by
  obtain ⟨t, ht, hp⟩ := h
  intro u hu
  cases Option.mem_unique ht hu
  exact hp

theorem Opens.append (h : Opens p l) : Opens p (l ++ r) := by
  obtain ⟨t, ht, hp⟩ := h
  cases l with
  | nil => cases ht
  | cons u rest => exact ⟨t, ht, hp⟩

/-- A row does not open with a token that it may not begin with. -/
theorem Opens.ne (h : Opens p l) (hNot : Begins q r) (hApart : ∀ t, q t → ¬ p t) : r ≠ l := by
  rintro rfl
  obtain ⟨t, ht, hp⟩ := h
  exact hApart t (hNot t ht) hp

end Front

namespace Legible

/-- Nothing needs to stand behind a legible form. -/
theorem inj (h : Legible P next write) {a b : α} (ha : P a) (hb : P b)
    (hEq : write a = write b) : a = b :=
  (h ha hb begins_nil begins_nil (congrArg (· ++ []) hEq)).1

theorem mono {Q : α → Prop} (h : Legible P next write) (hP : ∀ a, Q a → P a)
    (hNext : ∀ t, p t → next t) : Legible Q p write := fun a b _ _ ha hb hr hs hEq =>
  h (hP a ha) (hP b hb) (hr.mono hNext) (hs.mono hNext) hEq

/-- What is written is known from the thing's image under `f`, which determines the thing. -/
theorem comap {γ : Type} {f : γ → α} (h : Legible P next write) (hf : f.Injective) :
    Legible (fun c => P (f c)) next fun c => write (f c) := by
  intro a b r s ha hb hr hs hEq
  obtain ⟨hSame, hRest⟩ := h ha hb hr hs hEq
  exact ⟨hf hSame, hRest⟩

/-- A fixed row in front makes no difference. -/
theorem prepend (h : Legible P next write) (l : List τ) :
    Legible P next fun a => l ++ write a := by
  intro a b r s ha hb hr hs hEq
  rw [List.append_assoc, List.append_assoc] at hEq
  exact h ha hb hr hs (List.append_cancel_left hEq)

/-- A fixed row behind ends the thing, so that anything may follow. -/
theorem append (h : Legible P next write) (l : List τ) (hOpens : Opens next l) :
    Legible P (fun _ => True) fun a => write a ++ l := by
  intro a b r s ha hb _ _ hEq
  rw [List.append_assoc, List.append_assoc] at hEq
  obtain ⟨hSame, hRest⟩ := h ha hb hOpens.append.begins hOpens.append.begins hEq
  exact ⟨hSame, List.append_cancel_left hRest⟩

/-- Two things one behind the other. -/
theorem pair {β : Type} {Q : β → Prop} {writeNext : β → List τ} (h : Legible P next write)
    (hNext : Legible Q last writeNext)
    (hBegins : ∀ b r, Q b → Begins last r → Begins next (writeNext b ++ r)) :
    Legible (fun x : α × β => P x.1 ∧ Q x.2) last fun x => write x.1 ++ writeNext x.2 := by
  intro x y r s hx hy hr hs hEq
  rw [List.append_assoc, List.append_assoc] at hEq
  obtain ⟨hFst, hRest⟩ := h hx.1 hy.1 (hBegins x.2 r hx.2 hr) (hBegins y.2 s hy.2 hs) hEq
  obtain ⟨hSnd, hEnd⟩ := hNext hx.2 hy.2 hr hs hRest
  exact ⟨Prod.ext hFst hSnd, hEnd⟩

/-- Different forms of things are legible if a token that may follow occurs in none of them. -/
theorem of_forall {p : τ → Bool} (hInj : ∀ a b, P a → P b → write a = write b → a = b)
    (hAll : ∀ a, P a → ∀ t ∈ write a, p t = true) :
    Legible P (fun t => p t = false) write := by
  intro a b r s ha hb hr hs hEq
  have hFront : ∀ {c : α} {u : List τ}, P c → Begins (fun t => p t = false) u →
      (write c ++ u).takeWhile p = write c := by
    intro c u hc hu
    rw [List.takeWhile_append_of_pos (hAll c hc)]
    cases u with
    | nil => rw [List.takeWhile_nil, List.append_nil]
    | cons t rest =>
        rw [List.takeWhile_cons_of_neg (by simp [begins_cons.mp hu]), List.append_nil]
  have hSame : write a = write b := by rw [← hFront ha hr, hEq, hFront hb hs]
  refine ⟨hInj a b ha hb hSame, ?_⟩
  rw [hSame] at hEq
  exact List.append_cancel_left hEq

/-- Legible forms one after another, if a token that opens one cannot stand behind the last. -/
theorem flatMap (h : Legible P next write) (first last : τ → Prop)
    (hOpens : ∀ a, P a → Opens first (write a)) (hFirst : ∀ t, first t → next t)
    (hLast : ∀ t, last t → next t ∧ ¬ first t) :
    Legible (fun items : List α => ∀ a ∈ items, P a) last fun items => items.flatMap write := by
  intro items others r s hItems hOthers hr hs hEq
  have hBegins : ∀ {rest : List α} {u : List τ}, (∀ a ∈ rest, P a) → Begins last u →
      Begins next (rest.flatMap write ++ u) := fun hRest hu =>
    (begins_flatMap fun a ha => (hOpens a (hRest a ha)).begins.mono hFirst).append
      (hu.mono fun t ht => (hLast t ht).1)
  have hNever : ∀ {a : α} {rest : List α} {u v : List τ}, P a → Begins last u →
      u ≠ (a :: rest).flatMap write ++ v := fun {a rest u v} ha hu =>
    Opens.ne (l := write a ++ rest.flatMap write ++ v) (hOpens a ha).append.append hu
      fun t ht => (hLast t ht).2
  induction items generalizing others with
  | nil =>
      cases others with
      | nil => exact ⟨rfl, hEq⟩
      | cons b others => exact absurd hEq (hNever (hOthers b List.mem_cons_self) hr)
  | cons a items ih =>
      obtain ⟨ha, hItems⟩ := List.forall_mem_cons.mp hItems
      cases others with
      | nil => exact absurd hEq.symm (hNever ha hs)
      | cons b others =>
          obtain ⟨hb, hLater⟩ := List.forall_mem_cons.mp hOthers
          simp only [List.flatMap_cons, List.append_assoc] at hEq
          obtain ⟨rfl, hRest⟩ := h ha hb (hBegins hItems hr) (hBegins hLater hs) hEq
          obtain ⟨rfl, hEnd⟩ := ih hItems hLater hRest
          exact ⟨rfl, hEnd⟩

/-- Things that stand for one token each, if no such token can stand behind the last. -/
theorem map {f : α → τ} (hf : f.Injective) (first last : τ → Prop) (hFirst : ∀ a, first (f a))
    (hLast : ∀ t, last t → ¬ first t) : Legible (fun _ => True) last (List.map f) := by
  have hOne : Legible (fun _ => True) (fun _ => True) fun a => [f a] :=
    fun _ _ _ _ _ _ _ _ hEq => (List.cons.inj hEq).imp_left fun h => hf h
  have hAll := hOne.flatMap first last (fun a _ => ⟨f a, rfl, hFirst a⟩) (fun _ _ => trivial)
    fun t ht => ⟨trivial, hLast t ht⟩
  intro items others r s _ _ hr hs hEq
  rw [List.map_eq_flatMap, List.map_eq_flatMap] at hEq
  exact hAll (fun _ _ => trivial) (fun _ _ => trivial) hr hs hEq

end Legible

theorem intercalate_cons (sep a : List τ) (rest : List (List τ)) :
    sep.intercalate (a :: rest) = a ++ rest.flatMap (sep ++ ·) := by
  induction rest generalizing a with
  | nil => rw [List.intercalate_singleton, List.flatMap_nil, List.append_nil]
  | cons b rest ih =>
      rw [List.intercalate_cons_cons, ih, List.flatMap_cons, List.append_assoc, List.append_assoc]

/-- Legible forms with a separator between them. -/
theorem Legible.intercalate (h : Legible P next write) (sep : List τ)
    (first mid last : τ → Prop) (hOpens : ∀ a, P a → Opens first (write a)) (hSep : Opens mid sep)
    (hMid : ∀ t, mid t → next t) (hLast : ∀ t, last t → next t ∧ ¬ first t ∧ ¬ mid t) :
    Legible (fun items : List α => ∀ a ∈ items, P a) last fun items =>
      sep.intercalate (items.map write) := by
  intro items others r s hItems hOthers hr hs hEq
  have hTail : Legible (fun rest : List α => ∀ a ∈ rest, P a) last fun rest =>
      rest.flatMap fun a => sep ++ write a :=
    (h.prepend sep).flatMap mid last (fun _ _ => hSep.append) hMid fun t ht =>
      ⟨(hLast t ht).1, (hLast t ht).2.2⟩
  have hBegins : ∀ {rest : List α} {u : List τ}, Begins last u →
      Begins next ((rest.flatMap fun a => sep ++ write a) ++ u) := fun hu =>
    (begins_flatMap fun _ _ => hSep.append.begins.mono hMid).append
      (hu.mono fun t ht => (hLast t ht).1)
  have hNever : ∀ {a : α} {rest : List α} {u v : List τ}, P a → Begins last u →
      u ≠ sep.intercalate ((a :: rest).map write) ++ v := by
    intro a rest u v ha hu
    rw [List.map_cons, intercalate_cons, List.append_assoc]
    exact (hOpens a ha).append.ne hu fun t ht => (hLast t ht).2.1
  cases items with
  | nil =>
      cases others with
      | nil => exact ⟨rfl, hEq⟩
      | cons b others => exact absurd hEq (hNever (hOthers b List.mem_cons_self) hr)
  | cons a items =>
      obtain ⟨ha, hItems⟩ := List.forall_mem_cons.mp hItems
      cases others with
      | nil => exact absurd hEq.symm (hNever ha hs)
      | cons b others =>
          obtain ⟨hb, hLater⟩ := List.forall_mem_cons.mp hOthers
          simp only [List.map_cons, intercalate_cons, List.flatMap_map, List.append_assoc] at hEq
          obtain ⟨rfl, hRest⟩ := h ha hb (hBegins hr) (hBegins hs) hEq
          obtain ⟨rfl, hEnd⟩ := hTail hItems hLater hr hs hRest
          exact ⟨rfl, hEnd⟩

section Text

/-- A character stands for itself. -/
theorem legible_char :
    Legible (fun _ => True) (fun _ => True) fun c : Char => c.toString.toList := by
  intro c d r s _ _ _ _ hEq
  simp only [Char.toString_eq_singleton, String.toList_singleton] at hEq
  exact List.cons.inj hEq

theorem digitChar_inj : ∀ m < 16, ∀ n < 16, Nat.digitChar m = Nat.digitChar n → m = n := by
  decide

/-- Digits in a base of at most sixteen determine the number. -/
theorem toDigits_inj {b m n : Nat} (hb : 1 < b) (hSmall : b ≤ 16)
    (h : Nat.toDigits b m = Nat.toDigits b n) : m = n := by
  induction m using Nat.strongRecOn generalizing n with
  | ind m ih =>
      rw [Nat.toDigits_eq_if (n := m) hb, Nat.toDigits_eq_if (n := n) hb] at h
      split at h
      next hm =>
        split at h
        next hn =>
          exact digitChar_inj m (hm.trans_le hSmall) n (hn.trans_le hSmall) (List.cons.inj h).1
        next =>
          have hLength := congrArg List.length h
          simp [Nat.toDigits_ne_nil] at hLength
      next hm =>
        split at h
        next =>
          have hLength := congrArg List.length h
          simp [Nat.toDigits_ne_nil] at hLength
        next hn =>
          obtain ⟨hFront, hLast⟩ := List.append_inj' h rfl
          have hDiv := ih (m / b) (Nat.div_lt_self (by omega) hb) hFront
          have hMod := digitChar_inj (m % b) ((Nat.mod_lt m (by omega)).trans_le hSmall) (n % b)
            ((Nat.mod_lt n (by omega)).trans_le hSmall) (List.cons.inj hLast).1
          rw [← Nat.div_add_mod m b, hDiv, hMod, Nat.div_add_mod]

theorem toList_toString (n : Nat) : (toString n).toList = Nat.toDigits 10 n := by
  rw [Nat.toString_eq_ofList_toDigits, String.toList_ofList]

theorem isDigit_of_mem_number {n : Nat} {c : Char} (h : c ∈ (toString n).toList) :
    c.isDigit = true := by
  rw [toList_toString] at h
  exact Nat.isDigit_of_mem_toDigits (by decide) (Nat.le_refl 10) h

theorem opens_number (n : Nat) : Opens (fun c => c.isDigit = true) (toString n).toList := by
  cases hText : (toString n).toList with
  | nil =>
      rw [toList_toString] at hText
      exact absurd hText Nat.toDigits_ne_nil
  | cons c rest =>
      refine ⟨c, rfl, isDigit_of_mem_number (n := n) ?_⟩
      rw [hText]
      exact List.mem_cons_self

/-- A number ends where the digits end. -/
theorem legible_number :
    Legible (fun _ => True) (fun c => c.isDigit = false) fun n : Nat => (toString n).toList := by
  refine Legible.of_forall (fun a b _ _ hEq => ?_) fun n _ c hc => isDigit_of_mem_number hc
  rw [toList_toString, toList_toString] at hEq
  exact toDigits_inj (by decide) (by decide) hEq

theorem toList_negSucc (n : Nat) :
    (toString (Int.negSucc n)).toList = '-' :: (toString (n + 1)).toList := by
  rw [show toString (Int.negSucc n) = "-" ++ toString (n + 1) from rfl, String.toList_append]
  rfl

/-- A minus is no digit, so the sign of an integer shows. -/
theorem legible_integer :
    Legible (fun _ => True) (fun c => c.isDigit = false) fun n : Int => (toString n).toList := by
  have hSign : ∀ (m n : Nat) (r s : List Char),
      (toString (Int.ofNat m)).toList ++ r ≠ (toString (Int.negSucc n)).toList ++ s := by
    intro m n r s hEq
    rw [toList_negSucc] at hEq
    have hDigit : Opens (fun c => c.isDigit = true) ('-' :: (toString (n + 1)).toList ++ s) :=
      hEq ▸ (opens_number m).append
    exact absurd (begins_cons.mp hDigit.begins) (by decide)
  intro a b r s _ _ hr hs hEq
  cases a with
  | ofNat m =>
      cases b with
      | ofNat n =>
          obtain ⟨rfl, hRest⟩ := legible_number trivial trivial hr hs hEq
          exact ⟨rfl, hRest⟩
      | negSucc n => exact absurd hEq (hSign m n r s)
  | negSucc m =>
      cases b with
      | ofNat n => exact absurd hEq.symm (hSign n m s r)
      | negSucc n =>
          dsimp only at hEq
          rw [toList_negSucc, toList_negSucc] at hEq
          obtain ⟨hSucc, hRest⟩ := legible_number trivial trivial hr hs (List.cons.inj hEq).2
          exact ⟨congrArg Int.negSucc (Nat.succ.inj hSucc), hRest⟩

/-- The members of a set of states stand between braces. -/
theorem legible_stateSet :
    Legible (fun _ => True) (fun _ => True) fun s : StateSet => s.text.toList := by
  have hMembers : Legible (fun l => ∀ n ∈ l, True) (· = '\x7d') fun l : List Nat =>
      ",".toList.intercalate (l.map fun n => (toString n).toList) :=
    legible_number.intercalate ",".toList _ (· = ',') _ (fun n _ => opens_number n) ⟨',', rfl, rfl⟩
      (by rintro _ rfl; rfl) (by rintro _ rfl; decide)
  intro s t r u _ _ hr hu hEq
  simp only [StateSet.text, String.toList_append, String.toList_intercalate, List.map_map] at hEq
  obtain ⟨hList, hRest⟩ := ((hMembers.prepend "\x7b".toList).append _ ⟨'\x7d', rfl, rfl⟩)
    (fun _ _ => trivial) (fun _ _ => trivial) hr hu hEq
  exact ⟨SortedSet.toList_inj.mp hList, hRest⟩

end Text

end FiniteAutomata
