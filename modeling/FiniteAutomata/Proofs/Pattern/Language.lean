import FiniteAutomata.Pattern.Basic
import Mathlib.Computability.Language
import Mathlib.Order.CompletePartialOrder

/-! The words that a pattern describes. The supported patterns are those that say
nothing but what symbols, order, choice and repetition can express. -/
namespace FiniteAutomata.Pattern

open scoped Computability

variable {σ : Type}

/-- The words of a repetition of a language. A greatest number below the least
one counts as the least one. -/
def Quantifier.language (l : Language σ) : Quantifier → Language σ
  | zeroOrOne => l + 1
  | zeroOrMore => l∗
  | oneOrMore => l * l∗
  | exactly n => l ^ n
  | atLeast n => l ^ n * l∗
  | bounded least most => ⨆ k ∈ Set.Icc least (max least most), l ^ k

mutual

/-- The words that a pattern describes. What is not supported describes none. -/
def language : Pattern σ → Language σ
  | .empty => 1
  | .literal a => {[a]}
  | .group _ body => body.language
  | .repetition q _ body => q.language body.language
  | .concat parts => product parts
  | .alternation [] => 1
  | .alternation (branch :: branches) => branch.language + sum branches
  | _ => 0

/-- The words of the patterns of a list one after another. -/
def product : List (Pattern σ) → Language σ
  | [] => 1
  | p :: rest => p.language * product rest

/-- The words of any pattern of a list. -/
def sum : List (Pattern σ) → Language σ
  | [] => 0
  | p :: rest => p.language + sum rest

end

/-- The patterns made of symbols, groups without flags, concatenations,
alternations and repetitions. -/
inductive Supported : Pattern σ → Prop where
  | empty : Supported .empty
  | literal (a : σ) : Supported (.literal a)
  | group {kind : GroupKind} {body : Pattern σ}
      (noFlags : ∀ flags, kind = .plain flags → flags = []) (inner : Supported body) :
      Supported (.group kind body)
  | repetition (q : Quantifier) (greedy : Bool) {body : Pattern σ} (inner : Supported body) :
      Supported (.repetition q greedy body)
  | concat {parts : List (Pattern σ)} (inner : ∀ p ∈ parts, Supported p) :
      Supported (.concat parts)
  | alternation {branches : List (Pattern σ)} (inner : ∀ p ∈ branches, Supported p) :
      Supported (.alternation branches)

theorem product_eq_prod (parts : List (Pattern σ)) : product parts = (parts.map language).prod := by
  induction parts with
  | nil => rw [product, List.map_nil, List.prod_nil]
  | cons p rest ih => rw [product, List.map_cons, List.prod_cons, ih]

/-- Any of `n` words of a language in a row may be passed over. -/
theorem mem_add_one_pow {l : Language σ} {n : Nat} {word : List σ} :
    word ∈ (l + 1) ^ n ↔ ∃ k, k ≤ n ∧ word ∈ l ^ k := by
  induction n generalizing word with
  | zero => simp
  | succ n ih =>
      rw [pow_succ', Language.mem_mul]
      constructor
      · intro h
        obtain ⟨v, hv, w, hw, rfl⟩ := h
        obtain ⟨k, hk, hMem⟩ := ih.mp hw
        rcases (Language.mem_add l 1 v).mp hv with hHere | hOne
        · refine ⟨k + 1, Nat.succ_le_succ hk, ?_⟩
          rw [pow_succ']
          exact Language.append_mem_mul hHere hMem
        · rw [(Language.mem_one v).mp hOne, List.nil_append]
          exact ⟨k, Nat.le_succ_of_le hk, hMem⟩
      · intro h
        obtain ⟨k, hk, hMem⟩ := h
        cases k with
        | zero =>
            have hNil : [] ∈ (l + 1) ^ n := ih.mpr ⟨0, Nat.zero_le n, Language.nil_mem_one⟩
            rw [(Language.mem_one word).mp hMem]
            exact ⟨[], Or.inr Language.nil_mem_one, [], hNil, rfl⟩
        | succ k =>
            rw [pow_succ'] at hMem
            obtain ⟨v, hv, w, hw, rfl⟩ := Language.mem_mul.mp hMem
            exact ⟨v, Or.inl hv, w, ih.mpr ⟨k, Nat.le_of_succ_le_succ hk, hw⟩, rfl⟩

/-- Copies that are needed, followed by copies that may be passed over. -/
theorem pow_mul_add_one_pow (l : Language σ) (least most : Nat) :
    l ^ least * (l + 1) ^ (most - least) = ⨆ k ∈ Set.Icc least (max least most), l ^ k := by
  ext word
  simp only [Language.mem_mul, mem_add_one_pow, Language.mem_iSup, Set.mem_Icc, exists_prop]
  constructor
  · intro h
    obtain ⟨v, hv, w, ⟨k, hk, hw⟩, rfl⟩ := h
    refine ⟨least + k, ⟨Nat.le_add_right least k, by omega⟩, ?_⟩
    rw [pow_add]
    exact Language.append_mem_mul hv hw
  · intro h
    obtain ⟨k, ⟨hLeast, hMost⟩, hMem⟩ := h
    rw [← Nat.add_sub_cancel' hLeast, pow_add] at hMem
    obtain ⟨v, hv, w, hw, rfl⟩ := Language.mem_mul.mp hMem
    exact ⟨v, hv, w, ⟨k - least, by omega, hw⟩, rfl⟩

end FiniteAutomata.Pattern
