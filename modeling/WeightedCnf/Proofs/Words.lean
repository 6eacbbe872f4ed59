import Mathlib.Data.List.Basic
import WeightedCnf.Formula.Writing
import WeightedCnf.Text.Blank

/-! Words and numbers in text. Words that are written with one space between them are told apart
again, and a number that is written is read back. -/
namespace WeightedCnf
namespace Text

namespace Decimal

theorem isDigit_iff {c : Char} : isDigit c = true ↔ 48 ≤ c.toNat ∧ c.toNat ≤ 57 := by
  rw [isDigit, Bool.and_eq_true, decide_eq_true_eq, decide_eq_true_eq]
  exact Iff.rfl

theorem isDigit_of_mem_digits {n : Nat} {c : Char} (h : c ∈ digits n) : isDigit c = true := by
  have hd := Nat.isDigit_of_mem_toDigits (by decide) (by decide) h
  rw [Char.isDigit, Bool.and_eq_true, decide_eq_true_eq, decide_eq_true_eq] at hd
  exact isDigit_iff.mpr hd

theorem digits_ne_nil {n : Nat} : digits n ≠ [] := Nat.toDigits_ne_nil

theorem value_digits (n : Nat) : value (digits n) = n := by
  rw [value, digits]
  exact Nat.ofDigitChars_eq_foldl.symm.trans Nat.ofDigitChars_ten_toDigits

theorem read?_digits (n : Nat) : read? (digits n) = some n := by
  have hall : (digits n).all isDigit = true := List.all_eq_true.mpr fun _ hc => isDigit_of_mem_digits hc
  have hne : (digits n).isEmpty = false := by
    rw [List.isEmpty_eq_false_iff]
    exact digits_ne_nil
  rw [read?, hall, hne, value_digits]
  rfl

theorem readInt?_ofInt (n : Int) : readInt? (ofInt n) = some n := by
  cases n with
  | ofNat n =>
    have hread := read?_digits n
    rw [ofInt]
    obtain ⟨c, cs, hc⟩ := List.exists_cons_of_ne_nil (digits_ne_nil (n := n))
    have hne : c ≠ '-' := by
      rintro rfl
      have hd := isDigit_of_mem_digits (n := n) (c := '-') (hc ▸ List.mem_cons_self)
      exact absurd hd (by decide)
    rw [hc] at hread ⊢
    rw [readInt?, hread]
    · rfl
    · intro ds hds
      exact hne (List.cons.inj hds).1
  | negSucc n =>
    rw [ofInt, readInt?, read?_digits]
    rfl

theorem mem_ofInt {n : Int} {c : Char} (h : c ∈ ofInt n) : isDigit c = true ∨ c = '-' := by
  cases n with
  | ofNat n => exact .inl (isDigit_of_mem_digits h)
  | negSucc n =>
    rcases List.mem_cons.mp h with rfl | h
    · exact .inr rfl
    · exact .inl (isDigit_of_mem_digits h)

end Decimal

def IsWord (word : List Char) : Prop :=
  word ≠ [] ∧ ∀ c ∈ word, isBlank c = false

theorem isWord_of_all {word : List Char} (hne : word ≠ []) (h : word.all (isBlank · == false) = true) :
    IsWord word := by
  refine ⟨hne, fun c hc => ?_⟩
  rw [List.all_eq_true] at h
  exact eq_of_beq (h c hc)

private def split (text : List Char) : List Char × List (List Char) :=
  text.foldr (fun c (word, others) =>
    if isBlank c then ([], consWord word others) else (c :: word, others)) ([], [])

private theorem words_eq (text : List Char) : words text = consWord (split text).1 (split text).2 := rfl

private theorem split_cons (c : Char) (text : List Char) :
    split (c :: text) =
      if isBlank c then ([], words text) else (c :: (split text).1, (split text).2) := by
  unfold split
  rw [List.foldr_cons]
  rfl

private theorem split_blank {c : Char} (h : isBlank c = true) (text : List Char) :
    split (c :: text) = ([], words text) := by
  rw [split_cons, if_pos h]

private theorem split_append {word : List Char} (h : ∀ c ∈ word, isBlank c = false) (text : List Char) :
    split (word ++ text) = (word ++ (split text).1, (split text).2) := by
  induction word with
  | nil => rfl
  | cons c cs ih =>
    have hc := h c List.mem_cons_self
    rw [List.cons_append, split_cons, hc, ih fun d hd => h d (List.mem_cons_of_mem c hd)]
    rfl

theorem words_blank {c : Char} (h : isBlank c = true) (text : List Char) :
    words (c :: text) = words text := by
  rw [words_eq, split_blank h]
  rfl

theorem words_word {word : List Char} (h : IsWord word) : words word = [word] := by
  have hs := split_append h.2 []
  rw [List.append_nil] at hs
  rw [words_eq, hs]
  simp [split, consWord, h.1]

theorem words_word_blank {word : List Char} (h : IsWord word) {c : Char} (hc : isBlank c = true)
    (text : List Char) : words (word ++ c :: text) = word :: words text := by
  rw [words_eq, split_append h.2, split_blank hc]
  simp [consWord, h.1]

theorem isWord_digits (n : Nat) : IsWord (Decimal.digits n) := by
  refine ⟨Decimal.digits_ne_nil, fun c hc => ?_⟩
  obtain ⟨h, h'⟩ := Decimal.isDigit_iff.mp (Decimal.isDigit_of_mem_digits hc)
  simp only [isBlank]
  grind

theorem isWord_ofInt (n : Int) : IsWord (Decimal.ofInt n) := by
  cases n with
  | ofNat n => exact isWord_digits n
  | negSucc n =>
    refine ⟨List.cons_ne_nil _ _, fun c hc => ?_⟩
    rcases List.mem_cons.mp hc with rfl | hc
    · decide
    · exact (isWord_digits (n + 1)).2 c hc

end Text

theorem unwords_cons_cons (w v : List Char) (ws : List (List Char)) :
    unwords (w :: v :: ws) = w ++ ' ' :: unwords (v :: ws) := by
  simp [unwords, List.intercalate]

theorem unwords_singleton (w : List Char) : unwords [w] = w := by
  simp [unwords, List.intercalate]

/-- Words that are written with spaces between them are told apart again. -/
theorem words_unwords {ws : List (List Char)} (h : ∀ w ∈ ws, Text.IsWord w) :
    Text.words (unwords ws) = ws := by
  induction ws with
  | nil => rfl
  | cons w ws ih =>
    have hw := h w List.mem_cons_self
    cases ws with
    | nil => rw [unwords_singleton, Text.words_word hw]
    | cons v vs =>
      rw [unwords_cons_cons, Text.words_word_blank hw (by decide),
        ih fun u hu => h u (List.mem_cons_of_mem w hu)]

theorem unwords_append_singleton {ws : List (List Char)} (h : ws ≠ []) (w : List Char) :
    unwords (ws ++ [w]) = unwords ws ++ ' ' :: w := by
  induction ws with
  | nil => exact absurd rfl h
  | cons v vs ih =>
    cases vs with
    | nil => rw [List.singleton_append, unwords_cons_cons, unwords_singleton, unwords_singleton]
    | cons u us =>
      have hrest := ih (List.cons_ne_nil u us)
      rw [List.cons_append] at hrest
      rw [List.cons_append, List.cons_append, unwords_cons_cons, unwords_cons_cons, hrest, List.append_assoc,
        List.cons_append]

theorem unwords_concat_space {ws : List (List Char)} (h : ws ≠ []) :
    unwords ws ++ [' '] = ws.flatMap (· ++ [' ']) := by
  induction ws with
  | nil => exact absurd rfl h
  | cons w ws ih =>
    cases ws with
    | nil => simp [unwords, List.intercalate]
    | cons v vs =>
      rw [unwords_cons_cons, List.append_assoc, List.cons_append, ih (List.cons_ne_nil v vs)]
      simp

end WeightedCnf
