import Mathlib.Tactic.Ring
import WeightedCnf.Proofs.ChainClauses
import WeightedCnf.Proofs.Valuation

/-! The models of a chain. Its literals are the binary digits of a number, the lowest one first, and
the clauses hold exactly for the largest numbers, as many as prescribed. -/
namespace WeightedCnf
open WeightedCnf.Valuation

namespace Valuation

/-- The number whose binary digits are the values of some literals, the lowest digit first. -/
def number (a : Valuation) : List Literal → Nat
  | [] => 0
  | l :: ls => (a.literal l).toNat + 2 * a.number ls

theorem number_lt (a : Valuation) (ls : List Literal) : a.number ls < 2 ^ ls.length := by
  induction ls with
  | nil => simp [number]
  | cons l ls ih =>
    have hbit := Bool.toNat_le (a.literal l)
    rw [number, List.length_cons, pow_succ]
    omega

theorem testBit_number (a : Valuation) (ls : List Literal) {i : Nat} (h : i < ls.length) :
    (a.number ls).testBit i = a.literal ls[i] := by
  induction ls generalizing i with
  | nil => exact absurd h (Nat.not_lt_zero i)
  | cons l ls ih =>
    cases i with
    | zero => cases hl : a.literal l <;> simp [number, hl]
    | succ i =>
      have hhalf : a.number (l :: ls) / 2 = a.number ls := by
        have hbit := Bool.toNat_le (a.literal l)
        rw [number]
        omega
      rw [Nat.testBit_succ, hhalf, ih (Nat.succ_lt_succ_iff.mp h), List.getElem_cons_succ]

private theorem number_congr {a b : Valuation} {ls : List Literal} (h : ∀ l ∈ ls, a l.var = b l.var) :
    a.number ls = b.number ls := by
  induction ls with
  | nil => rfl
  | cons l ls ih =>
    rw [number, number, literal, literal, h l List.mem_cons_self,
      ih fun k hk => h k (List.mem_cons_of_mem l hk)]

private theorem literal_eq_of_number_eq {a b : Valuation} {ls : List Literal}
    (h : a.number ls = b.number ls) : ∀ l ∈ ls, a.literal l = b.literal l := by
  induction ls with
  | nil => exact fun _ hl => nomatch hl
  | cons l ls ih =>
    have ha := Bool.toNat_le (a.literal l)
    have hb := Bool.toNat_le (b.literal l)
    rw [number, number] at h
    intro k hk
    rcases List.mem_cons.mp hk with rfl | hk
    · rw [Bool.eq_iff_iff, ← Bool.toNat_eq_one, ← Bool.toNat_eq_one]
      omega
    · exact ih (by omega) k hk

private theorem literal_inj {a b : Valuation} {l : Literal} :
    a.literal l = b.literal l ↔ a l.var = b l.var := by
  rw [literal, literal]
  cases a l.var <;> cases b l.var <;> cases l.positive <;> simp

private theorem exists_number {ls : List Literal} (hd : (ls.map Literal.var).Nodup) {n : Nat}
    (hn : n < 2 ^ ls.length) : ∃ a : Valuation, a.number ls = n := by
  induction ls generalizing n with
  | nil => exact ⟨fun _ => false, by simp at hn; simp [number, hn]⟩
  | cons l ls ih =>
    rw [List.map_cons, List.nodup_cons] at hd
    rw [List.length_cons, pow_succ] at hn
    obtain ⟨a, ha⟩ := ih hd.2 (n := n / 2) (by omega)
    refine ⟨Function.update a l.var (decide (n % 2 = 1) == l.positive), ?_⟩
    have hrest : number (Function.update a l.var (decide (n % 2 = 1) == l.positive)) ls = a.number ls := by
      refine number_congr fun k hk => Function.update_of_ne ?_ ..
      exact fun he => hd.1 (he ▸ List.mem_map_of_mem hk)
    have hbit : literal (Function.update a l.var (decide (n % 2 = 1) == l.positive)) l =
        decide (n % 2 = 1) := by
      rw [literal, Function.update_self]
      cases l.positive <;> simp
    rw [number, hrest, hbit, ha]
    rcases Nat.mod_two_eq_zero_or_one n with h | h <;> simp [h] <;> omega

/-- The values of distinct variables are in one-to-one correspondence with the numbers. -/
theorem card_filter_number {ls : List Literal} (hd : (ls.map Literal.var).Nodup) (p : Nat → Prop)
    [DecidablePred p] :
    (Finset.univ.filter fun t : Valuation =>
      t.restrict (ls.map Literal.var).toFinset = t ∧ p (t.number ls)).card =
      ((Finset.range (2 ^ ls.length)).filter p).card := by
  have hmem : ∀ l ∈ ls, l.var ∈ (ls.map Literal.var).toFinset := fun l hl =>
    List.mem_toFinset.mpr (List.mem_map_of_mem hl)
  refine Finset.card_nbij (fun t => t.number ls) ?_ ?_ ?_
  · intro t ht
    obtain ⟨-, -, hp⟩ := Finset.mem_filter.mp (Finset.mem_coe.mp ht)
    exact Finset.mem_coe.mpr (Finset.mem_filter.mpr ⟨Finset.mem_range.mpr (t.number_lt ls), hp⟩)
  · intro t ht u hu h
    obtain ⟨-, ht, -⟩ := Finset.mem_filter.mp (Finset.mem_coe.mp ht)
    obtain ⟨-, hu, -⟩ := Finset.mem_filter.mp (Finset.mem_coe.mp hu)
    rw [← ht, ← hu]
    apply restrict_congr
    intro v hv
    obtain ⟨l, hl, rfl⟩ := List.mem_map.mp (List.mem_toFinset.mp hv)
    exact literal_inj.mp (literal_eq_of_number_eq h l hl)
  · intro n hn
    obtain ⟨hlt, hp⟩ := Finset.mem_filter.mp (Finset.mem_coe.mp hn)
    obtain ⟨a, ha⟩ := exists_number hd (Finset.mem_range.mp hlt)
    have hr : number (a.restrict (ls.map Literal.var).toFinset) ls = n := by
      rw [← ha]
      exact number_congr fun l hl => restrict_of_mem (hmem l hl)
    refine ⟨a.restrict (ls.map Literal.var).toFinset, Finset.mem_coe.mpr (Finset.mem_filter.mpr ?_), hr⟩
    exact ⟨Finset.mem_univ _, restrict_restrict subset_rfl, hr.symm ▸ hp⟩

end Valuation

namespace Chain
variable {a : Valuation} {ls : List Literal} {count : Nat}

/-- Each further digit takes part in an addition of the count to the number, in which the clauses so
far are the carry. -/
private theorem satisfies_extend (clauses : List Clause) (h : count < 2 ^ ls.length) :
    a.satisfies (extend clauses ls count) ↔
      2 ^ ls.length ≤ a.number ls + count + (a.satisfies clauses).toNat := by
  induction ls generalizing clauses count with
  | nil => cases hs : a.satisfies clauses <;> simp_all [extend, number]
  | cons l ls ih =>
    rw [List.length_cons, pow_succ] at h
    rw [extend, number, List.length_cons, pow_succ]
    split
    · have hor : a.satisfies (clauses.map (· ++ [l])) = (a.satisfies clauses || a.literal l) := by
        induction clauses with
        | nil => simp [satisfies]
        | cons c cs ih => simp_all [satisfies, Bool.or_and_distrib_right]
      rw [ih _ (by omega), hor]
      cases a.satisfies clauses <;> cases a.literal l <;> simp <;> omega
    · have hand : a.satisfies (clauses ++ [[l]]) = (a.satisfies clauses && a.literal l) := by
        simp [satisfies]
      rw [ih _ (by omega), hand]
      cases a.satisfies clauses <;> cases a.literal l <;> simp <;> omega

private theorem satisfies_begin (h : count < 2 ^ ls.length) (hpos : 0 < count) :
    a.satisfies (begin ls count) ↔ 2 ^ ls.length ≤ a.number ls + count := by
  induction ls generalizing count with
  | nil => simp at h; omega
  | cons l ls ih =>
    rw [List.length_cons, pow_succ] at h
    rw [begin, number, List.length_cons, pow_succ]
    split
    · rw [satisfies_extend _ (by omega)]
      cases hl : a.literal l <;> simp [satisfies, hl] <;> omega
    · rw [ih (by omega) (by omega)]
      cases a.literal l <;> simp <;> omega

/-- A chain holds for the largest numbers, as many as prescribed. -/
theorem satisfies_clauses {cs : List Clause} (h : clauses ls count = .ok cs) :
    a.satisfies cs ↔ 2 ^ ls.length ≤ a.number ls + count := by
  have hnumber := a.number_lt ls
  obtain ⟨rfl, l, ks, rfl, rfl⟩ | ⟨rfl, rfl⟩ | ⟨hpos, hlt, rfl⟩ := clauses_cases h
  · have hsat : a.satisfies [[l], [-l]] = false := by
      have hneg : a.literal (-l) = !a.literal l := by
        change (a l.var == !l.positive) = !(a l.var == l.positive)
        cases a l.var <;> cases l.positive <;> rfl
      cases hl : a.literal l <;> simp [satisfies, hneg, hl]
    rw [hsat]
    simp only [Bool.false_eq_true, false_iff]
    omega
  · simp [satisfies]
  · exact satisfies_begin hlt hpos

/-- Chains are built whenever there are enough literals, of which no models take one. -/
theorem clauses_ok (h : count ≤ 2 ^ ls.length) (hne : count = 0 → ls ≠ []) :
    ∃ cs, clauses ls count = .ok cs := by
  unfold clauses
  split
  · cases ls with
    | nil => exact absurd rfl (hne ‹count = 0›)
    | cons l ls => exact ⟨_, rfl⟩
  · split
    · exact ⟨_, rfl⟩
    · rw [if_neg (by omega)]
      exact ⟨_, rfl⟩

/-- A chain has no other variables. -/
theorem onlyOver_clauses {p : Variable → Prop} {cs : List Clause} (h : clauses ls count = .ok cs)
    (hl : ∀ l ∈ ls, p l.var) : OnlyOver p cs := by
  obtain ⟨-, l, ks, rfl, rfl⟩ | ⟨-, rfl⟩ | ⟨hpos, hlt, rfl⟩ := clauses_cases h
  · have hvar := hl l List.mem_cons_self
    intro c hc k hk
    rcases List.mem_pair.mp hc with rfl | rfl
    · exact List.mem_singleton.mp hk ▸ hvar
    · exact List.mem_singleton.mp hk ▸ hvar
  · exact fun _ hc => nomatch hc
  · obtain ⟨lowest, -, hbegin⟩ := begin_eq hpos hlt
    intro c hc k hk
    rw [hbegin] at hc
    obtain ⟨b, -, rfl⟩ := List.mem_map.mp hc
    exact hl k (mem_of_mem_clauseAt hk)

theorem count_le {cs : List Clause} (h : clauses ls count = .ok cs) : count ≤ 2 ^ ls.length := by
  obtain ⟨rfl, -⟩ | ⟨rfl, -⟩ | ⟨-, hlt, -⟩ := clauses_cases h
  · exact Nat.zero_le _
  · exact le_rfl
  · exact hlt.le

/-- A chain has at most one clause for each literal. -/
theorem length_clauses_le {cs : List Clause} (h : clauses ls count = .ok cs) (hpos : 0 < count) :
    cs.length ≤ ls.length := by
  obtain ⟨rfl, -⟩ | ⟨-, rfl⟩ | ⟨-, hlt, rfl⟩ := clauses_cases h
  · exact absurd hpos (Nat.lt_irrefl 0)
  · exact Nat.zero_le _
  · exact length_begin_le hpos hlt

end Chain

end WeightedCnf
