import Mathlib.Algebra.Ring.Nat
import Mathlib.Data.Fintype.Card
import Mathlib.Data.List.Sort
import WeightedCnf.Chain

/-! The clauses of a chain, read off the binary digits of its count. The lowest digit one begins a
clause, and so does each zero above it; a clause goes on with the ones above its first literal. -/
namespace WeightedCnf.Chain
variable {n count : Nat} {digit : Bool}

/-- The first `n` places with this binary digit of `count`, in ascending order. -/
def places (n count : Nat) (digit : Bool) : List (Fin n) :=
  (List.finRange n).filter fun i : Fin n => count.testBit i == digit

def placesAbove (count : Nat) (digit : Bool) (b : Fin n) : List (Fin n) :=
  (places n count digit).filter (b < ·)

/-- The clause that begins at place `b`. -/
def clauseAt (ls : List Literal) (count : Nat) (b : Fin ls.length) : Clause :=
  (b :: placesAbove count true b).map ls.get

private theorem places_succ : places (n + 1) count digit =
    (if count.testBit 0 = digit then [0] else []) ++ (places n (count / 2) digit).map Fin.succ := by
  have htail : ((List.finRange n).map Fin.succ).filter (fun i : Fin (n + 1) => count.testBit i == digit) =
      (places n (count / 2) digit).map Fin.succ := by
    simp [places, List.filter_map, Function.comp_def, Nat.testBit_succ]
  rw [places, List.finRange_succ, List.filter_cons, htail]
  cases hzero : count.testBit 0 <;> cases digit <;> simp [hzero]

private theorem placesAbove_zero :
    placesAbove count digit (0 : Fin (n + 1)) = (places n (count / 2) digit).map Fin.succ := by
  rw [placesAbove, places_succ]
  split <;> simp [List.filter_map, Function.comp_def]

private theorem placesAbove_succ (b : Fin n) :
    placesAbove count digit b.succ = (placesAbove (count / 2) digit b).map Fin.succ := by
  rw [placesAbove, places_succ]
  split <;> simp [placesAbove, List.filter_map, Function.comp_def]

private theorem pairwise_placesAbove (b : Fin n) : (b :: placesAbove count digit b).Pairwise (· < ·) := by
  refine List.pairwise_cons.mpr ⟨fun i hi => ?_, ?_⟩
  · exact of_decide_eq_true (List.mem_filter.mp hi).2
  · exact ((List.pairwise_lt_finRange n).filter _).filter _

private theorem nodup_placesAbove (b : Fin n) : (b :: placesAbove count digit b).Nodup :=
  (pairwise_placesAbove b).imp ne_of_lt

private theorem length_placesAbove (b : Fin n) : (placesAbove count digit b).length =
    (Finset.univ.filter fun i : Fin n => b < i ∧ count.testBit i = digit).card := by
  rw [← List.toFinset_card_of_nodup (nodup_placesAbove b).of_cons]
  congr 1
  ext i
  simp [placesAbove, places]

private theorem length_placesAbove_lt (b : Fin n) : (placesAbove count digit b).length < n := by
  have hlength : (b :: placesAbove count digit b).length ≤ _ := (nodup_placesAbove b).length_le_card
  rwa [List.length_cons, Fintype.card_fin] at hlength

variable {ls : List Literal} {l : Literal}

-- The length of `l :: ls` is a successor only by unfolding, so `show` brings the equations of places to it.

private theorem clauseAt_zero :
    clauseAt (l :: ls) count 0 = l :: (places ls.length (count / 2) true).map ls.get := by
  rw [clauseAt, show placesAbove count true 0 = _ from placesAbove_zero]
  simp

private theorem clauseAt_succ (b : Fin ls.length) :
    clauseAt (l :: ls) count b.succ = clauseAt ls (count / 2) b := by
  rw [clauseAt, show placesAbove count true b.succ = _ from placesAbove_succ b]
  simp [clauseAt]

private theorem map_clauseAt_succ (bs : List (Fin ls.length)) :
    (bs.map Fin.succ).map (clauseAt (l :: ls) count) = bs.map (clauseAt ls (count / 2)) := by
  rw [List.map_map]
  exact List.map_congr_left fun b _ => clauseAt_succ b

private theorem map_get_places : (places (l :: ls).length count true).map (l :: ls).get =
    (if count % 2 = 1 then [l] else []) ++ (places ls.length (count / 2) true).map ls.get := by
  rw [show places (l :: ls).length count true = _ from places_succ, Nat.testBit_zero, List.map_append,
    List.map_map]
  split <;> simp_all [Function.comp_def]

private theorem map_clauseAt_places : (places (l :: ls).length count false).map (clauseAt (l :: ls) count) =
    (if count % 2 = 1 then [] else [l :: (places ls.length (count / 2) true).map ls.get]) ++
      (places ls.length (count / 2) false).map (clauseAt ls (count / 2)) := by
  rw [show places (l :: ls).length count false = _ from places_succ, Nat.testBit_zero, List.map_append,
    map_clauseAt_succ]
  split <;> simp_all [clauseAt_zero]

/-- The clauses so far go on with all ones, and each zero begins a clause of its own. -/
private theorem extend_eq (cs : List Clause) : extend cs ls count =
    cs.map (· ++ (places ls.length count true).map ls.get) ++
      (places ls.length count false).map (clauseAt ls count) := by
  induction ls generalizing cs count with
  | nil => simp [extend, places]
  | cons l ls ih =>
    rw [extend, map_get_places, map_clauseAt_places]
    split
    case isTrue => simp [ih]
    case isFalse => simp [ih]

/-- The place of the lowest digit one of `count`. -/
structure IsLowestOne (count : Nat) (b : Fin n) : Prop where
  one : count.testBit b = true
  zero : ∀ i < b.val, count.testBit i = false

private theorem IsLowestOne.succ {b : Fin n} (h : IsLowestOne (count / 2) b) (heven : ¬ count % 2 = 1) :
    IsLowestOne count b.succ where
  one := by rw [Fin.val_succ, Nat.testBit_succ, h.one]
  zero i hi := by
    cases i with
    | zero => simp [Nat.testBit_zero, heven]
    | succ i => rw [Nat.testBit_succ, h.zero i (Nat.succ_lt_succ_iff.mp hi)]

/-- The lowest one begins the first clause, and each zero above it one of its own. -/
theorem begin_eq (hpos : 0 < count) (hlt : count < 2 ^ ls.length) :
    ∃ lowest : Fin ls.length, IsLowestOne count lowest ∧
      begin ls count = (lowest :: placesAbove count false lowest).map (clauseAt ls count) := by
  induction ls generalizing count with
  | nil =>
    rw [List.length_nil, pow_zero] at hlt
    omega
  | cons l ls ih =>
    rw [List.length_cons, pow_succ] at hlt
    rw [begin]
    split
    case isTrue hone =>
      refine ⟨0, ⟨by simp [hone], fun i hi => absurd hi (Nat.not_lt_zero i)⟩, ?_⟩
      calc extend [[l]] ls (count / 2)
          = (l :: (places ls.length (count / 2) true).map ls.get) ::
              (places ls.length (count / 2) false).map (clauseAt ls (count / 2)) := extend_eq _
        _ = (0 :: placesAbove count false 0).map (clauseAt (l :: ls) count) := by
          rw [show placesAbove count false 0 = _ from placesAbove_zero, List.map_cons, map_clauseAt_succ,
            clauseAt_zero]
    case isFalse hone =>
      have hhalf : 0 < count / 2 := by omega
      obtain ⟨lowest, hlowest, hbegin⟩ := ih hhalf (by omega)
      refine ⟨lowest.succ, hlowest.succ hone, ?_⟩
      rw [hbegin, show placesAbove count false lowest.succ = _ from placesAbove_succ lowest,
        List.map_cons, List.map_cons, map_clauseAt_succ, clauseAt_succ]

theorem length_begin_le (hpos : 0 < count) (hlt : count < 2 ^ ls.length) :
    (begin ls count).length ≤ ls.length := by
  obtain ⟨lowest, -, hbegin⟩ := begin_eq hpos hlt
  rw [hbegin, List.length_map, List.length_cons]
  exact length_placesAbove_lt lowest

/-- What a chain is for each count. -/
theorem clauses_cases {cs : List Clause} (h : clauses ls count = .ok cs) :
    (count = 0 ∧ ∃ l ks, ls = l :: ks ∧ cs = [[l], [-l]]) ∨
      (count = 2 ^ ls.length ∧ cs = []) ∨
      (0 < count ∧ count < 2 ^ ls.length ∧ cs = begin ls count) := by
  unfold clauses at h
  rw [Nat.one_shiftLeft] at h
  split at h
  case isTrue hzero =>
    cases ls with
    | nil => cases h
    | cons l ks => exact .inl ⟨hzero, l, ks, rfl, (Except.ok.inj h).symm⟩
  case isFalse hzero =>
    split at h
    case isTrue hall => exact .inr (.inl ⟨hall, (Except.ok.inj h).symm⟩)
    case isFalse hall =>
      split at h
      case isTrue => cases h
      case isFalse hle => exact .inr (.inr ⟨by omega, by omega, (Except.ok.inj h).symm⟩)

private theorem clauses_of_lt (hpos : 0 < count) (hlt : count < 2 ^ ls.length) :
    clauses ls count = .ok (begin ls count) := by
  unfold clauses
  rw [Nat.one_shiftLeft, if_neg hpos.ne', if_neg hlt.ne, if_neg hlt.not_gt]

theorem mem_of_mem_clauseAt {b : Fin ls.length} (h : l ∈ clauseAt ls count b) : l ∈ ls := by
  obtain ⟨i, -, rfl⟩ := List.mem_map.mp h
  exact List.get_mem ls i

private theorem nodup_clauseAt (hd : ls.Nodup) (b : Fin ls.length) : (clauseAt ls count b).Nodup :=
  (nodup_placesAbove b).map (List.nodup_iff_injective_get.mp hd)

private theorem length_clauseAt_le (b : Fin ls.length) : (clauseAt ls count b).length ≤ ls.length := by
  rw [clauseAt, List.length_map, List.length_cons]
  exact length_placesAbove_lt b

/-- A chain over distinct literals with some models but not all has a clause for its lowest digit one
and one for each zero above it, in ascending order. Each clause goes on with the literals of the ones
above, in ascending order too. -/
theorem clauses_by_places (hd : ls.Nodup) (hpos : 0 < count) (hlt : count < 2 ^ ls.length) :
    ∃ (lowest : Fin ls.length) (cs : List Clause), IsLowestOne count lowest ∧
      clauses ls count = .ok cs ∧
      cs = (lowest :: placesAbove count false lowest).map
        (fun b => ls.get b :: (placesAbove count true b).map ls.get) ∧
      cs.length = 1 + (Finset.univ.filter fun z => lowest < z ∧ count.testBit z = false).card ∧
      cs.length ≤ ls.length ∧
      ∀ c ∈ cs, c.Nodup ∧ c.length ≤ ls.length := by
  obtain ⟨lowest, hlowest, hbegin⟩ := begin_eq hpos hlt
  refine ⟨lowest, begin ls count, hlowest, clauses_of_lt hpos hlt, hbegin, ?_,
    length_begin_le hpos hlt, fun c hc => ?_⟩
  · rw [hbegin, List.length_map, List.length_cons, length_placesAbove, Nat.add_comm]
  · rw [hbegin] at hc
    obtain ⟨b, -, rfl⟩ := List.mem_map.mp hc
    exact ⟨nodup_clauseAt hd b, length_clauseAt_le b⟩

example (a b c d : Literal) : clauses [a, b, c, d] 10 = .ok [[b, d], [c, d]] := rfl

/-- Four distinct literals, two of them of one variable. -/
def fourDigits : List Literal :=
  [⟨⟨6, by decide⟩, true⟩, ⟨⟨7, by decide⟩, true⟩, ⟨⟨7, by decide⟩, false⟩, ⟨⟨8, by decide⟩, true⟩]

/-- Ten, whose lowest digit is free. -/
theorem clauses_by_places_ten :
    fourDigits.Nodup ∧ 0 < 10 ∧ 10 < 2 ^ fourDigits.length ∧
      ∃ (lowest : Fin fourDigits.length) (cs : List Clause), IsLowestOne 10 lowest ∧
        clauses fourDigits 10 = .ok cs ∧
        cs = (lowest :: placesAbove 10 false lowest).map
          (fun b => fourDigits.get b :: (placesAbove 10 true b).map fourDigits.get) ∧
        cs.length = 1 + (Finset.univ.filter fun z => lowest < z ∧ Nat.testBit 10 z = false).card ∧
        cs.length ≤ fourDigits.length ∧
        ∀ c ∈ cs, c.Nodup ∧ c.length ≤ fourDigits.length :=
  have hd : fourDigits.Nodup := by decide
  have hpos : 0 < 10 := by decide
  have hlt : 10 < 2 ^ fourDigits.length := by decide
  ⟨hd, hpos, hlt, clauses_by_places hd hpos hlt⟩

end WeightedCnf.Chain
