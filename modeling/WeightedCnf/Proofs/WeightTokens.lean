import WeightedCnf.Proofs.Outcomes
import WeightedCnf.Proofs.Weights
import WeightedCnf.Proofs.Words

/-! Which tokens are weights, and of which fractions: two numbers with a slash between them, or a decimal. The numbers
have no signs, and they are read exactly or not at all. -/
namespace WeightedCnf.Weight
open Text.Decimal (digits digitValue isDigit)

/-- The tokens of weights with their numerators and denominators, whatever the size of these. -/
inductive Spells : List Char → Nat → Nat → Prop
  | fraction {ns ds : List Char} (hns : ∀ c ∈ ns, isDigit c = true) (hds : ∀ c ∈ ds, isDigit c = true) :
    Spells (ns ++ '/' :: ds) (Text.Decimal.value ns) (Text.Decimal.value ds)
  | whole {ns : List Char} (hns : ∀ c ∈ ns, isDigit c = true) : Spells ns (Text.Decimal.value ns) 1
  | decimal {ns ps : List Char} (hns : ∀ c ∈ ns, isDigit c = true) (hps : ∀ c ∈ ps, isDigit c = true) :
    Spells (ns ++ '.' :: ps) (Text.Decimal.value (ns ++ ps)) (10 ^ ps.length)

private theorem toInt_ofNat {n : Nat} (h : (n : Int) ≤ largest) : (Int64.ofNat n).toInt = n := by
  have hlargest : largest = 2 ^ 63 - 1 := rfl
  exact Int64.toInt_ofNat_of_lt (by omega)

private theorem eq_ofNats_iff {w : Weight} {num denom : Nat} (hnum : (num : Int) ≤ largest)
    (hdenom : (denom : Int) ≤ largest) :
    ofNats num denom = w ↔ w.num.toInt = num ∧ w.denom.toInt = denom := by
  obtain ⟨n, d⟩ := w
  rw [ofNats, mk.injEq, ← Int64.toInt_inj, ← Int64.toInt_inj, toInt_ofNat hnum, toInt_ofNat hdenom]
  exact and_congr eq_comm eq_comm

theorem isUnsigned_half : half.IsUnsigned := ⟨by decide, by decide⟩

theorem isUnsigned_one : one.IsUnsigned := ⟨by decide, by decide⟩

theorem isUnsigned_invalid : invalid.IsUnsigned := ⟨by decide, by decide⟩

/-- The number that digits stand for behind those of another number. -/
def continued (n : Nat) (cs : List Char) : Nat :=
  cs.foldl (fun n c => 10 * n + digitValue c) n

private theorem le_continued (n : Nat) (cs : List Char) : n ≤ continued n cs := by
  induction cs generalizing n with
  | nil => exact Nat.le_refl n
  | cons c cs ih => exact (by omega : n ≤ 10 * n + digitValue c).trans (ih _)

private theorem continued_append (n : Nat) (cs ds : List Char) :
    continued n (cs ++ ds) = continued (continued n cs) ds :=
  List.foldl_append

variable {token cs rest : List Char} {num denom : Nat} {w : Weight}

private theorem bounded_eq_ok {n m : Nat} : bounded token n = .ok m ↔ (n : Int) ≤ largest ∧ n = m := by
  unfold bounded
  split
  · rename_i hn
    rw [Except.ok.injEq, and_iff_right hn]
  · rename_i hn
    exact ⟨(nomatch ·), fun h => absurd h.1 hn⟩

private theorem bounded_bind_eq_ok {n : Nat} {k : Nat → Except WeightError Weight} :
    bounded token n >>= k = .ok w ↔ (n : Int) ≤ largest ∧ k n = .ok w := by
  rw [bind_eq_ok]
  constructor
  · rintro ⟨m, hm, hk⟩
    obtain ⟨hn, rfl⟩ := bounded_eq_ok.mp hm
    exact ⟨hn, hk⟩
  · rintro ⟨hn, hk⟩
    exact ⟨n, bounded_eq_ok.mpr ⟨hn, rfl⟩, hk⟩

section Digits
variable (hcs : ∀ c ∈ cs, isDigit c = true)
include hcs

/-- A reader that takes digits one by one accepts them if the number of all of them is in range: then so are all numbers
on the way. -/
private theorem digits_eq_ok (t : List Char) (reader : List Char → Nat → Except WeightError Weight)
    (hreader : ∀ c cs n, isDigit c = true → reader (c :: cs) n = bounded t (10 * n + digitValue c) >>= reader cs)
    (hnum : (num : Int) ≤ largest) : reader (cs ++ rest) num = .ok w ↔
      (continued num cs : Int) ≤ largest ∧ reader rest (continued num cs) = .ok w := by
  induction cs generalizing num with
  | nil => exact (and_iff_right hnum).symm
  | cons c cs ih =>
    obtain ⟨hc, hcs⟩ := List.forall_mem_cons.mp hcs
    have hle : 10 * num + digitValue c ≤ continued num (c :: cs) := le_continued (10 * num + digitValue c) cs
    rw [List.cons_append, hreader c _ num hc, bounded_bind_eq_ok]
    constructor
    · rintro ⟨hn, h⟩
      exact (ih hcs hn).mp h
    · rintro ⟨hn, h⟩
      have hn' : ((10 * num + digitValue c : Nat) : Int) ≤ largest := by omega
      exact ⟨hn', (ih hcs hn').mpr ⟨hn, h⟩⟩

private theorem readFraction_numerator (hnum : (num : Int) ≤ largest) :
    readFraction token (cs ++ rest) num denom false = .ok w ↔
      (continued num cs : Int) ≤ largest ∧ readFraction token rest (continued num cs) denom false = .ok w := by
  refine digits_eq_ok hcs token (readFraction token · · denom false) (fun c cs n hc => ?_) hnum
  have hslash : ¬ (c = '/' ∧ (!false) = true) := by
    rintro ⟨rfl, -⟩
    cases hc
  rw [readFraction, if_neg hslash, hc, if_neg (by simp), if_neg (by simp)]

private theorem readFraction_denominator (hdenom : (denom : Int) ≤ largest) :
    readFraction token (cs ++ rest) num denom true = .ok w ↔
      (continued denom cs : Int) ≤ largest ∧ readFraction token rest num (continued denom cs) true = .ok w := by
  refine digits_eq_ok hcs token (readFraction token · num · true) (fun c cs n hc => ?_) hdenom
  rw [readFraction, if_neg (by simp), hc, if_neg (by simp), if_pos rfl]

private theorem readDecimal_whole (hnum : (num : Int) ≤ largest) :
    readDecimal token (cs ++ rest) num denom false = .ok w ↔
      (continued num cs : Int) ≤ largest ∧ readDecimal token rest (continued num cs) denom false = .ok w := by
  refine digits_eq_ok hcs token (readDecimal token · · denom false) (fun c cs n hc => ?_) hnum
  have hpoint : ¬ (c = '.' ∧ (!false) = true) := by
    rintro ⟨rfl, -⟩
    cases hc
  rw [readDecimal, if_neg hpoint, hc, if_neg (by simp)]
  rfl

end Digits

private theorem exists_digits (cs : List Char) : ∃ ns rest, cs = ns ++ rest ∧ (∀ c ∈ ns, isDigit c = true) ∧
    (rest = [] ∨ ∃ c more, rest = c :: more ∧ isDigit c = false) := by
  induction cs with
  | nil => exact ⟨[], [], rfl, List.forall_mem_nil _, .inl rfl⟩
  | cons c cs ih =>
    by_cases hc : isDigit c = true
    · obtain ⟨ns, rest, rfl, hns, hrest⟩ := ih
      exact ⟨c :: ns, rest, rfl, List.forall_mem_cons.mpr ⟨hc, hns⟩, hrest⟩
    · exact ⟨[], c :: cs, rfl, List.forall_mem_nil _, .inr ⟨c, cs, rfl, Bool.eq_false_iff.mpr hc⟩⟩

private theorem readFraction_eq_ok (hdenom : (denom : Int) ≤ largest) :
    readFraction token cs num denom true = .ok w ↔
      (∀ c ∈ cs, isDigit c = true) ∧ (continued denom cs : Int) ≤ largest ∧ ofNats num (continued denom cs) = w := by
  constructor
  · intro h
    obtain ⟨ds, rest, rfl, hds, hrest⟩ := exists_digits cs
    obtain ⟨hd, h⟩ := (readFraction_denominator hds hdenom).mp h
    obtain rfl | ⟨c, more, rfl, hc⟩ := hrest
    · cases h
      rw [List.append_nil]
      exact ⟨hds, hd, rfl⟩
    · rw [readFraction, if_neg (by simp), hc, if_pos (by simp)] at h
      cases h
  · rintro ⟨hcs, hd, rfl⟩
    have hread : readFraction token (cs ++ []) num denom true = .ok _ :=
      (readFraction_denominator hcs hdenom).mpr ⟨hd, rfl⟩
    rwa [List.append_nil] at hread

private theorem readDecimal_eq_ok (hnum : (num : Int) ≤ largest) (hdenom : (denom : Int) ≤ largest) :
    readDecimal token cs num denom true = .ok w ↔
      (∀ c ∈ cs, isDigit c = true) ∧ (continued num cs : Int) ≤ largest ∧
        ((denom * 10 ^ cs.length : Nat) : Int) ≤ largest ∧ ofNats (continued num cs) (denom * 10 ^ cs.length) = w := by
  induction cs generalizing num denom with
  | nil =>
    rw [readDecimal, Except.ok.injEq, List.length_nil, pow_zero, Nat.mul_one]
    exact ⟨fun h => ⟨List.forall_mem_nil _, hnum, hdenom, h⟩, fun h => h.2.2.2⟩
  | cons c cs ih =>
    have hle : 10 * num + digitValue c ≤ continued num (c :: cs) := le_continued (10 * num + digitValue c) cs
    have hpow : denom * 10 ^ (c :: cs).length = 10 * denom * 10 ^ cs.length := by
      rw [List.length_cons, pow_succ', ← Nat.mul_assoc, Nat.mul_comm denom]
    have hle' : 10 * denom ≤ 10 * denom * 10 ^ cs.length := Nat.le_mul_of_pos_right _ (pow_pos (by decide) _)
    rw [readDecimal, if_neg (by simp), List.forall_mem_cons, hpow]
    by_cases hc : isDigit c = true
    · rw [hc, if_neg (by simp), bounded_bind_eq_ok, if_pos rfl, bounded_bind_eq_ok]
      constructor
      · rintro ⟨hn, hd, h⟩
        obtain ⟨hcs, hcontinued, hpower, hw⟩ := (ih hn hd).mp h
        exact ⟨⟨rfl, hcs⟩, hcontinued, hpower, hw⟩
      · rintro ⟨⟨-, hcs⟩, hcontinued, hpower, hw⟩
        have hn : ((10 * num + digitValue c : Nat) : Int) ≤ largest := by omega
        have hd : ((10 * denom : Nat) : Int) ≤ largest := by omega
        exact ⟨hn, hd, (ih hn hd).mpr ⟨hcs, hcontinued, hpower, hw⟩⟩
    · rw [if_pos (by simpa using hc)]
      exact ⟨(nomatch ·), fun h => absurd h.1.1 hc⟩

private theorem notMem_of_digits {c : Char} (hc : isDigit c = false) (hcs : ∀ c ∈ cs, isDigit c = true) : c ∉ cs :=
  fun h => Bool.false_ne_true (hc.symm.trans (hcs c h))

private theorem readFraction_of_spells {ns ds : List Char} (hns : ∀ c ∈ ns, isDigit c = true)
    (hds : ∀ c ∈ ds, isDigit c = true) (hn : (continued 0 ns : Int) ≤ largest) (hd : (continued 0 ds : Int) ≤ largest) :
    readFraction token (ns ++ '/' :: ds) 0 0 false = .ok (ofNats (continued 0 ns) (continued 0 ds)) := by
  have hzero : ((0 : Nat) : Int) ≤ largest := by decide
  rw [readFraction_numerator hns hzero]
  refine ⟨hn, ?_⟩
  rw [readFraction, if_pos ⟨rfl, rfl⟩, readFraction_eq_ok hzero]
  exact ⟨hds, hd, rfl⟩

/-- All digits together are in range, so those in front of the point are. -/
private theorem readDecimal_of_spells {ns ps : List Char} (hns : ∀ c ∈ ns, isDigit c = true)
    (hps : ∀ c ∈ ps, isDigit c = true) (hn : (continued 0 (ns ++ ps) : Int) ≤ largest)
    (hd : ((10 ^ ps.length : Nat) : Int) ≤ largest) :
    readDecimal token (ns ++ '.' :: ps) 0 1 false = .ok (ofNats (continued 0 (ns ++ ps)) (10 ^ ps.length)) := by
  have happend : continued 0 (ns ++ ps) = continued (continued 0 ns) ps := continued_append 0 ns ps
  have hle : continued 0 ns ≤ continued 0 (ns ++ ps) := happend ▸ le_continued _ ps
  have hns' : (continued 0 ns : Int) ≤ largest := (Int.ofNat_le.mpr hle).trans hn
  rw [readDecimal_whole hns (by decide)]
  refine ⟨hns', ?_⟩
  rw [readDecimal, if_pos ⟨rfl, rfl⟩, readDecimal_eq_ok hns' (by decide), ← happend, Nat.one_mul]
  exact ⟨hps, hn, hd, rfl⟩

private theorem spells_of_readFraction (hslash : '/' ∈ token) (h : readFraction token token 0 0 false = .ok w) :
    ∃ n d, Spells token n d ∧ (n : Int) ≤ largest ∧ (d : Int) ≤ largest ∧ ofNats n d = w := by
  obtain ⟨ns, rest, rfl, hns, hrest⟩ := exists_digits token
  obtain ⟨hn, h⟩ := (readFraction_numerator hns (by decide)).mp h
  obtain rfl | ⟨c, ds, rfl, hc⟩ := hrest
  · rw [List.append_nil] at hslash
    exact absurd hslash (notMem_of_digits rfl hns)
  rw [readFraction] at h
  split at h
  · rename_i hsep
    obtain ⟨rfl, -⟩ := hsep
    obtain ⟨hds, hd, rfl⟩ := (readFraction_eq_ok (by decide)).mp h
    exact ⟨_, _, .fraction hns hds, hn, hd, rfl⟩
  · rw [hc, if_pos (by simp)] at h
    cases h

private theorem spells_of_readDecimal (h : readDecimal token token 0 1 false = .ok w) :
    ∃ n d, Spells token n d ∧ (n : Int) ≤ largest ∧ (d : Int) ≤ largest ∧ ofNats n d = w := by
  have hone : ((1 : Nat) : Int) ≤ largest := by decide
  obtain ⟨ns, rest, rfl, hns, hrest⟩ := exists_digits token
  obtain ⟨hn, h⟩ := (readDecimal_whole hns (by decide)).mp h
  obtain rfl | ⟨c, ps, rfl, hc⟩ := hrest
  · cases h
    rw [List.append_nil]
    exact ⟨_, _, .whole hns, hn, hone, rfl⟩
  rw [readDecimal] at h
  split at h
  · rename_i hsep
    obtain ⟨rfl, -⟩ := hsep
    obtain ⟨hps, hn', hd, rfl⟩ := (readDecimal_eq_ok hn hone).mp h
    rw [← continued_append] at hn' ⊢
    rw [Nat.one_mul] at hd ⊢
    exact ⟨_, _, .decimal hns hps, hn', hd, rfl⟩
  · rw [hc, if_pos (by simp)] at h
    cases h

/-- A token is read as a weight if it spells numbers within range, and then as these. -/
theorem read_eq_ok : read token = .ok w ↔ ∃ n d, Spells token n d ∧ (n : Int) ≤ largest ∧ (d : Int) ≤ largest ∧
    ofNats n d = w := by
  unfold read
  constructor
  · intro h
    split at h
    · exact spells_of_readFraction ‹_› h
    · exact spells_of_readDecimal h
  · rintro ⟨n, d, hspells, hn, hd, rfl⟩
    cases hspells with
    | fraction hns hds =>
      rw [if_pos (by simp)]
      exact readFraction_of_spells hns hds hn hd
    | whole hns =>
      have hread : readDecimal token (token ++ []) 0 1 false = .ok _ :=
        (readDecimal_whole hns (by decide)).mpr ⟨hn, rfl⟩
      rw [List.append_nil] at hread
      rw [if_neg (notMem_of_digits rfl hns)]
      exact hread
    | @decimal ns ps hns hps =>
      have hslash : '/' ∉ ns ++ '.' :: ps := by
        simp [notMem_of_digits (c := '/') rfl hns, notMem_of_digits (c := '/') rfl hps]
      rw [if_neg hslash]
      exact readDecimal_of_spells hns hps hn hd

/-- A weight that is read is one of two numbers without signs. -/
theorem isUnsigned_of_read (h : read token = .ok w) : w.IsUnsigned := by
  obtain ⟨n, d, -, hn, hd, hw⟩ := read_eq_ok.mp h
  obtain ⟨hnum, hdenom⟩ := (eq_ofNats_iff hn hd).mp hw
  exact ⟨by omega, by omega⟩

/-- A fraction that is written is read. -/
theorem read_fraction {num denom : Nat} (hnum : num < 2 ^ 63) (hdenom : denom < 2 ^ 63) :
    read (digits num ++ '/' :: digits denom) = .ok (ofNats num denom) := by
  have hlargest : largest = 2 ^ 63 - 1 := rfl
  have hspells : Spells (digits num ++ '/' :: digits denom) (Text.Decimal.value (digits num)) _ :=
    .fraction (fun _ => Text.Decimal.isDigit_of_mem_digits) fun _ => Text.Decimal.isDigit_of_mem_digits
  rw [Text.Decimal.value_digits, Text.Decimal.value_digits] at hspells
  exact read_eq_ok.mpr ⟨num, denom, hspells, by omega, by omega, rfl⟩

/-- A weight without signs is read back from its text. -/
theorem IsUnsigned.read_text (h : w.IsUnsigned) : read w.text = .ok w := by
  have hnum := Int64.toInt_lt w.num
  have hdenom := Int64.toInt_lt w.denom
  obtain ⟨n, hn⟩ := Int.eq_ofNat_of_zero_le h.num
  obtain ⟨d, hd⟩ := Int.eq_ofNat_of_zero_le h.denom
  have hlargest : largest = 2 ^ 63 - 1 := rfl
  have htext : w.text = digits n ++ '/' :: digits d := by
    rw [text, hn, hd]
    rfl
  rw [htext, read_fraction (by omega) (by omega), Except.ok.injEq, eq_ofNats_iff (by omega) (by omega)]
  exact ⟨hn, hd⟩

/-- A token is read as a weight exactly when it spells two numbers that components can hold, and then as the weight of
these; every other token is refused. So a weight without signs is read back from its text. -/
theorem read_exact :
    (∀ token w, read token = .ok w ↔ ∃ n d, Spells token n d ∧ (n : Int) ≤ largest ∧ (d : Int) ≤ largest ∧
      w.num.toInt = n ∧ w.denom.toInt = d) ∧
    (∀ token, (∃ e, read token = .error e) ↔
      ¬ ∃ n d, Spells token n d ∧ (n : Int) ≤ largest ∧ (d : Int) ≤ largest) ∧
    ∀ w : Weight, w.IsUnsigned → read w.text = .ok w := by
  refine ⟨fun token w => ?_, fun token => ?_, fun w hw => hw.read_text⟩
  · rw [read_eq_ok]
    refine exists₂_congr fun n d => and_congr_right fun _ => and_congr_right fun hn => and_congr_right fun hd => ?_
    exact eq_ofNats_iff hn hd
  · constructor
    · rintro ⟨e, he⟩ ⟨n, d, hspells, hn, hd⟩
      cases he.symm.trans (read_eq_ok.mpr ⟨n, d, hspells, hn, hd, rfl⟩)
    · intro hnone
      cases h : read token with
      | error e => exact ⟨e, rfl⟩
      | ok w =>
        obtain ⟨n, d, hspells, hn, hd, -⟩ := read_eq_ok.mp h
        exact absurd ⟨n, d, hspells, hn, hd⟩ hnone

/-- The largest component is read back, and seven tenths with leading zeros are still seven tenths. -/
theorem read_exact_largest : (⟨3, 0x7fffffffffffffff⟩ : Weight).IsUnsigned ∧
    read (⟨3, 0x7fffffffffffffff⟩ : Weight).text = .ok ⟨3, 0x7fffffffffffffff⟩ ∧
    read "000.7".toList = .ok ⟨7, 10⟩ := by
  have hunsigned : (⟨3, 0x7fffffffffffffff⟩ : Weight).IsUnsigned := ⟨by decide, by decide⟩
  have hspells : Spells ("000".toList ++ '.' :: "7".toList) 7 10 :=
    .decimal (List.all_eq_true.mp rfl) (List.all_eq_true.mp rfl)
  exact ⟨hunsigned, read_exact.2.2 _ hunsigned, (read_exact.1 _ _).mpr ⟨7, 10, hspells, by decide⟩⟩

end WeightedCnf.Weight
