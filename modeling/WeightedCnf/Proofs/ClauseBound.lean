import WeightedCnf.Proofs.KeptLines

/-! A clause takes two characters at least, its zero and what stands behind it. -/
namespace WeightedCnf
open Text.Utf8 (encode encode_append encode_cons)

private theorem Text.Utf8.countP_encode_le (cs : List Char) : (encode cs).countP (·.toNat < 128) ≤ cs.length := by
  induction cs with
  | nil => exact Nat.le_refl _
  | cons c cs ih =>
    rw [encode_cons, List.countP_append, List.length_cons, Nat.add_comm]
    apply Nat.add_le_add ih
    by_cases hc : c.toNat < 128
    · rw [utf8EncodeChar_of_ascii hc]
      exact List.countP_le_length
    · rw [List.countP_eq_zero.mpr fun b hb hascii => ?_]
      · exact Nat.zero_le _
      · rw [decide_eq_true_eq] at hascii
        exact hc ((mem_utf8EncodeChar hascii).mp hb ▸ hascii)

namespace Dimacs

/-- An integer may end the next clause as soon as it has a digit. -/
def Number.credit : Number → Nat
  | .digits _ _ => 1
  | _ => 0

def Mode.credit : Mode → Nat
  | .clauses _ number => number.credit
  | _ => 0

namespace Scanner

/-- Two for each clause, and one for an integer that may end the next one. -/
def progress (s : Scanner) : Nat :=
  2 * s.clauses.size + s.mode.credit

private theorem progress_clauseByte {s s' : Scanner} {startOfLine : Bool} {number : Number} {b : UInt8}
    (h : s.clauseByte startOfLine number b = .ok s') :
    s'.progress ≤ 2 * s.clauses.size + number.credit + if b.toNat < 128 then 1 else 0 := by
  have hdigit {negated : Bool} {magnitude value : Nat} (hb : b ≤ '9'.toUInt8)
      (h : s.digit negated magnitude value = .ok s') :
      s'.progress ≤ 2 * s.clauses.size + number.credit + if b.toNat < 128 then 1 else 0 := by
    unfold digit at h
    split at h
    · cases h
      rw [if_pos (Nat.lt_of_le_of_lt (UInt8.le_iff_toNat_le.mp hb) (by decide))]
      exact Nat.add_le_add_right (Nat.le_add_right _ _) 1
    · cases h
  unfold clauseByte at h
  split at h
  · rename_i hb
    cases number <;> exact hdigit hb.2 h
  split at h
  · cases h
    exact Nat.le_trans (Nat.le_add_right _ _) (Nat.le_add_right _ _)
  split at h
  · rename_i hb
    have hascii : b.toNat < 128 := by
      rcases hb.1 with rfl | rfl | rfl <;> decide
    cases h
    rw [if_pos hascii]
    rcases number with _ | _ | ⟨_, _ | _, _⟩
    · exact Nat.le_add_right _ _
    · exact Nat.le_add_right _ _
    · simp only [progress, endNumber, Array.size_push, Mode.credit, Number.credit]
      omega
    · simp only [progress, endNumber, Mode.credit, Number.credit]
      omega
  split at h
  · cases h
    exact Nat.le_trans (Nat.le_add_right _ _) (Nat.le_add_right _ _)
  split at h
  · cases h
    exact Nat.le_trans (Nat.le_add_right _ _) (Nat.le_add_right _ _)
  · cases h

private theorem progress_feed {s s' : Scanner} {b : UInt8} (h : s.feed b = .ok s') :
    s'.progress ≤ s.progress + if b.toNat < 128 then 1 else 0 := by
  obtain ⟨line, mode, header, literals, clauses⟩ := s
  cases mode with
  | clauses startOfLine number =>
    rw [feed_clauses rfl] at h
    have hprogress := progress_clauseByte h
    exact hprogress
  | comment =>
    have hprogress : s'.progress = 2 * clauses.size := by
      unfold feed at h
      split at h <;> dsimp only at h <;> split at h <;> cases h <;> rfl
    rw [hprogress]
    exact Nat.le_trans (Nat.le_add_right _ _) (Nat.le_add_right _ _)
  | header read =>
    have hprogress : s'.progress = 2 * clauses.size := by
      unfold feed at h
      split at h <;> dsimp only at h <;> split at h
      · obtain ⟨_, -, hs⟩ := bind_eq_ok.mp h
        cases hs
        rfl
      · cases h
        rfl
      · obtain ⟨_, -, hs⟩ := bind_eq_ok.mp h
        cases hs
        rfl
      · cases h
        rfl
    rw [hprogress]
    exact Nat.le_trans (Nat.le_add_right _ _) (Nat.le_add_right _ _)

private theorem progress_scan {s s' : Scanner} {text : List Char} (h : s.scan text = .ok s') :
    s'.progress ≤ s.progress + text.length := by
  refine Nat.le_trans ?_ (Nat.add_le_add_left (Text.Utf8.countP_encode_le text) _)
  rw [scan] at h
  generalize encode text = bytes at h
  induction bytes generalizing s with
  | nil =>
    cases h
    exact Nat.le_refl _
  | cons b bytes ih =>
    rw [List.foldlM_cons] at h
    obtain ⟨s₁, hb, h⟩ := bind_eq_ok.mp h
    have hfeed := progress_feed hb
    have hrest := ih h
    rw [List.countP_cons]
    simp only [decide_eq_true_eq] at hrest ⊢
    omega

end Scanner

/-- The lines of a body that was read have two characters for each of their clauses. -/
theorem BodyReads.two_mul_length_le {body : List Line} {clauses : List Clause}
    (hkept : ∀ line ∈ body, line.IsKept) (h : BodyReads (body.map Line.text) clauses) :
    2 * clauses.length ≤ (body.map Line.size).sum := by
  obtain ⟨s, hscan, -, rfl⟩ := h
  have hrun : ∀ s₀ : Scanner, s₀.mode = .clauses true .none → s₀.scan (unlines (body.map Line.text)) = .ok s →
      s.progress ≤ s₀.progress + (body.map Line.size).sum := by
    clear hscan
    induction body with
    | nil =>
      intro s₀ hm h
      cases h
      exact Nat.le_refl _
    | cons line body ih =>
      intro s₀ hm h
      rw [List.map_cons, unlines, List.flatMap_cons, Scanner.scan_append, ← unlines] at h
      obtain ⟨s₁, hline, h⟩ := bind_eq_ok.mp h
      have hunlines : s₀.scan (unlines [line.text]) = .ok s₁ := by simpa [unlines] using hline
      have hm₁ := Scanner.mode_of_scan_unlines hm hunlines
      have hrest := ih (fun l hl => hkept l (List.mem_cons_of_mem line hl)) s₁ hm₁ h
      have hfirst : s₁.progress ≤ s₀.progress + line.size := by
        cases line with
        | raw text => exact (Scanner.progress_scan hline).trans_eq (by simp [Line.size, Line.text])
        | clause c => exact (hkept _ List.mem_cons_self).elim
        | comment text =>
          have hin := (hkept _ List.mem_cons_self).1
          have hspace : Scanner.IsInline (' ' :: text) := Scanner.isInline_cons.mpr ⟨by simp, hin⟩
          have hcomment := Scanner.scan_comment hm hspace
          cases hline.symm.trans hcomment
          exact Nat.le_refl _
      rw [List.map_cons, List.sum_cons]
      omega
  have hprogress := hrun _ rfl hscan
  have hstart : Scanner.progress { header := some ⟨0, 0⟩ } = 0 := rfl
  have hend : 2 * s.clauses.size ≤ s.progress := Nat.le_add_right _ _
  rw [Array.length_toList]
  omega

end Dimacs
end WeightedCnf
