import WeightedCnf.Proofs.AcceptedTexts

/-! What is read of a text does not depend on where the text starts: only the places in complaints do. So behind some
items reading goes on as if what they say had been known at the first byte that is left. -/
namespace WeightedCnf

/-- The same bytes are left, from whatever place on. -/
def SameRest (s t : PlainStream) : Prop :=
  s.rest = t.rest

namespace PlainStream

/-- Plain streams answer from the bytes that are left; complaints may name different places. -/
private theorem matching_sameRest : Matching (fun _ _ => True) SameRest SameRest SameRest where
  looked _ _ h := h
  failed _ _ h := h
  place _ _ _ _ := trivial
  unread _ _ h := congrArg List.length h
  peek s t h := by
    change SameResult _ _ _ (.ok s.rest.head? s) (.ok t.rest.head? t)
    rw [show s.rest = t.rest from h]
    exact .ok h
  pass s t h := by
    change s.pass.rest = t.pass.rest
    rw [rest_pass, rest_pass, show s.rest = t.rest from h]
  unread_pass s t b t' _ hpeek := by
    obtain ⟨rest, position⟩ := t
    cases rest with
    | nil => cases hpeek
    | cons c cs =>
      cases hpeek
      exact Nat.lt_succ_self _

private theorem agree_passPrefix_sameRest (bytes : List UInt8) :
    Agree (fun _ _ => True) SameRest SameRest SameRest (PlainStream.passPrefix bytes) (PlainStream.passPrefix bytes) := by
  intro s t h
  by_cases hstarts : bytes <+: s.rest
  · obtain ⟨rest, hrest⟩ := hstarts
    rw [ByteStream.passPrefix_of_prefix s hrest.symm, ByteStream.passPrefix_of_prefix t (h.symm.trans hrest.symm)]
    exact .ok rfl
  · have hstarts' : ¬ bytes <+: t.rest := by rwa [← show s.rest = t.rest from h]
    rw [ByteStream.passPrefix_of_not_prefix s hstarts, ByteStream.passPrefix_of_not_prefix t hstarts']
    exact .ok h

end PlainStream

instance {ε : Type} : Std.Refl (Stop.Resembles (ε := ε)) where
  refl
    | .fault cause => .fault cause
    | .error cause => .error cause cause

namespace Reading
variable {σ τ : Type}

private theorem file_sameRest {fuel fuel' : Nat} {r r' : Reader PlainStream} (h : Readers SameRest r r')
    (hfuel : r.stream.rest.length < fuel) (hfuel' : r.stream.rest.length < fuel') :
    SameResult Stop.Resembles (Readers fun _ _ => True) (Readers SameRest) (file fuel r) (file fuel' r') := by
  have hrelaying : Relaying (fun _ _ => True) Stop.Resembles SameRest := by
    refine ⟨fun e e' _ => .error _ _, fun l e e' he => ?_, fun s t e e' _ he => ?_⟩
    · cases he with
      | fault cause => exact .fault cause
      | error => exact .error _ _
    · cases he with
      | fault cause => exact .fault cause
      | error => exact .error _ _
  rw [file_congr_fuel hfuel hfuel']
  exact agree_file PlainStream.matching_sameRest hrelaying
    (fun bytes _ => PlainStream.agree_passPrefix_sameRest bytes) fuel' r r' h

def conclusion : EStateM.Result (Stop FormulaError) (Reader σ) Unit → Except Fault Formula
  | .ok () r => .ok { r.formula with format := r.format }
  | .error (.error _) r => .ok { r.formula.setCounts 0 0 with format := r.format }
  | .error (.fault cause) _ => .error cause

private theorem conclusion_congr {E S : σ → τ → Prop} {x : EStateM.Result (Stop FormulaError) (Reader σ) Unit}
    {y : EStateM.Result (Stop FormulaError) (Reader τ) Unit}
    (h : SameResult Stop.Resembles (Readers E) (Readers S) x y) : conclusion x = conclusion y := by
  cases h with
  | ok h => simp only [conclusion, h.formula, h.format]
  | error hstop h =>
    cases hstop with
    | fault cause => rfl
    | error => simp only [conclusion, h.formula, h.format]

end Reading

def Logged.value {ε α : Type} : EStateM.Result ε Log α → Except ε α
  | .ok a _ => .ok a
  | .error e _ => .error e

namespace Formula
variable {source : Source} {format : WeightFormat} {left : List UInt8} {is : List Item}

private theorem value_readFrom {σ : Type} [ByteStream σ] (stream : σ) (format : WeightFormat) (log : Log) :
    Logged.value (readFrom stream format log) =
      Reading.conclusion (Reading.file (ByteStream.unread stream + 1) { stream, format, log }) := by
  rw [readFrom]
  generalize Reading.file (ByteStream.unread stream + 1) { stream, format, log } = x
  cases x with
  | ok u r => rfl
  | error stop r =>
    cases stop with
    | error e => rfl
    | fault cause => rfl

def readAfter (is : List Item) (left : List UInt8) (format : WeightFormat) : Except Fault Formula :=
  match Reading.items is (.atStart format) with
  | .ok () d => Reading.conclusion
      (Reading.file (left.length + 1) ⟨(⟨left, {}⟩ : PlainStream), d.format, d.formula, d.log⟩)
  | .error stop d => Reading.conclusion (.error stop d)

/-- A text that starts with items is read by dealing with these and reading what is left from its first byte on. -/
theorem value_parse (hending : source.ending = .endOfInput)
    (his : ItemsBefore left format.context source.content is) :
    Logged.value (parse source format #[]) = readAfter is left format := by
  have hstart : Readers (Leaves source.content) ({ stream := ⟨source.content, {}⟩, format } : Reader PlainStream)
      (.atStart format) := ⟨rfl, rfl, rfl, rfl⟩
  have his' : ItemsBefore left (Reader.atStart format).context source.content is := his
  have hlength := his.length_le
  obtain ⟨fuel, hfuel⟩ := Nat.exists_eq_add_of_le (show is.length + left.length + 1 ≤ source.content.length + 1 by omega)
  have hsplit : ByteStream.unread (⟨source.content, {}⟩ : PlainStream) + 1 = is.length + (left.length + 1 + fuel) := by
    change source.content.length + 1 = _
    omega
  obtain ⟨hread, hstopped⟩ := Reading.file_itemsBefore his' hstart (left.length + 1 + fuel)
  rw [parse_eq_readFrom hending, value_readFrom, hsplit, readAfter]
  cases hitems : Reading.items is (.atStart format) with
  | ok u d =>
    obtain ⟨r, hr, hfile⟩ := hread d hitems
    rw [hfile]
    refine Reading.conclusion_congr (Reading.file_sameRest { hr with stream := hr.stream } ?_ ?_)
    · rw [show r.stream.rest = left from hr.stream]
      omega
    · rw [show r.stream.rest = left from hr.stream]
      omega
  | error stop d =>
    obtain ⟨stop', r, hstop, hr, hfile⟩ := hstopped stop d hitems
    rw [hfile]
    exact Reading.conclusion_congr (S := fun _ _ => True) (.error hstop hr)

end Formula
end WeightedCnf
