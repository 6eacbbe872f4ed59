import WeightedCnf.Proofs.FailingStreams
import WeightedCnf.Proofs.KeptLines
import WeightedCnf.Proofs.ParsedFormulas
import WeightedCnf.Run.Process

/-! A read that fails is never taken for the end of the input. The text in front of it is read as far as the buffer
can do without another read; then reading stops, and there is no formula. -/
namespace WeightedCnf
open ByteStream (skipBlanks unread)

namespace Reading
open BufferedStream (Fails FailsLater matching_fails)
variable {α : Type} {x : Reading BufferedStream α} {p q : BufferedStream → Prop} {r r' : Reader BufferedStream}
  {a : α} {n fuel : Nat}

/-- What agrees with itself on a property of streams preserves it. -/
theorem preserves (h : Alike Eq (fun s t => s = t ∧ p t) (fun s t => s = t ∧ q t) x x) (hr : p r.stream)
    (hx : x r = .ok a r') : q r'.stream := by
  have hself := h r r ⟨⟨rfl, hr⟩, rfl, rfl, rfl⟩
  rw [hx] at hself
  cases hself with
  | ok h => exact h.stream.2

private theorem agree_passPrefix (n : Nat) (bytes : List UInt8) (hbytes : bytes.length ≤ 6) :
    Agree Eq (fun _ _ => True) (fun s t => s = t ∧ Fails n t) (fun s t => s = t ∧ Fails n t)
      (ByteStream.passPrefix bytes) (ByteStream.passPrefix bytes) :=
  .self fun _ _ _ hs => hs.passPrefix hbytes

private theorem file_of_peek_error {σ : Type} [ByteStream σ] {r : Reader σ} {e : StreamError} {s : σ}
    (h : ByteStream.peek r.stream = .error e s) :
    file (fuel + 1) r = .error (.error (.stream e)) { r with stream := s } := by
  have hpass : ByteStream.passWhile Text.isBlankByte r.stream = .error e s :=
    run_bind_of_error (x := ByteStream.peek) h
  have hskip : skipBlanks r.stream = .error e s := by
    change EStateM.map _ _ _ = _
    rw [EStateM.map, hpass]
  exact run_bind_of_error (onStream_of_error hskip)

/-- With enough fuel a file does not come to an end in front of a source that is to fail. -/
private theorem file_ne_ok (hr : Fails n r.stream) (hn : n < fuel) : file fuel r ≠ .ok () r' := by
  have hmatching := matching_fails
  have hrelaying (n : Nat) := relaying_eq (hmatching n)
  induction fuel generalizing n r with
  | zero => exact absurd hn (Nat.not_lt_zero n)
  | succ fuel ih =>
    intro h
    obtain ⟨_, r₁, hskip, h⟩ := run_bind_eq_ok.mp h
    have hr₁ := preserves (agree_onStream (hrelaying n).stream (ByteStream.agree_skipBlanks (hmatching n))) hr hskip
    obtain ⟨_, _, hget, h⟩ := run_bind_eq_ok.mp h
    cases hget
    obtain ⟨next, r₂, hpeek, h⟩ := run_bind_eq_ok.mp h
    obtain ⟨s, hs, rfl⟩ := onStream_eq_ok.mp hpeek
    obtain ⟨⟨first, rfl⟩, hr₂⟩ := hr₁.toFails.peek hs
    obtain ⟨_, r₃, hitem, h⟩ := run_bind_eq_ok.mp h
    have hr₃ := preserves (agree_within (fun _ _ he => congrArg _ he)
      (agree_item (hmatching n) (hrelaying n) (agree_passPrefix n) first)) hr₂ hitem
    obtain ⟨_, r₄, hline, h⟩ := run_bind_eq_ok.mp h
    -- the newline that ends the line is passed, so less is unread
    have hr₄ := preserves (q := Fails (n - 1)) (agree_onStream (hrelaying n).stream
      (ByteStream.agree_skipLine (hmatching n) fun _ _ hs => ⟨congrArg _ hs.1, hs.2.pass⟩)) hr₃ hline
    have hpos : 0 < n := by
      have hunread := BufferedStream.unread_pass hr₂.pending
      have hle := hr₂.unread_le
      omega
    exact ih hr₄ (by omega) h

end Reading

/-- Nothing is written if the formula has no variables. -/
theorem process_of_no_variables {options : Options} {source : Source} {f : Formula} {log : Log}
    (hparse : Formula.parse source options.format #[] = .ok f log) (hnone : f.variableCount = 0) (sink : Sink)
    (seconds : List Char) :
    ∃ p, process options source sink seconds {} = .error (.error .unreadable) p ∧ p.written = [] := by
  have hlogged : Run.logged .fault (Formula.parse source options.format) {} = .ok f { log } := by
    rw [Run.logged, hparse]
  refine ⟨{ log }, run_bind_of_error ?_, rfl⟩
  rw [Run.reduce, run_bind_of_ok hlogged, if_pos hnone]
  rfl

namespace Formula
open BufferedStream (Fails usualCapacity)
variable {source : Source}

/-- Nothing is read of a text that does not fill the buffer before the failure. -/
theorem parse_of_short (hfails : source.ending = .failure) (hshort : source.content.length < usualCapacity)
    (format : WeightFormat) (log : Log) :
    parse source format log = .ok { format } (log.push (.formulaNotRead (.stream .readFailed))) := by
  have hempty : ¬ 1 ≤ (BufferedStream.ofSourceUsual source).available := Nat.not_succ_le_zero 0
  have hsize : (BufferedStream.ofSourceUsual source).buffer.size = usualCapacity := Array.size_replicate
  obtain ⟨s', hfill⟩ := BufferedStream.fill_of_short hfails hempty (by
    rw [hsize, Nat.eq_zero_of_not_pos hempty, Nat.zero_add]
    exact hshort)
  have hpeek : ByteStream.peek (BufferedStream.ofSourceUsual source) = .error .readFailed s' := run_bind_of_error hfill
  rw [parse, readFrom, Reading.file_of_peek_error hpeek]
  rfl

private theorem parse_ne_ok {log : Log} {f : Formula} (hfails : source.ending = .failure) (format : WeightFormat)
    (haccepted : ∀ e, .formulaNotRead e ∉ log.toList) : parse source format #[] ≠ .ok f log := by
  intro h
  have hcapacity : 6 ≤ (BufferedStream.ofSourceUsual source).buffer.size := by
    rw [BufferedStream.ofSourceUsual, Array.size_replicate]
    decide
  have hstart : Fails _ (.ofSourceUsual source) := ⟨hfails, hcapacity, Nat.le_refl _⟩
  obtain ⟨r, hfile, -⟩ := file_of_readFrom h haccepted
  exact Reading.file_ne_ok hstart (Nat.lt_succ_self _) hfile

/-- A read that fails is not taken for the end of the input, wherever it falls: there is a complaint, the formula has
no variables and no clauses, and nothing is written. Only if a whole buffer was read before can a header break a
precondition first, which announces more variables than there can be. -/
theorem parse_of_failure (hfails : source.ending = .failure) (format : WeightFormat) :
    (∃ f, ∃ log : Log, ∃ e, parse source format #[] = .ok f (log.push (.formulaNotRead e)) ∧ f.variableCount = 0 ∧
      f.clauseCount = 0 ∧
      ∀ (options : Options) sink seconds, options.format = format →
        ∃ p, process options source sink seconds {} = .error (.error .unreadable) p ∧ p.written = []) ∨
    usualCapacity ≤ source.content.length ∧
      ∃ (number : Int) (log : Log), parse source format #[] = .error (.noSuchVariable number) log ∧
        Variable.limit < number.natAbs ∧ log.Announces number.natAbs := by
  rcases readFrom_cases (BufferedStream.ofSourceUsual source) format with ⟨f, log, hread, -, haccepted⟩ |
    ⟨f, log, e, hread, hvariables, hclauses⟩ | ⟨cause, log, hread, n, rfl, hlimit, hannounced⟩
  · exact absurd hread (parse_ne_ok hfails format haccepted)
  · refine .inl ⟨f, log, e, hread, hvariables, hclauses, fun options sink seconds hformat => ?_⟩
    subst hformat
    exact process_of_no_variables hread hvariables sink seconds
  · refine .inr ⟨?_, n, log, hread, hlimit, hannounced⟩
    by_contra hshort
    cases hread.symm.trans (parse_of_short hfails (Nat.lt_of_not_le hshort) format #[])

def tornSource : Source :=
  { content := Text.Utf8.encode "p cnf 1 0\nw 1 1/3\n".toList, ending := .failure }

theorem parse_of_failure_torn : tornSource.ending = .failure ∧
    (∃ f, ∃ log : Log, ∃ e, parse tornSource .detect #[] = .ok f (log.push (.formulaNotRead e)) ∧
      f.variableCount = 0 ∧ f.clauseCount = 0) ∧
    ∀ (options : Options) sink seconds, options.format = .detect →
      ∃ p, process options tornSource sink seconds {} = .error (.error .unreadable) p ∧ p.written = [] := by
  have hfails : tornSource.ending = .failure := rfl
  refine ⟨hfails, ?_⟩
  rcases parse_of_failure hfails .detect with
    ⟨f, log, e, hparse, hvariables, hclauses, hprocess⟩ | ⟨hlong, -⟩
  · exact ⟨⟨f, log, e, hparse, hvariables, hclauses⟩, hprocess⟩
  · exact absurd hlong (by decide +kernel)

/-- A text that is as long as the buffer is read to its end before the failure is met. -/
theorem parse_eq_readFrom_torn (hfails : source.ending = .failure) (hfull : source.content.length = usualCapacity)
    (format : WeightFormat) (log : Log) : parse source format log =
      readFrom (⟨⟨source.content, {}⟩, usualCapacity, hfull⟩ : TornStream) format log :=
  readFrom_congr BufferedStream.matching_torn (fun _ => BufferedStream.agree_passPrefix_torn)
    (BufferedStream.tears_ofSourceUsual hfails hfull) format log

/-- A text of which the only variable that matters has a number beyond the last one, with blanks behind it that fill
the buffer. -/
def overflowingTornSource : Source :=
  { content := overflowingSource.content ++ List.replicate 65500 32, ending := .failure }

private theorem length_overflowingTornSource : overflowingTornSource.content.length = usualCapacity := by
  have hlength : overflowingSource.content.length = 36 := by decide +kernel
  rw [overflowingTornSource, List.length_append, List.length_replicate, hlength]
  rfl

/-- A precondition can be broken before the failure is met. -/
theorem parse_overflowing_torn : overflowingTornSource.ending = .failure ∧
    ∃ log, parse overflowingTornSource .detect #[] = .error (.noSuchVariable 268435457) log := by
  refine ⟨rfl, ?_⟩
  rw [parse_eq_readFrom_torn rfl length_overflowingTornSource]
  exact exists_of_failsWith (by decide +kernel)

end Formula
end WeightedCnf
