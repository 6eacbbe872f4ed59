import WeightedCnf.Proofs.BufferedReading
import WeightedCnf.Proofs.Grammar

/-! Reading a file comes to reading its entries: what a reader makes of a formula and its weights does not depend on
how the entries are written. -/
namespace WeightedCnf
open Text (newline isBlankByte)
open ByteStream (integer? token integer skipBlanks skipLine restOfLine)

def Leaves (bytes : List UInt8) (s : PlainStream) (_ : Unit) : Prop :=
  s.rest = bytes

/-- The weight that a token stands for, or the invalid weight when it stands for none. -/
def Weight.ofToken (token : List Char) : Weight :=
  (read token).toOption.getD invalid

namespace Reading
variable {σ : Type}

def entry : Entry → Reading σ Unit
  | .kept text => onFormula (·.addLine (.raw text))
  | .support vs => onFormula fun f => vs.foldl Formula.addSupport f
  | .weight l weight => do
    meetWeightLine
    meetLiteral l
    if weight = "-1".toList then
      meetNoWeight
      onFormula fun f => (f.setWeight l .one).setWeight (-l) .one
    else recordWeight l weight

def entries (es : List Entry) : Reading σ Unit :=
  es.forM entry

theorem entries_cons (e : Entry) (es : List Entry) :
    (entries (e :: es) : Reading σ Unit) = entry e >>= fun _ => entries es :=
  rfl

theorem formula_meetWeightLine {r r' : Reader σ} {u : Unit} (h : meetWeightLine r = .ok u r') :
    r'.formula = r.formula := by
  obtain ⟨stream, format, formula, log⟩ := r
  cases format with
  | minic2d => cases h
  | _ =>
    cases h
    rfl

/-- Where a literal settles the format, this is noted in the body of the formula, which is all that changes. -/
theorem formula_meetLiteral {r r' : Reader σ} {l : Literal} {u : Unit} (h : meetLiteral l r = .ok u r') :
    r'.formula = { r.formula with body := r'.formula.body } := by
  obtain ⟨stream, format, formula, log⟩ := r
  unfold meetLiteral at h
  split at h
  · cases h
    rfl
  · cases format with
    | cachet => cases h
    | _ =>
      cases h
      rfl

theorem formula_meetNoWeight {r r' : Reader σ} {u : Unit} (h : meetNoWeight r = .ok u r') :
    r'.formula = { r.formula with body := r'.formula.body } := by
  obtain ⟨stream, format, formula, log⟩ := r
  cases format with
  | cachet | cachetOrMc20 =>
    cases h
    rfl
  | _ => cases h

/-- A weight is recorded, whether its token can be read or not. -/
theorem recordWeight_eq (l : Literal) (token : List Char) (r : Reader σ) : ∃ log,
    recordWeight l token r = .ok () { r with formula := r.formula.setWeight l (.ofToken token), log } := by
  unfold recordWeight Weight.ofToken
  cases Weight.read token with
  | ok w => exact ⟨r.log, rfl⟩
  | error e => exact ⟨r.log.push (.weightNotRead e), rfl⟩

/-- What was done about a weight line that was not refused. -/
theorem entry_weight_of_ok {r r' : Reader σ} {l : Literal} {token : List Char} {u : Unit}
    (h : entry (.weight l token) r = .ok u r') : ∃ r₁ r₂, meetWeightLine r = .ok () r₁ ∧ meetLiteral l r₁ = .ok () r₂ ∧
      ((token = "-1".toList ∧ ∃ r₃, meetNoWeight r₂ = .ok () r₃ ∧
          r' = { r₃ with formula := (r₃.formula.setWeight l .one).setWeight (-l) .one }) ∨
        token ≠ "-1".toList ∧ ∃ log, r' = { r₂ with formula := r₂.formula.setWeight l (.ofToken token), log }) := by
  obtain ⟨_, r₁, hmeet, h⟩ := run_bind_eq_ok.mp h
  obtain ⟨_, r₂, hliteral, h⟩ := run_bind_eq_ok.mp h
  refine ⟨r₁, r₂, hmeet, hliteral, ?_⟩
  split at h
  · obtain ⟨_, r₃, hnone, h⟩ := run_bind_eq_ok.mp h
    cases h
    exact .inl ⟨‹_›, r₃, hnone, rfl⟩
  · obtain ⟨log, hrun⟩ := recordWeight_eq l token r₂
    cases hrun.symm.trans h
    exact .inr ⟨‹_›, log, rfl⟩

variable {r : Reader PlainStream} {r' : Reader Unit} {input rest : List UInt8} {vs : List Variable}

private theorem supportList_at {words : List (List Char)} {fuel : Nat}
    (h : VariablesAt r.formula.variableCount words input vs rest) (hfuel : vs.length < fuel)
    (hs : r.stream.rest = input) : ∃ stream : PlainStream, stream.rest = rest ∧
      supportList fuel words r = .ok () { r with stream, formula := vs.foldl Formula.addSupport r.formula } := by
  generalize hcount : r.formula.variableCount = variableCount at h
  induction h generalizing fuel r with
  | zero hword =>
    obtain ⟨fuel, rfl⟩ := Nat.exists_eq_add_one_of_ne_zero (Nat.ne_of_gt hfuel)
    refine ⟨r.stream, hs, (run_bind_of_ok (s := r) rfl).trans ?_⟩
    dsimp only
    rw [hword]
    rfl
  | @next word words input vs rest v hword hv h ih =>
    obtain ⟨fuel, rfl⟩ := Nat.exists_eq_add_one_of_ne_zero (Nat.ne_of_gt (Nat.zero_lt_of_lt hfuel))
    obtain ⟨stream, hrest, hrun⟩ := ih (r := { r with formula := r.formula.addSupport v })
      (Nat.succ_lt_succ_iff.mp hfuel) hs hcount
    refine ⟨stream, hrest, (run_bind_of_ok (s := r) rfl).trans ?_⟩
    dsimp only
    rw [hword]
    have hpos : (0 : Int) < v.number := Int.natCast_pos.mpr (Nat.succ_pos _)
    have hliteral : r.formula.hasLiteral v.number = true := by
      rw [Formula.hasLiteral, Bool.and_eq_true, decide_eq_true_eq, bne_iff_ne, Int.natAbs_natCast, hcount]
      exact ⟨hpos.ne', hv⟩
    dsimp only
    rw [if_neg hpos.ne']
    refine (run_bind_of_ok (s := r) rfl).trans ?_
    rw [hliteral, decide_eq_true hpos]
    refine (run_bind_of_ok (s := r) rfl).trans ?_
    rw [Variable.ofNumber_number]
    exact hrun
  | @token input word input' vs rest htoken h ih =>
    obtain ⟨fuel, rfl⟩ := Nat.exists_eq_add_one_of_ne_zero (Nat.ne_of_gt (Nat.zero_lt_of_lt hfuel))
    obtain ⟨s, hword, hs'⟩ := ByteStream.token_at (hs ▸ htoken)
    obtain ⟨stream, hrest, hrun⟩ := ih (r := { r with stream := s }) hfuel hs' hcount
    refine ⟨stream, hrest, ?_⟩
    have hnext : nextWord [] r = .ok (word, []) { r with stream := s } :=
      run_bind_of_ok (onStream_eq_ok.mpr ⟨s, hword, rfl⟩)
    exact (run_bind_of_ok hnext).trans hrun

private theorem agree_read {α β : Type} {x : EStateM StreamError PlainStream α} {a : α} {f : α → Reading PlainStream β}
    {y : Reading Unit β} {S : PlainStream → Unit → Prop} {middle : List UInt8}
    (hx : ∀ s : PlainStream, s.rest = input → ∃ s', x s = .ok a s' ∧ s'.rest = middle)
    (hf : Alike Eq (Leaves middle) S (f a) y) : Alike Eq (Leaves input) S (onStream x >>= f) y := by
  intro r r' h
  obtain ⟨s, hs, hmiddle⟩ := hx _ h.stream
  rw [run_bind_of_ok (onStream_eq_ok.mpr ⟨s, hs, rfl⟩)]
  exact hf _ _ { h with stream := hmiddle }

private theorem literal_at {l : Literal} (h : NumberAt r.stream.rest l.toInt rest)
    (hl : l.var.number ≤ r.formula.variableCount) :
    ∃ stream : PlainStream, stream.rest = rest ∧ literal r = .ok l { r with stream } := by
  obtain ⟨s, hs, hrest⟩ := ByteStream.integer_at h
  have hliteral : r.formula.hasLiteral l.toInt = true := by
    rw [Formula.hasLiteral, Bool.and_eq_true, decide_eq_true_eq, bne_iff_ne, l.natAbs_toInt]
    exact ⟨l.toInt_ne_zero, hl⟩
  refine ⟨s, hrest, (run_bind_of_ok (onStream_eq_ok.mpr ⟨s, hs, rfl⟩)).trans ?_⟩
  refine (run_bind_of_ok (s := { r with stream := s }) rfl).trans ?_
  rw [hliteral]
  refine (run_bind_of_ok (s := { r with stream := s }) rfl).trans ?_
  rw [Literal.ofInt_toInt]
  rfl

private theorem weightLine_at {l : Literal} {weight : List Char} {middle : List UInt8}
    (hr : Readers (Leaves (Text.Utf8.encode "w ".toList ++ input)) r r') (hliteral : NumberAt input l.toInt middle)
    (hl : l.var.number ≤ r'.formula.variableCount) (hweight : TokenAt middle weight rest) :
    SameResult Eq (Readers fun _ _ => True) (Readers (Leaves rest)) (weightLine r) (entry (.weight l weight) r') := by
  obtain ⟨s, hstart, hs⟩ := ByteStream.passPrefix_at hr.stream
  have hrequire : require true .malformedWeightLine { r with stream := s } = .ok () { r with stream := s } := rfl
  unfold weightLine
  rw [run_bind_of_ok (onStream_eq_ok.mpr ⟨s, hstart, rfl⟩), run_bind_of_ok hrequire]
  have hr₀ : Readers (Leaves input) { r with stream := s } r' := { hr with stream := hs }
  refine SameResult.bind (agree_meetWeightLine _ _ hr₀) fun _ r₁ r₁' hmeet hr₁ => ?_
  rw [← formula_meetWeightLine hmeet, ← hr₁.formula] at hl
  obtain ⟨s₂, hs₂, hrun⟩ := literal_at (hr₁.stream.symm ▸ hliteral) hl
  rw [run_bind_of_ok hrun]
  have hrest : Alike Eq (Leaves middle) (Leaves rest)
      (meetLiteral l >>= fun _ => onStream token >>= fun weight => if weight = "-1".toList then
        meetNoWeight >>= fun _ => onFormula fun f => (f.setWeight l .one).setWeight (-l) .one
        else recordWeight l weight)
      (meetLiteral l >>= fun _ => if weight = "-1".toList then
        meetNoWeight >>= fun _ => onFormula fun f => (f.setWeight l .one).setWeight (-l) .one
        else recordWeight l weight) := by
    refine (agree_meetLiteral l).bind fun _ => agree_read (fun s hs => ByteStream.token_at (hs ▸ hweight)) ?_
    exact .ite (agree_meetNoWeight.bind fun _ => agree_onFormula _) (agree_recordWeight l weight)
  exact hrest _ _ { hr₁ with stream := hs₂ }

/-- The rest of a comment is taken from the line. -/
theorem comment_start (hs : r.stream.rest = 'c'.toUInt8 :: input) :
    ∃ stream : PlainStream, stream.rest = Text.lineEnd input ∧
      onStream restOfLine { r with stream := r.stream.pass } = .ok (Text.line input) { r with stream } := by
  have hpass : r.stream.pass.rest = input := by
    rw [PlainStream.rest_pass, hs]
    rfl
  obtain ⟨s, hline, hrest⟩ := ByteStream.restOfLine_at r.stream.pass
  rw [hpass] at hline hrest
  exact ⟨s, hrest, onStream_eq_ok.mpr ⟨s, hline, rfl⟩⟩

theorem otherLine_kept (r : Reader PlainStream) :
    ∃ stream : PlainStream, stream.rest = Text.lineEnd r.stream.rest ∧
      otherLine r = .ok () { r with stream, formula := r.formula.addLine (.raw (Text.line r.stream.rest)) } := by
  obtain ⟨s, hline, hrest⟩ := ByteStream.restOfLine_at r.stream
  exact ⟨s, hrest, run_bind_of_ok (onStream_eq_ok.mpr ⟨s, hline, rfl⟩)⟩

theorem comment_kept (hs : r.stream.rest = 'c'.toUInt8 :: input) (hsupport : ¬ StartsSupport (Text.line input))
    (hweights : StartsWeights (Text.line input) → r.format ≠ .detect ∧ r.format ≠ .minic2d) :
    ∃ stream : PlainStream, stream.rest = Text.lineEnd input ∧
      comment r = .ok () { r with stream, formula := r.formula.addLine (.raw ('c' :: Text.line input)) } := by
  obtain ⟨s, hrest, hline⟩ := comment_start hs
  refine ⟨s, hrest, ?_⟩
  have hletter : onStream (modify ByteStream.pass) r = .ok () { r with stream := r.stream.pass } := rfl
  refine (run_bind_of_ok hletter).trans ((run_bind_of_ok hline).trans ?_)
  refine (run_bind_of_ok (s := { r with stream := s }) rfl).trans ?_
  dsimp only
  rw [if_neg, if_neg]
  · rfl
  · simp only [Bool.and_eq_true, Bool.or_eq_true, beq_iff_eq]
    rintro ⟨hstarts, hformat⟩
    obtain ⟨hdetect, hminic2d⟩ := hweights hstarts
    exact hformat.elim hdetect hminic2d
  · rw [Bool.and_eq_true, beq_iff_eq]
    exact hsupport

theorem comment_support {words : List (List Char)} (hs : r.stream.rest = 'c'.toUInt8 :: input)
    (hblank : (Text.line input).head?.any Text.isAsciiBlank = true)
    (hwords : Text.words (Text.line input) = "ind".toList :: words)
    (h : VariablesAt r.formula.variableCount words (Text.lineEnd input) vs rest) :
    ∃ stream : PlainStream, stream.rest = rest ∧
      comment r = .ok () { r with stream, formula := vs.foldl Formula.addSupport r.formula } := by
  obtain ⟨s, hrest, hline⟩ := comment_start hs
  have hfuel : vs.length < words.length + 1 + s.rest.length + 1 := by
    have hlt := h.length_le.1
    rw [hrest]
    omega
  obtain ⟨s', hrest', hrun⟩ := supportList_at (r := { r with stream := s }) h hfuel hrest
  refine ⟨s', hrest', ?_⟩
  have hletter : onStream (modify ByteStream.pass) r = .ok () { r with stream := r.stream.pass } := rfl
  refine (run_bind_of_ok hletter).trans ((run_bind_of_ok hline).trans ?_)
  refine (run_bind_of_ok (s := { r with stream := s }) rfl).trans ?_
  rw [hblank, hwords]
  exact hrun

/-- An entry of the text is read as such. -/
theorem item_at {e : Entry} {first : UInt8} (hr : Readers (Leaves input) r r')
    (he : EntryAt r'.formula.variableCount input e rest) (hfirst : first ∈ input.head?) :
    SameResult Eq (Readers fun _ _ => True) (Readers (Leaves rest)) (item first r) (entry e r') := by
  have hs : r.stream.rest = input := hr.stream
  cases he with
  | @line first' rest hblank hp hw hc =>
    cases hfirst
    obtain ⟨s, hrest, hrun⟩ := otherLine_kept r
    rw [hs] at hrest hrun
    rw [item, if_neg hp, if_neg hw, if_neg hc, hrun]
    exact .ok { hr with stream := hrest, formula := by rw [hr.formula] }
  | @comment rest hsupport hweights =>
    cases hfirst
    obtain ⟨s, hrest, hrun⟩ := comment_kept hs hsupport fun h => absurd h hweights
    rw [item, if_neg (by decide), if_neg (by decide), if_pos rfl, hrun]
    exact .ok { hr with stream := hrest, formula := by rw [hr.formula] }
  | @support input words vs rest hblank hwords h =>
    cases hfirst
    obtain ⟨s, hrest, hrun⟩ := comment_support hs hblank hwords (hr.formula.symm ▸ h)
    rw [item, if_neg (by decide), if_neg (by decide), if_pos rfl, hrun]
    exact .ok { hr with stream := hrest, formula := by rw [hr.formula] }
  | @weight input middle weight rest l hliteral hl hweight =>
    cases hfirst
    rw [item, if_neg (by decide), if_pos (by decide)]
    exact weightLine_at hr hliteral hl hweight

theorem variableCount_entry {r r' : Reader σ} {e : Entry} {u : Unit} (h : entry e r = .ok u r') :
    r'.formula.variableCount = r.formula.variableCount := by
  cases e with
  | kept text =>
    cases h
    rfl
  | support vs =>
    have hcount := congrArg Formula.variableCount (Formula.foldl_addSupport vs r.formula)
    cases h
    exact hcount
  | weight l weight =>
    obtain ⟨r₁, r₂, hmeet, hliteral, h⟩ := entry_weight_of_ok h
    have hcount := congrArg Formula.variableCount (formula_meetLiteral hliteral)
    rw [formula_meetWeightLine hmeet] at hcount
    rcases h with ⟨-, r₃, hnone, rfl⟩ | ⟨-, log, rfl⟩
    · exact (congrArg Formula.variableCount (formula_meetNoWeight hnone)).trans hcount
    · exact hcount

/-- A file is read from its first byte on that is not blank. -/
theorem file_at {gap : List UInt8} {first : UInt8} {bytes : List UInt8} (hs : r.stream.rest = gap ++ first :: bytes)
    (hgap : ∀ b ∈ gap, isBlankByte b = true) (hfirst : isBlankByte first = false) (fuel : Nat) :
    ∃ (s : PlainStream) (line : Nat), s.rest = first :: bytes ∧
      file (fuel + 1) r = (within (.onLine line) (item first) >>= fun _ => onStream skipLine >>= fun _ => file fuel)
        { r with stream := s } := by
  obtain ⟨s, hskip, hrest⟩ := ByteStream.skipBlanks_at hs hgap (by rintro _ ⟨⟩; exact hfirst)
  have hpeek : onStream ByteStream.peek { r with stream := s } = .ok (some first) { r with stream := s } :=
    onStream_eq_ok.mpr ⟨s, congrArg (EStateM.Result.ok · s) (by rw [hrest]; rfl), rfl⟩
  refine ⟨s, (ByteStream.position s).line, hrest, ?_⟩
  rw [file, run_bind_of_ok (onStream_eq_ok.mpr ⟨s, hskip, rfl⟩)]
  refine (run_bind_of_ok (s := { r with stream := s }) rfl).trans ?_
  rw [run_bind_of_ok hpeek]

/-- A file with only blanks left is read to its end. -/
theorem file_blanks (hs : ∀ b ∈ r.stream.rest, isBlankByte b = true) (fuel : Nat) :
    ∃ stream, file fuel r = finish { r with stream } := by
  cases fuel with
  | zero => exact ⟨r.stream, rfl⟩
  | succ fuel =>
    obtain ⟨s, hskip, hrest⟩ := ByteStream.skipBlanks_at (List.append_nil _).symm hs nofun
    have hpeek : onStream ByteStream.peek { r with stream := s } = .ok none { r with stream := s } :=
      onStream_eq_ok.mpr ⟨s, congrArg (EStateM.Result.ok · s) (by rw [hrest]; rfl), rfl⟩
    refine ⟨s, ?_⟩
    rw [file, run_bind_of_ok (onStream_eq_ok.mpr ⟨s, hskip, rfl⟩)]
    refine (run_bind_of_ok (s := { r with stream := s }) rfl).trans ?_
    rw [run_bind_of_ok hpeek]

/-- Entries are read one after the other, up to the end of the file or the first one that is refused. -/
private theorem file_entries {es : List Entry} {fuel : Nat} (hes : EntriesAt r'.formula.variableCount input es)
    (hr : Readers (Leaves input) r r') (hfuel : es.length < fuel) :
    (∀ d, entries es r' = .ok () d → ∃ r₁, Readers (fun _ _ => True) r₁ d ∧ file fuel r = finish r₁) ∧
    ∀ cause d, entries es r' = .error (.error cause) d → ∃ cause r₁, file fuel r = .error (.error cause) r₁ := by
  -- no entry is a header, so the entries that follow are read with the same number of variables
  generalize hcount : r'.formula.variableCount = variableCount at hes
  induction hes generalizing fuel r r' with
  | nil hblanks =>
    obtain ⟨stream, hfile⟩ := file_blanks (hr.stream.symm ▸ hblanks) fuel
    refine ⟨fun d hd => ?_, fun cause d hd => (nomatch hd)⟩
    cases hd
    exact ⟨{ r with stream }, { hr with stream := trivial }, hfile⟩
  | @cons gap input e rest es hgap he hes ih =>
    obtain ⟨fuel, rfl⟩ := Nat.exists_eq_add_one_of_ne_zero (Nat.ne_of_gt (Nat.zero_lt_of_lt hfuel))
    obtain ⟨first, bytes, rfl, hfirst⟩ := he.first
    obtain ⟨s, line, hs, hfile⟩ := file_at hr.stream hgap hfirst fuel
    have he' : EntryAt r'.formula.variableCount (first :: bytes) e rest := hcount ▸ he
    have hitem := item_at (r := { r with stream := s }) { hr with stream := hs } he'
      (rfl : (first :: bytes).head? = some first)
    rw [hfile, entries_cons]
    generalize hx : item first { r with stream := s } = x, hy : entry e r' = y at hitem
    cases hitem with
    | @ok u r₁ r₁' hr₁ =>
      obtain ⟨s₂, hskip, hs₂⟩ := ByteStream.skipLine_at r₁.stream
      have hrest : s₂.rest = Text.nextLine rest := hs₂.trans (congrArg Text.nextLine hr₁.stream)
      rw [run_bind_of_ok (within_eq_ok.mpr hx), run_bind_of_ok (onStream_eq_ok.mpr ⟨s₂, hskip, rfl⟩), run_bind_of_ok hy]
      exact ih { hr₁ with stream := hrest } (Nat.succ_lt_succ_iff.mp hfuel) ((variableCount_entry hy).trans hcount)
    | @error stop _ r₁ r₁' hstop _ =>
      subst hstop
      rw [run_bind_of_error (within_of_error _ hx), run_bind_of_error hy]
      refine ⟨fun d hd => (nomatch hd), fun cause d hd => ?_⟩
      cases hd
      exact ⟨_, r₁, rfl⟩

theorem header_at {variableCount clauseCount : Nat} (h : HeaderAt r.stream.rest variableCount clauseCount rest) :
    ∃ stream : PlainStream, stream.rest = rest ∧ header r = .ok ()
      { r with
        stream
        formula := r.formula.setCounts variableCount clauseCount
        log := r.log.push (.headerRead variableCount clauseCount) } := by
  generalize hs : r.stream.rest = input at h
  obtain ⟨hvariables, hclauses⟩ := h
  obtain ⟨s₁, hstart, hs₁⟩ := ByteStream.passPrefix_at hs
  obtain ⟨s₂, hread, hs₂⟩ := ByteStream.integer_at (hs₁ ▸ hvariables)
  obtain ⟨s₃, hread', hs₃⟩ := ByteStream.integer_at (hs₂ ▸ hclauses)
  refine ⟨s₃, hs₃, ?_⟩
  have hrequire (c : Bool) (e : FormulaError) (hc : c = true) (r : Reader PlainStream) : require c e r = .ok () r := by
    rw [hc]
    rfl
  unfold header
  rw [run_bind_of_ok (onStream_eq_ok.mpr ⟨s₁, hstart, rfl⟩), run_bind_of_ok (hrequire _ _ rfl _),
    run_bind_of_ok (onStream_eq_ok.mpr ⟨s₂, hread, rfl⟩), run_bind_of_ok (onStream_eq_ok.mpr ⟨s₃, hread', rfl⟩),
    run_bind_of_ok (hrequire _ _ (decide_eq_true (Int.natCast_nonneg _)) _),
    run_bind_of_ok (hrequire _ _ (decide_eq_true (Int.natCast_nonneg _)) _)]
  rfl

end Reading

def Reader.start (format : WeightFormat) (variableCount clauseCount : Nat) (log : Log) : Reader Unit where
  stream := ()
  format
  formula := .ofCounts variableCount clauseCount
  log := log.push (.headerRead variableCount clauseCount)

namespace Formula
variable {content : List UInt8} {variableCount clauseCount : Nat} {es : List Entry} {format : WeightFormat} {log : Log}
  {d : Reader Unit}

private theorem file_of_entries (h : FileAt content variableCount clauseCount es) :
    (∀ d, Reading.entries es (.start format variableCount clauseCount log) = .ok () d →
      ∃ r, Readers (fun _ _ => True) r d ∧
        Reading.file (content.length + 1) { stream := (⟨content, {}⟩ : PlainStream), format, log } = Reading.finish r) ∧
    ∀ cause d, Reading.entries es (.start format variableCount clauseCount log) = .error (.error cause) d →
      ∃ cause r, Reading.file (content.length + 1) { stream := (⟨content, {}⟩ : PlainStream), format, log } =
        .error (.error cause) r := by
  obtain @⟨gap, input, rest, variableCount, clauseCount, es, hgap, hheader, hes⟩ := h
  obtain ⟨more, rfl⟩ : ∃ more, input = 'p'.toUInt8 :: more := by
    obtain ⟨-, -⟩ := hheader
    exact ⟨_, rfl⟩
  obtain ⟨s₁, line, hs₁, hfile⟩ := Reading.file_at (r := { stream := ⟨gap ++ 'p'.toUInt8 :: more, {}⟩, format, log })
    rfl hgap (by decide) (gap ++ 'p'.toUInt8 :: more).length
  obtain ⟨s₂, hs₂, hrun⟩ := Reading.header_at (r := { stream := s₁, format, log }) (hs₁ ▸ hheader)
  obtain ⟨s₃, hskip, hs₃⟩ := ByteStream.skipLine_at s₂
  have hlength := hes.length_le
  have hnext := Text.length_nextLine_le rest
  have hlt := hheader.length_lt
  have hfuel : es.length < (gap ++ 'p'.toUInt8 :: more).length := by
    rw [List.length_append]
    omega
  rw [hfile, Reading.item, if_pos rfl, run_bind_of_ok (Reading.within_eq_ok.mpr hrun),
    run_bind_of_ok (Reading.onStream_eq_ok.mpr ⟨s₃, hskip, rfl⟩)]
  exact Reading.file_entries hes ⟨hs₃.trans (congrArg Text.nextLine hs₂), rfl, rfl, rfl⟩ hfuel

/-- A file whose entries are read is read to its end. -/
theorem readFrom_of_entries (h : FileAt content variableCount clauseCount es)
    (hes : Reading.entries es (.start format variableCount clauseCount log) = .ok () d) :
    readFrom (⟨content, {}⟩ : PlainStream) format log =
      match Reading.finish d with
      | .ok () d => .ok { d.formula with format := d.format } d.log
      | .error (.error e) d => .ok { d.formula.setCounts 0 0 with format := d.format } (d.log.push (.formulaNotRead e))
      | .error (.fault e) d => .error e d.log := by
  obtain ⟨r, hr, hfile⟩ := (file_of_entries h).1 d hes
  have hend : SameResult Eq _ _ _ _ := Reading.agree_finish r d hr
  have hread : Reading.file (ByteStream.unread (⟨content, {}⟩ : PlainStream) + 1)
      { stream := (⟨content, {}⟩ : PlainStream), format, log } = Reading.finish r := hfile
  rw [readFrom, hread]
  generalize Reading.finish r = x, Reading.finish d = y at hend
  cases hend with
  | ok h =>
    dsimp only
    rw [h.formula, h.format, h.log]
  | @error stop _ _ _ hstop h =>
    subst hstop
    cases stop with
    | error e =>
      dsimp only
      rw [h.formula, h.format, h.log]
    | fault e =>
      dsimp only
      rw [h.log]

/-- A file of which an entry is refused is not read. -/
theorem readFrom_of_refused {cause : FormulaError} (h : FileAt content variableCount clauseCount es)
    (hes : Reading.entries es (.start format variableCount clauseCount log) = .error (.error cause) d) :
    ∃ f, ∃ log' : Log, ∃ e, readFrom (⟨content, {}⟩ : PlainStream) format log = .ok f (log'.push (.formulaNotRead e)) ∧
      f.variableCount = 0 ∧ f.clauseCount = 0 := by
  obtain ⟨e, r, hfile⟩ := (file_of_entries h).2 cause d hes
  have hread : Reading.file (ByteStream.unread (⟨content, {}⟩ : PlainStream) + 1)
      { stream := (⟨content, {}⟩ : PlainStream), format, log } = .error (.error e) r := hfile
  rw [readFrom, hread]
  exact ⟨_, _, e, rfl, rfl, rfl⟩

end Formula
end WeightedCnf
