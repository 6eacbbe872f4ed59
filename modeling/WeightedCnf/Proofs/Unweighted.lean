import WeightedCnf.Proofs.FormatDetection
import WeightedCnf.Proofs.ParsedFormulas
import WeightedCnf.Proofs.Rereading

/-! A written formula is unweighted: read again without a hint of its format, it has no weights, and is the same
apart from that. The only lines that can be in the way are comments that were kept because the format in force had no
list of weights. -/
namespace WeightedCnf
open Text.Utf8 (encode)

namespace Reading
variable {r : Reader PlainStream} {more : List Char}

/-- Where nothing is known of the format, a list of weights settles it, whatever comes of the weights. -/
private theorem format_item_weightsLine {text : List Char} {b : UInt8} (htext : IsPlainLine text)
    (hweights : IsWeightsLine text) (hs : r.stream.rest = encode (text ++ '\n' :: more))
    (hb : b ∈ r.stream.rest.head?) (hformat : r.format = .detect) : (left (item b r)).format = .minic2d := by
  obtain ⟨hnewline, c, rest, rfl, -, -, -, hsupport⟩ := htext
  obtain ⟨hc, hstarts⟩ := hweights
  cases hc
  rw [hs] at hb
  cases hb
  have hpass : (PlainStream.pass r.stream).rest = encode (rest ++ '\n' :: more) := by
    rw [PlainStream.rest_pass, hs]
    rfl
  have hline : Text.line (encode (rest ++ '\n' :: more)) = rest :=
    Text.line_encode (fun h => hnewline (List.mem_cons_of_mem _ h)) endsLine_newline
  obtain ⟨s', hread, -⟩ := ByteStream.restOfLine_at r.stream.pass
  rw [hpass, hline] at hread
  have hcomment : comment r = (settle .minic2d >>= fun _ =>
      weightList r.formula.variableCount 1 (Text.words rest).tail) { r with stream := s' } := by
    have hletter : onStream (modify ByteStream.pass) r = .ok () { r with stream := r.stream.pass } := rfl
    refine (run_bind_of_ok hletter).trans ?_
    rw [run_bind_of_ok (onStream_eq_ok.mpr ⟨s', hread, rfl⟩)]
    refine (run_bind_of_ok (s := { r with stream := s' }) rfl).trans ?_
    dsimp only
    rw [if_neg, if_pos, if_pos hformat]
    · rw [hformat, Bool.and_eq_true, Bool.and_eq_true, beq_iff_eq]
      exact ⟨hstarts, rfl⟩
    · rw [Bool.and_eq_true, beq_iff_eq]
      exact hsupport rfl
  rw [item, if_neg (by decide), if_neg (by decide), if_pos (by decide), hcomment]
  exact format_left_bind .minic2d WeightFormat.not_next_minic2d rfl fun _ => leads_weightList _ _ _

private theorem format_file_weightsLine {lines : List (List Char)} (hlines : ∀ text ∈ lines, IsPlainLine text)
    (hweights : ∃ text ∈ lines, IsWeightsLine text) (fuel : Nat) {r : Reader PlainStream}
    (hs : r.stream.rest = encode (unlines lines ++ more)) (hformat : r.format = .detect) :
    (left (file (fuel + lines.length) r)).format = .minic2d := by
  induction lines generalizing r with
  | nil => simp at hweights
  | cons text lines ih =>
    have htext := hlines text List.mem_cons_self
    obtain ⟨c, cs, rfl, hc, -⟩ := htext.first
    rw [unlines, List.flatMap_cons, ← unlines, List.append_assoc, List.append_assoc] at hs
    by_cases hfirst : IsWeightsLine (c :: cs)
    · obtain ⟨s, b, line, hs₁, hb, hfile⟩ := file_first hs hc (fuel + lines.length)
      rw [List.length_cons, ← Nat.add_assoc, hfile]
      have hitem := format_item_weightsLine (r := { r with stream := s }) htext hfirst hs₁ hb hformat
      refine format_left_bind .minic2d WeightFormat.not_next_minic2d
        ((congrArg Reader.format (left_within _)).trans hitem) ?_
      exact fun _ _ => (leads_onStream _).bind fun _ => leads_file _
    · have hrest : ∃ text ∈ lines, IsWeightsLine text := by
        obtain ⟨text, hmem, htext⟩ := hweights
        rcases List.mem_cons.mp hmem with rfl | hmem
        · exact absurd htext hfirst
        · exact ⟨text, hmem, htext⟩
      have hitem (s : PlainStream) (b : UInt8) (hs : s.rest = encode (c :: cs ++ '\n' :: (unlines lines ++ more)))
          (hb : b ∈ s.rest.head?) :
          ∃ stream : PlainStream, stream.rest = encode ('\n' :: (unlines lines ++ more)) ∧
            item b { r with stream := s } =
              .ok () { r with stream, formula := r.formula.addLine (.raw (c :: cs)), log := r.log } :=
        item_plain (r := { r with stream := s }) htext hs hb fun h => absurd h hfirst
      obtain ⟨s₁, hs₁, hstep⟩ := file_step hs hc hitem
      exact (congrArg (fun result => (left result).format) hstep).trans
        (ih (fun t ht => hlines t (List.mem_cons_of_mem _ ht)) hrest hs₁ hformat)

end Reading

namespace Formula
variable {f g : Formula} {log log₁ log₂ : Log}

/-- What is read back is written as it was. -/
theorem lines_readBack (f : Formula) : (f.readBack []).lines = f.lines := by
  have hsupport : (f.readBack []).supportLine? = f.supportLine? := by
    have hempty : (f.readBack []).support.isEmpty = f.support.isEmpty := by
      rw [Bool.eq_iff_iff, Support.isEmpty_iff, Support.isEmpty_iff, toList_support_readBack]
    rw [supportLine?, supportLine?, hempty, toList_support_readBack]
  have hbody : (f.readBack []).body.toList.map Line.text = f.body.toList.map Line.text := by
    simp [readBack, Function.comp_def, Line.text]
  rw [lines, lines, hsupport, hbody]
  rfl

/-- A formula with a line that can be taken for a list of weights is read again as one that has such a list. -/
theorem format_readFrom_of_weightsLine (hbody : ∀ line ∈ f.body.toList, IsPlainLine line.text)
    (hweights : ∃ line ∈ f.body.toList, IsWeightsLine line.text) (hr : f.SupportInRange)
    (hvariables : f.variableCount < 2 ^ 63) (hclauses : f.clauseCount < 2 ^ 63)
    (hread : readFrom (⟨f.bytes, {}⟩ : PlainStream) .detect log₁ = .ok g log₂) : g.format = .minic2d := by
  obtain ⟨stream, fuel, hrest, hfile⟩ := file_head .detect (List.forall_mem_nil _) (List.forall_mem_nil _) hr
    hvariables hclauses log₁
  have hleft := congrArg (fun result => (Reading.left result).format) hfile
  exact (format_readFrom hread).trans (hleft.trans
    (Reading.format_file_weightsLine (by simpa using hbody) (by simpa using hweights) fuel hrest rfl))

section Parsed
variable {source : Source} {format : WeightFormat}

/-- A formula that was read without a complaint is written as an unweighted one. -/
theorem parse_written (hending : source.ending = .endOfInput) (hparse : parse source format #[] = .ok f log)
    (haccepted : ∀ e, .formulaNotRead e ∉ log.toList) (hr : f.SupportInRange) {again : Source}
    (hcontent : again.content = f.bytes) (hagain : again.ending = .endOfInput) (log₁ : Log) :
    ((∀ line ∈ f.body.toList, ¬ IsWeightsLine line.text) →
      ∃ g, parse again .detect log₁ = .ok g (log₁.push (.headerRead f.variableCount f.clauseCount)) ∧
        g.format = .detect ∧ (∀ l, g.weight l = .one) ∧ g.variableCount = f.variableCount ∧
        g.clauseCount = f.clauseCount ∧ g.support.toList = f.support.toList ∧
        g.body.toList.map Line.text = f.body.toList.map Line.text ∧ g.bytes = f.bytes) ∧
    ((∃ line ∈ f.body.toList, IsWeightsLine line.text) →
      ∀ g log₂, parse again .detect log₁ = .ok g log₂ → g.format = .minic2d) := by
  have hvariables := (accords_of_parse hparse haccepted).variableCount_lt
  have hclauses := (accords_of_parse hparse haccepted).clauseCount_lt
  have hbody : ∀ line ∈ f.body.toList, IsPlainLine line.text := by
    rw [parse_eq_readFrom hending] at hparse
    exact fun line hline => ((isKept_of_readFrom hparse (.inr haccepted)).1 line hline).isPlainLine
  rw [parse_eq_readFrom hagain, hcontent]
  refine ⟨fun hplain => ?_, fun hweights g log₂ hread =>
    format_readFrom_of_weightsLine hbody hweights hr hvariables hclauses hread⟩
  have hread := readFrom_lines_in .detect ⟨nofun, nofun⟩ (List.forall_mem_nil _) (by simpa using hbody)
    (by simpa using hplain) hr hvariables hclauses log₁
  refine ⟨_, hread, rfl, @weight_readBack f [], rfl, rfl,
    toList_support_readBack (f := f) [], ?_, ?_⟩
  · simp [readBack, Function.comp_def, Line.text]
  · exact congrArg (fun lines => encode (unlines lines)) (lines_readBack f)

def listedSource : Source :=
  { content := Text.Utf8.encode "p cnf 2 1\nc weights 0.1 0.9 1 1\nc ind 1 0\n1 2 0\n".toList }

theorem parse_written_listed : ∃ f log, parse listedSource .detect #[] = .ok f log ∧ f.format = .minic2d ∧
    f.weight Variable.one.positive = ⟨1, 10⟩ ∧
    ∀ again : Source, again.content = f.bytes → again.ending = .endOfInput →
      ∃ g log₂, parse again .detect #[] = .ok g log₂ ∧ g.format = .detect ∧ (∀ l, g.weight l = .one) ∧
        g.support.toList = [Variable.one] := by
  obtain ⟨f, log, hparse, hformat, hweight, hlog, hr, hsupport, hplain⟩ := parse_of_reads
    (rfl : listedSource.ending = .endOfInput) .detect
    (fun f log => f.format = .minic2d ∧ f.weight Variable.one.positive = ⟨1, 10⟩ ∧
      log = #[.headerRead 2 1, .formatDetected .minic2d] ∧ f.SupportInRange ∧
      f.support.toList = [Variable.one] ∧ ∀ line ∈ f.body.toList, ¬ IsWeightsLine line.text) (by decide +kernel)
  refine ⟨f, log, hparse, hformat, hweight, fun again hcontent hagain => ?_⟩
  obtain ⟨g, hg, hdetect, hone, -, -, hkept, -⟩ :=
    (parse_written rfl hparse (by simp [hlog]) hr hcontent hagain #[]).1 hplain
  exact ⟨g, _, hg, hdetect, hone, hkept.trans hsupport⟩

/-- A comment that starts as a list of weights does, in a text whose weights have lines of their own. -/
def commentedSource : Source :=
  { content := Text.Utf8.encode "p cnf 1 0\nw 1 0.5\nc weights 0.1 0.9\n".toList }

/-- That comment is kept, and is read as a list of weights when the formula is read again. -/
theorem parse_written_commented : ∃ f log, parse commentedSource .detect #[] = .ok f log ∧
    (∀ e, .formulaNotRead e ∉ log.toList) ∧ f.SupportInRange ∧
    ∃ g log₂, parse { content := f.bytes } .detect #[] = .ok g log₂ ∧ g.format = .minic2d ∧
      g.weight Variable.one.positive = ⟨1, 10⟩ := by
  obtain ⟨f, log, hparse, hlog, hr, hagain⟩ := parse_of_reads (rfl : commentedSource.ending = .endOfInput) .detect
    (fun f log => log = #[.headerRead 1 0, .formatDetected .cachet] ∧ f.SupportInRange ∧
      gives (fun g _ => g.format = .minic2d ∧ g.weight Variable.one.positive = ⟨1, 10⟩)
        (readFrom (⟨f.bytes, {}⟩ : PlainStream) .detect #[]) = true) (by decide +kernel)
  obtain ⟨g, log₂, hg, hformat, hweight⟩ := parse_of_reads
    (rfl : ({ content := f.bytes } : Source).ending = .endOfInput) .detect _ hagain
  exact ⟨f, log, hparse, by simp [hlog], hr, g, log₂, hg, hformat, hweight⟩

end Parsed
end Formula
end WeightedCnf
