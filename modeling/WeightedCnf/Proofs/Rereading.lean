import WeightedCnf.Proofs.EntryReading

/-! A written formula is read again as it was, and the lines in front of it are kept. -/
namespace WeightedCnf
open Text (newline isAsciiBlank isBlankByte)
open Text.Utf8 (encode encode_append encode_cons StandsFor)

namespace Reading
variable {r : Reader PlainStream} {f : Formula} {more : List Char}

/-- A line that may be kept is kept as it is. -/
theorem item_plain {text : List Char} {b : UInt8} (htext : IsPlainLine text)
    (hs : r.stream.rest = encode (text ++ '\n' :: more)) (hb : b ∈ r.stream.rest.head?)
    (hweights : IsWeightsLine text → r.format ≠ .detect ∧ r.format ≠ .minic2d) :
    ∃ stream : PlainStream, stream.rest = encode ('\n' :: more) ∧
      item b r = .ok () { r with stream, formula := r.formula.addLine (.raw text) } := by
  obtain ⟨hnewline, c, cs, rfl, -, hp, hw, hsupport⟩ := htext
  obtain ⟨b', bs, hencode, hchar, hstands⟩ := Text.Utf8.encode_cons_standsFor c (cs ++ '\n' :: more)
  have hb' : b = b' := by
    rw [hs, List.cons_append, hencode] at hb
    cases hb
    rfl
  subst hb'
  have hbp : ¬ b = 'p'.toUInt8 := fun he => hp ((hstands.eq_iff (by decide)).mp he)
  have hbw : ¬ b = 'w'.toUInt8 := fun he => hw ((hstands.eq_iff (by decide)).mp he)
  rw [item, if_neg hbp, if_neg hbw]
  by_cases hc : c = 'c'
  · have hbc : b = 'c'.toUInt8 := (hstands.eq_iff (by decide)).mpr hc
    subst hc hbc
    have hcs : '\n' ∉ cs := fun h => hnewline (List.mem_cons_of_mem _ h)
    have hline : Text.line (encode (cs ++ '\n' :: more)) = cs := Text.line_encode hcs endsLine_newline
    have hfirst : r.stream.rest = 'c'.toUInt8 :: encode (cs ++ '\n' :: more) := hs
    obtain ⟨s, hrest, hrun⟩ := comment_kept hfirst (hline.symm ▸ hsupport rfl) fun hstarts =>
      hweights ⟨rfl, hline ▸ hstarts⟩
    rw [Text.lineEnd_encode hcs endsLine_newline] at hrest
    rw [hline] at hrun
    rw [if_pos rfl]
    exact ⟨s, hrest, hrun⟩
  · have hbc : ¬ b = 'c'.toUInt8 := fun he => hc ((hstands.eq_iff (by decide)).mp he)
    obtain ⟨s, hrest, hrun⟩ := otherLine_kept r
    rw [hs, Text.lineEnd_encode hnewline endsLine_newline] at hrest
    rw [hs, Text.line_encode hnewline endsLine_newline] at hrun
    rw [if_neg hbc]
    exact ⟨s, hrest, hrun⟩

/-- A file is read from its first character on, if that is no blank. -/
theorem file_first {c : Char} {cs : List Char} (hs : r.stream.rest = encode (c :: cs)) (hc : isAsciiBlank c = false)
    (fuel : Nat) : ∃ (s : PlainStream) (b : UInt8) (line : Nat), s.rest = encode (c :: cs) ∧ b ∈ s.rest.head? ∧
      file (fuel + 1) r = (within (.onLine line) (item b) >>= fun _ => onStream ByteStream.skipLine >>= fun _ =>
        file fuel) { r with stream := s } := by
  obtain ⟨b, bs, hencode, -, hstands⟩ := Text.Utf8.encode_cons_standsFor c cs
  rw [hencode] at hs ⊢
  obtain ⟨s, line, hs', hfile⟩ := file_at (hs : _ = [] ++ b :: (bs ++ encode cs)) (List.forall_mem_nil _)
    (hstands.isBlankByte.trans hc) fuel
  exact ⟨s, b, line, hs', by rw [hs']; rfl, hfile⟩

/-- One line of a file. -/
theorem file_step {fuel : Nat} {c : Char} {cs : List Char} {g : Formula} {log : Log}
    (hs : r.stream.rest = encode (c :: cs ++ '\n' :: more)) (hc : isAsciiBlank c = false)
    (hitem : ∀ (s : PlainStream) b, s.rest = encode (c :: cs ++ '\n' :: more) → b ∈ s.rest.head? →
      ∃ stream : PlainStream, stream.rest = encode ('\n' :: more) ∧
        item b { r with stream := s } = .ok () { r with stream, formula := g, log }) :
    ∃ stream : PlainStream, stream.rest = encode more ∧
      file (fuel + 1) r = file fuel { r with stream, formula := g, log } := by
  obtain ⟨s₁, b, line, hs₁, hb, hfile⟩ := file_first hs hc fuel
  obtain ⟨s₂, hs₂, hrun⟩ := hitem s₁ b hs₁ hb
  obtain ⟨s₃, hline, hs₃⟩ := ByteStream.skipLine_at s₂
  rw [hs₂, Text.nextLine_newline] at hs₃
  refine ⟨s₃, hs₃, hfile.trans ?_⟩
  refine (run_bind_of_ok (within_eq_ok.mpr hrun)).trans ?_
  rw [run_bind_of_ok (onStream_eq_ok.mpr ⟨s₃, hline, rfl⟩)]

private theorem item_support {b : UInt8} {vs : List Variable} (hvs : vs ≠ [])
    (hs : r.stream.rest =
      encode ("c ind ".toList ++ zeroTerminated (vs.map (Text.Decimal.digits ·.number)) ++ '\n' :: more))
    (hb : b ∈ r.stream.rest.head?) (hrange : ∀ v ∈ vs, v.number ≤ r.formula.variableCount) :
    ∃ stream : PlainStream, stream.rest = encode ('\n' :: more) ∧
      item b r = .ok () { r with stream, formula := vs.foldl Formula.addSupport r.formula } := by
  have hmap : vs.map (Text.Decimal.digits ·.number) ≠ [] := by simpa using hvs
  have hzero : zeroTerminated (vs.map (Text.Decimal.digits ·.number)) =
      unwords (vs.map (Text.Decimal.digits ·.number) ++ [Text.Decimal.digits 0]) :=
    (unwords_append_singleton hmap _).symm
  have hwords : Text.words (" ind ".toList ++ zeroTerminated (vs.map (Text.Decimal.digits ·.number))) =
      "ind".toList :: (vs.map (Text.Decimal.digits ·.number) ++ [Text.Decimal.digits 0]) := by
    rw [hzero]
    exact words_supportLine vs
  have hline : Text.line (encode (" ind ".toList ++ zeroTerminated (vs.map (Text.Decimal.digits ·.number)) ++
      '\n' :: more)) = " ind ".toList ++ zeroTerminated (vs.map (Text.Decimal.digits ·.number)) :=
    Text.line_encode (Formula.isInline_supportLine vs).1 endsLine_newline
  have hfirst : r.stream.rest = 'c'.toUInt8 :: encode (" ind ".toList ++
      zeroTerminated (vs.map (Text.Decimal.digits ·.number)) ++ '\n' :: more) := hs
  obtain ⟨s, hrest, hrun⟩ := comment_support hfirst (by rw [hline]; rfl) (by rw [hline]; exact hwords)
    (variablesAt_digits hrange _)
  rw [Text.lineEnd_encode (Formula.isInline_supportLine vs).1 endsLine_newline] at hrest
  rw [hfirst] at hb
  cases hb
  rw [item, if_neg (by decide), if_neg (by decide), if_pos rfl]
  exact ⟨s, hrest, hrun⟩

private theorem file_plainLines {lines : List (List Char)} (hlines : ∀ text ∈ lines, IsPlainLine text) (fuel : Nat)
    {r : Reader PlainStream} (hs : r.stream.rest = encode (unlines lines ++ more))
    (hweights : ∀ text ∈ lines, IsWeightsLine text → r.format ≠ .detect ∧ r.format ≠ .minic2d) :
    ∃ stream : PlainStream, stream.rest = encode more ∧ file (fuel + lines.length) r =
      file fuel { r with stream, formula := lines.foldl (fun f text => f.addLine (.raw text)) r.formula } := by
  induction lines generalizing r with
  | nil => exact ⟨r.stream, hs, rfl⟩
  | cons text lines ih =>
    have htext := hlines text List.mem_cons_self
    obtain ⟨c, cs, rfl, hc, -⟩ := htext.first
    rw [unlines, List.flatMap_cons, ← unlines, List.append_assoc, List.append_assoc] at hs
    have hitem (s : PlainStream) (b : UInt8) (hs : s.rest = encode (c :: cs ++ '\n' :: (unlines lines ++ more)))
        (hb : b ∈ s.rest.head?) :
        ∃ stream : PlainStream, stream.rest = encode ('\n' :: (unlines lines ++ more)) ∧
          item b { r with stream := s } =
            .ok () { r with stream, formula := r.formula.addLine (.raw (c :: cs)), log := r.log } :=
      item_plain (r := { r with stream := s }) htext hs hb (hweights _ List.mem_cons_self)
    obtain ⟨s₁, hs₁, hstep⟩ := file_step hs hc hitem
    obtain ⟨s₂, hs₂, hrun⟩ := ih (r := { r with stream := s₁, formula := r.formula.addLine (.raw (c :: cs)) })
      (fun t ht => hlines t (List.mem_cons_of_mem _ ht)) hs₁ fun t ht => hweights t (List.mem_cons_of_mem _ ht)
    exact ⟨s₂, hs₂, hstep.trans hrun⟩

private theorem file_header (hs : r.stream.rest = encode (f.headerLine ++ '\n' :: more))
    (hvariables : f.variableCount < 2 ^ 63)
    (hclauses : f.clauseCount < 2 ^ 63) (fuel : Nat) :
    ∃ stream : PlainStream, stream.rest = encode more ∧ file (fuel + 1) r = file fuel
      { r with
        stream
        formula := r.formula.setCounts f.variableCount f.clauseCount
        log := r.log.push (.headerRead f.variableCount f.clauseCount) } := by
  apply file_step (c := 'p') hs (by decide)
  intro s b hs hb
  obtain ⟨stream, hstream, hrun⟩ := header_at (r := { r with stream := s }) (hs ▸ headerAt_encode hvariables hclauses endsLine_newline)
  refine ⟨stream, hstream, ?_⟩
  rw [hs] at hb
  cases hb
  rw [item, if_pos (by decide)]
  exact hrun

private theorem file_supportLine (hs : r.stream.rest = encode (unlines f.supportLine? ++ more))
    (hrange : ∀ v ∈ f.support.toList, v.number ≤ r.formula.variableCount) (fuel : Nat) :
    ∃ stream : PlainStream, stream.rest = encode more ∧ file (fuel + f.supportLine?.length) r =
      file fuel { r with stream, formula := f.support.toList.foldl Formula.addSupport r.formula } := by
  cases hempty : f.support.isEmpty with
  | true =>
    rw [Formula.supportLine?, hempty, if_pos rfl] at hs ⊢
    rw [Support.isEmpty_iff.mp hempty]
    exact ⟨r.stream, hs, rfl⟩
  | false =>
    have hne : f.support.toList ≠ [] := by
      rw [ne_eq, ← Support.isEmpty_iff, hempty]
      exact Bool.false_ne_true
    rw [Formula.supportLine?, hempty, if_neg Bool.false_ne_true] at hs ⊢
    rw [unlines, List.flatMap_singleton, List.append_assoc] at hs
    have hitem (s : PlainStream) (b : UInt8)
        (hs : s.rest = encode ("c ind ".toList ++
          zeroTerminated (f.support.toList.map (Text.Decimal.digits ·.number)) ++ '\n' :: more))
        (hb : b ∈ s.rest.head?) : ∃ stream : PlainStream, stream.rest = encode ('\n' :: more) ∧
          item b { r with stream := s } =
            .ok () { r with stream, formula := f.support.toList.foldl Formula.addSupport r.formula, log := r.log } :=
      item_support (r := { r with stream := s }) hne hs hb hrange
    exact file_step (c := 'c') hs (by decide) hitem

private theorem file_end {r : Reader PlainStream} (hs : r.stream.rest = [])
    (hformat : r.format ≠ .cachet ∧ r.format ≠ .cachetOrMc20) (fuel : Nat) :
    ∃ stream, file fuel r = .ok () { r with stream } := by
  have hfinish (stream : PlainStream) : finish { r with stream } = .ok () { r with stream } := by
    refine (run_bind_of_ok (s := { r with stream }) rfl).trans ?_
    cases hf : r.format with
    | cachet => exact absurd hf hformat.1
    | cachetOrMc20 => exact absurd hf hformat.2
    | _ => rfl
  obtain ⟨stream, hfile⟩ := file_blanks (hs ▸ List.forall_mem_nil _) fuel
  exact ⟨stream, hfile.trans (hfinish stream)⟩

end Reading

private theorem Support.toList_foldl_insert {vs : List Variable} {s : Support} (h : (s.toList ++ vs).Nodup) :
    (vs.foldl insert s).toList = s.toList ++ vs := by
  induction vs generalizing s with
  | nil => exact (List.append_nil _).symm
  | cons v vs ih =>
    have hv : ¬ s.contains v = true := by
      rw [contains_iff]
      intro hv
      exact (List.nodup_append.mp h).2.2 v hv v List.mem_cons_self rfl
    have hinsert := toList_insert hv
    rw [List.foldl_cons, ih (by rwa [hinsert, List.append_assoc]), hinsert, List.append_assoc, List.singleton_append]

namespace Formula

private theorem foldl_addLine (lines : List (List Char)) (f : Formula) :
    lines.foldl (fun f text => f.addLine (.raw text)) f =
      { f with body := f.body ++ (lines.map Line.raw).toArray } := by
  induction lines generalizing f with
  | nil => simp
  | cons text lines ih =>
    rw [List.foldl_cons, ih]
    simp [addLine]

end Formula

/-- Each line ends with a byte of its own. -/
private theorem length_le_encode_unlines (lines : List (List Char)) :
    lines.length ≤ (encode (unlines lines)).length := by
  induction lines with
  | nil => exact Nat.zero_le _
  | cons line lines ih =>
    have hnewline : (encode ['\n']).length = 1 := rfl
    rw [unlines, List.flatMap_cons, ← unlines, encode_append, encode_append, List.length_append,
      List.length_append, List.length_cons, hnewline]
    omega

namespace Formula
variable {f : Formula} {front : List (List Char)}

/-- What is read when a formula is written behind some lines: it has no weights, and all lines are kept as text. -/
def readBack (f : Formula) (front : List (List Char)) : Formula where
  variableCount := f.variableCount
  clauseCount := f.clauseCount
  body := ((front ++ f.body.toList.map Line.text).map Line.raw).toArray
  support := f.support.toList.foldl Support.insert .empty
  format := .mc20

theorem toList_support_readBack (front : List (List Char)) :
    (f.readBack front).support.toList = f.support.toList :=
  Support.toList_foldl_insert (s := .empty) (by simpa [Support.toList, Support.empty] using f.support.nodup)

theorem weight_readBack (l : Literal) : (f.readBack front).weight l = .one := by
  simp [weight, readBack]

private theorem readFrom_of_file (stream : PlainStream) {format : WeightFormat} {log : Log} {r : Reader PlainStream}
    (h : Reading.file (stream.rest.length + 1) { stream, format, log } = .ok () r) :
    readFrom stream format log = .ok { r.formula with format := r.format } r.log := by
  have hfile : Reading.file (ByteStream.unread stream + 1) { stream, format, log } = .ok () r := h
  simp only [readFrom, hfile]

/-- The header and the support of a written formula are read, and the lines in front of them. -/
theorem file_head (format : WeightFormat) (hfront : ∀ text ∈ front, IsPlainLine text)
    (hweights : ∀ text ∈ front, IsWeightsLine text → format ≠ .detect ∧ format ≠ .minic2d) (hr : f.SupportInRange)
    (hvariables : f.variableCount < 2 ^ 63) (hclauses : f.clauseCount < 2 ^ 63) (log : Log) :
    ∃ (stream : PlainStream) (fuel : Nat), stream.rest = encode (unlines (f.body.toList.map Line.text) ++ []) ∧
      Reading.file ((encode (unlines (front ++ f.lines))).length + 1)
          { stream := (⟨encode (unlines (front ++ f.lines)), {}⟩ : PlainStream), format, log } =
        Reading.file (fuel + (f.body.toList.map Line.text).length)
          { stream, format
            formula := f.support.toList.foldl addSupport ((front.foldl (fun g text => g.addLine (.raw text))
              ({} : Formula)).setCounts f.variableCount f.clauseCount)
            log := log.push (.headerRead f.variableCount f.clauseCount) } := by
  have htext : unlines (front ++ f.lines) = unlines front ++ (f.headerLine ++ '\n' :: (unlines f.supportLine? ++
      (unlines (f.body.toList.map Line.text) ++ []))) := by
    simp [unlines, lines]
  obtain ⟨fuel, hfuel⟩ : ∃ fuel, (encode (unlines (front ++ f.lines))).length + 1 =
      fuel + (f.body.toList.map Line.text).length + f.supportLine?.length + 1 + front.length := by
    have hcount : (front ++ f.lines).length =
        front.length + (f.supportLine?.length + (f.body.toList.map Line.text).length + 1) := by
      simp only [lines, List.length_append, List.length_cons]
    obtain ⟨fuel, hfuel⟩ := Nat.exists_eq_add_of_le (length_le_encode_unlines (front ++ f.lines))
    exact ⟨fuel + 1, by omega⟩
  obtain ⟨s₁, hs₁, h₁⟩ := Reading.file_plainLines hfront
    (fuel + (f.body.toList.map Line.text).length + f.supportLine?.length + 1)
    (r := { stream := ⟨encode (unlines (front ++ f.lines)), {}⟩, format, log }) (congrArg encode htext) hweights
  dsimp only at h₁
  generalize front.foldl (fun (g : Formula) text => g.addLine (.raw text)) {} = f₁ at h₁
  obtain ⟨s₂, hs₂, h₂⟩ := Reading.file_header (r := { stream := s₁, format, formula := f₁, log }) hs₁
    hvariables hclauses (fuel + (f.body.toList.map Line.text).length + f.supportLine?.length)
  obtain ⟨s₃, hs₃, h₃⟩ := Reading.file_supportLine
    (r := { stream := s₂, format, formula := f₁.setCounts f.variableCount f.clauseCount, log := _ }) hs₂ hr
    (fuel + (f.body.toList.map Line.text).length)
  exact ⟨s₃, fuel, hs₃, hfuel ▸ (h₁.trans h₂).trans h₃⟩

/-- A written formula is read again in a format that does not complete weights and takes none of its lines for a
list of weights. -/
theorem readFrom_lines_in (format : WeightFormat) (hformat : format ≠ .cachet ∧ format ≠ .cachetOrMc20)
    (hfront : ∀ text ∈ front, IsPlainLine text) (hbody : ∀ text ∈ f.body.toList.map Line.text, IsPlainLine text)
    (hweights : ∀ text ∈ front ++ f.body.toList.map Line.text, IsWeightsLine text →
      format ≠ .detect ∧ format ≠ .minic2d)
    (hr : f.SupportInRange) (hvariables : f.variableCount < 2 ^ 63) (hclauses : f.clauseCount < 2 ^ 63) (log : Log) :
    readFrom (⟨encode (unlines (front ++ f.lines)), {}⟩ : PlainStream) format log =
      .ok { f.readBack front with format } (log.push (.headerRead f.variableCount f.clauseCount)) := by
  obtain ⟨s₃, fuel, hs₃, h₃⟩ := file_head format hfront
    (fun text htext => hweights text (List.mem_append_left _ htext)) hr hvariables hclauses log
  obtain ⟨s₄, hs₄, h₄⟩ := Reading.file_plainLines hbody fuel (r := { stream := s₃, format, formula := _, log := _ })
    hs₃ fun text htext => hweights text (List.mem_append_right _ htext)
  obtain ⟨s₅, h₅⟩ := Reading.file_end (r := { stream := s₄, format, formula := _, log := _ }) hs₄ hformat fuel
  rw [readFrom_of_file ⟨encode (unlines (front ++ f.lines)), {}⟩ ((h₃.trans h₄).trans h₅), foldl_addLine,
    foldl_addSupport, foldl_addLine]
  simp [readBack, setCounts]

/-- Where every literal can have a line of its own, no line is taken for a list of weights. -/
theorem readFrom_lines (hfront : ∀ text ∈ front, IsPlainLine text)
    (hbody : ∀ text ∈ f.body.toList.map Line.text, IsPlainLine text) (hr : f.SupportInRange)
    (hvariables : f.variableCount < 2 ^ 63) (hclauses : f.clauseCount < 2 ^ 63) (log : Log) :
    readFrom (⟨encode (unlines (front ++ f.lines)), {}⟩ : PlainStream) .mc20 log =
      .ok (f.readBack front) (log.push (.headerRead f.variableCount f.clauseCount)) :=
  readFrom_lines_in .mc20 ⟨nofun, nofun⟩ hfront hbody (fun _ _ _ => ⟨nofun, nofun⟩) hr hvariables
    hclauses log

end Formula
end WeightedCnf
