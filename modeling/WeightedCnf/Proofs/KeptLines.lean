import Mathlib.Algebra.BigOperators.Group.List.Basic
import WeightedCnf.Proofs.DimacsLines
import WeightedCnf.Proofs.FormatDetection
import WeightedCnf.Proofs.LossyDecoding
import WeightedCnf.Proofs.PlainReading

/-! The lines that a reader keeps are kept again when they are read once more, and there are not more of them
than the bytes that were read can hold. -/
namespace WeightedCnf
open Text (newline isAsciiBlank isBlankByte)

/-- What comes behind the letter of a comment starts the list of the support. -/
def StartsSupport (rest : List Char) : Prop :=
  rest.head?.any isAsciiBlank = true ∧ (Text.words rest).head? = some "ind".toList

/-- What comes behind the letter of a comment starts a list of weights. -/
def StartsWeights (rest : List Char) : Prop :=
  rest.head?.any isAsciiBlank = true ∧ (Text.words rest).head? = some "weights".toList

/-- A line that the formats with a list of weights take for one. -/
def IsWeightsLine (text : List Char) : Prop :=
  text.head? = some 'c' ∧ StartsWeights text.tail

instance : DecidablePred IsWeightsLine := fun text =>
  inferInstanceAs (Decidable (text.head? = some 'c' ∧ text.tail.head?.any isAsciiBlank = true ∧
    (Text.words text.tail).head? = some "weights".toList))

/-- A text is one line, and no item but a clause or a comment without a meaning. -/
structure IsPlainLine (text : List Char) : Prop where
  newline : '\n' ∉ text
  first : ∃ c cs, text = c :: cs ∧ isAsciiBlank c = false ∧ c ≠ 'p' ∧ c ≠ 'w' ∧ (c = 'c' → ¬ StartsSupport cs)

def Line.IsKept : Line → Prop
  | .raw text => IsPlainLine text
  | .clause _ => False
  | .comment text => Dimacs.Scanner.IsInline text ∧ IsPlainLine ("c ".toList ++ text)

theorem Line.IsKept.isPlainLine {line : Line} (h : line.IsKept) : IsPlainLine line.text := by
  cases line with
  | raw text => exact h
  | clause c => exact h.elim
  | comment text => exact h.2

/-- The characters of a line that came from the input, its newline included. -/
def Line.size : Line → Nat
  | .raw text => text.length + 1
  | _ => 0

def Formula.bodySize (f : Formula) : Nat :=
  (f.body.toList.map Line.size).sum

namespace Formula
variable (f : Formula) (line : Line)

private theorem bodySize_addLine : (f.addLine line).bodySize = f.bodySize + line.size := by
  simp [bodySize, addLine]

private theorem mem_addLine {l : Line} : l ∈ (f.addLine line).body.toList ↔ l ∈ f.body.toList ∨ l = line := by
  simp [addLine]

end Formula

namespace Reading
open ByteStream (skipBlanks skipLine restOfLine token integer)
variable {α β : Type}

/-- A step keeps only lines that may be kept, and no more characters than bytes are passed, or `spare` more. -/
structure Advances (spare : Nat) (r r' : Reader PlainStream) : Prop where
  isKept : (∀ line ∈ r.formula.body.toList, line.IsKept) → ∀ line ∈ r'.formula.body.toList, line.IsKept
  size : r'.formula.bodySize + r'.stream.rest.length ≤ r.formula.bodySize + r.stream.rest.length + spare

def Advancing (x : Reading PlainStream α) : Prop :=
  ∀ r a r', x r = .ok a r' → Advances 0 r r'

private theorem Advances.trans {spare spare' : Nat} {r₁ r₂ r₃ : Reader PlainStream} (h : Advances spare r₁ r₂)
    (h' : Advances spare' r₂ r₃) : Advances (spare + spare') r₁ r₃ where
  isKept hr := h'.isKept (h.isKept hr)
  size := by
    have hsize := h.size
    have hsize' := h'.size
    omega

private theorem Advances.mono {spare spare' : Nat} {r r' : Reader PlainStream} (h : Advances spare r r')
    (hle : spare ≤ spare') : Advances spare' r r' :=
  ⟨h.isKept, h.size.trans (Nat.add_le_add_left hle _)⟩

private theorem advances_of_body {r r' : Reader PlainStream} (hbody : r'.formula.body = r.formula.body)
    (hrest : r'.stream.rest.length ≤ r.stream.rest.length) : Advances 0 r r' := by
  refine ⟨fun hr => by rwa [hbody], ?_⟩
  rw [Formula.bodySize, Formula.bodySize, hbody]
  exact Nat.add_le_add_left hrest _

private theorem advancing_pure (a : α) : Advancing (pure a) := by
  intro r a' r' h
  cases h
  exact ⟨id, Nat.le_refl _⟩

private theorem advancing_throw (e : Stop FormulaError) : Advancing (α := α) (throw e) :=
  fun _ _ _ h => nomatch h

private theorem Advancing.bind {x : Reading PlainStream α} {f : α → Reading PlainStream β} (hx : Advancing x)
    (hf : ∀ a, Advancing (f a)) : Advancing (x >>= f) := by
  intro r b r' h
  obtain ⟨a, r₁, ha, hb⟩ := run_bind_eq_ok.mp h
  exact (hx _ _ _ ha).trans (hf a _ _ _ hb)

private theorem advancing_bind_get {f : Reader PlainStream → Reading PlainStream α} (h : ∀ r, Advancing (f r)) :
    Advancing (get >>= f) :=
  fun r _ _ hr => h r r _ _ hr

private theorem Advancing.ite {c : Prop} [Decidable c] {x y : Reading PlainStream α} (hx : Advancing x)
    (hy : Advancing y) : Advancing (if c then x else y) := by
  by_cases hc : c
  · rwa [if_pos hc]
  · rwa [if_neg hc]

private theorem advancing_onFormula {f : Formula → Formula} (h : ∀ g, (f g).body = g.body) :
    Advancing (onFormula f) := by
  intro r a r' hr
  cases hr
  exact advances_of_body (h _) (Nat.le_refl _)

private theorem advancing_report (event : Event) : Advancing (report event) := by
  intro r a r' hr
  cases hr
  exact advances_of_body rfl (Nat.le_refl _)

private theorem advancing_require (c : Bool) (e : FormulaError) : Advancing (require c e) :=
  .ite (advancing_pure _) (advancing_throw _)

private theorem advancing_assume (x : Except Fault α) : Advancing (assume x) := by
  cases x with
  | ok a => exact advancing_pure a
  | error e => exact advancing_throw _

theorem within_eq_ok {σ : Type} {context : FormulaError → FormulaError} {x : Reading σ α} {r r' : Reader σ} {a : α} :
    within context x r = .ok a r' ↔ x r = .ok a r' := by
  change EStateM.adaptExcept _ x r = _ ↔ _
  unfold EStateM.adaptExcept
  cases x r with
  | ok b s => exact Iff.rfl
  | error e s => exact ⟨(nomatch ·), (nomatch ·)⟩

theorem within_of_error {σ : Type} (context : FormulaError → FormulaError) {x : Reading σ α} {r r' : Reader σ}
    {stop : Stop FormulaError} (h : x r = .error stop r') : within context x r = .error (stop.map context) r' := by
  change EStateM.adaptExcept _ x r = _
  rw [EStateM.adaptExcept, h]

private theorem Advancing.within {x : Reading PlainStream α} (h : Advancing x) (context : FormulaError → FormulaError) :
    Advancing (within context x) :=
  fun _ _ _ hr => h _ _ _ (within_eq_ok.mp hr)

/-- Using the stream changes nothing else. -/
theorem onStream_eq_ok {σ : Type} {x : EStateM StreamError σ α} {r r' : Reader σ} {a : α} :
    onStream x r = .ok a r' ↔ ∃ s, x r.stream = .ok a s ∧ { r with stream := s } = r' := by
  unfold onStream
  cases x r.stream with
  | ok b s =>
    constructor
    · intro h
      cases h
      exact ⟨s, rfl, rfl⟩
    · rintro ⟨s', hs, rfl⟩
      cases hs
      rfl
  | error e s => exact ⟨(nomatch ·), fun ⟨_, hs, _⟩ => nomatch hs⟩

theorem onStream_of_error {σ : Type} {x : EStateM StreamError σ α} {r : Reader σ} {e : StreamError} {s : σ}
    (h : x r.stream = .error e s) : onStream x r = .error (.error (.stream e)) { r with stream := s } := by
  rw [onStream, h]

private theorem advancing_onStream {x : EStateM StreamError PlainStream α}
    (h : ∀ s a s', x s = .ok a s' → s'.rest.length ≤ s.rest.length) : Advancing (onStream x) := by
  intro r a r' hr
  obtain ⟨s, hs, rfl⟩ := onStream_eq_ok.mp hr
  exact advances_of_body rfl (h _ _ _ hs)

private theorem advancing_settle (format : WeightFormat) : Advancing (settle format) := by
  refine (advancing_report _).bind fun _ => .bind (fun r a r' hr => ?_) fun _ r a r' hr => ?_
  · cases hr
    have hkept : (Line.comment ("detected weight format: " ++ format.name).toList).IsKept := by
      cases format
      all_goals
        refine ⟨⟨by decide, by decide⟩, ⟨by decide, _, _, rfl, by decide, by decide, by decide, fun _ h => ?_⟩⟩
        exact absurd h.2 (by decide)
    refine ⟨fun h line hline => ?_, ?_⟩
    · rcases (Formula.mem_addLine _ _).mp hline with hline | rfl
      · exact h line hline
      · exact hkept
    · exact Nat.le_of_eq (congrArg (· + _) (Formula.bodySize_addLine _ _))
  · cases hr
    exact advances_of_body rfl (Nat.le_refl _)

private theorem advancing_recordWeight (l : Literal) (text : List Char) : Advancing (recordWeight l text) := by
  unfold recordWeight
  cases Weight.read text with
  | ok w => exact advancing_onFormula fun _ => rfl
  | error e => exact (advancing_report _).bind fun _ => advancing_onFormula fun _ => rfl

private theorem length_dropWhile_le (q : UInt8 → Bool) (bytes : List UInt8) :
    (bytes.dropWhile q).length ≤ bytes.length :=
  (List.dropWhile_sublist q).length_le

private theorem length_rest_token {s s' : PlainStream} {text : List Char} (h : token s = .ok text s') :
    s'.rest.length ≤ s.rest.length := by
  rw [ByteStream.token_eq s rfl rfl rfl] at h
  split at h
  · cases h
  · cases h
    exact (length_dropWhile_le _ _).trans (length_dropWhile_le _ _)

private theorem advancing_token : Advancing (onStream token) := advancing_onStream fun _ _ _ => length_rest_token

private theorem advancing_integer : Advancing (onStream integer) := by
  apply advancing_onStream
  intro s n s' h
  obtain ⟨text, s₁, htext, hn⟩ := run_bind_eq_ok.mp h
  have hs : s' = s₁ := by
    cases hm : ByteStream.integer? text with
    | some m =>
      simp only [hm] at hn
      cases hn
      rfl
    | none =>
      simp only [hm] at hn
      cases hn
  exact hs ▸ length_rest_token htext

private theorem advancing_passPrefix (bytes : List UInt8) : Advancing (onStream (ByteStream.passPrefix bytes)) := by
  apply advancing_onStream
  intro s found s' h
  by_cases hprefix : bytes <+: s.rest
  · obtain ⟨rest, hrest⟩ := hprefix
    cases (ByteStream.passPrefix_of_prefix s hrest.symm).symm.trans h
    rw [← hrest, List.length_append]
    exact Nat.le_add_left _ _
  · cases (ByteStream.passPrefix_of_not_prefix s hprefix).symm.trans h
    exact Nat.le_refl _

private theorem advancing_nextWord (words : List (List Char)) : Advancing (nextWord words) := by
  cases words with
  | nil => exact advancing_token.bind fun _ => advancing_pure _
  | cons word words => exact advancing_pure _

private theorem advancing_literal : Advancing literal :=
  advancing_integer.bind fun _ => advancing_bind_get fun _ => (advancing_require _ _).bind fun _ =>
    advancing_assume _

private theorem advancing_header : Advancing header :=
  (advancing_passPrefix _).bind fun _ => (advancing_require _ _).bind fun _ => advancing_integer.bind fun _ =>
    advancing_integer.bind fun _ => (advancing_require _ _).bind fun _ => (advancing_require _ _).bind fun _ =>
      (advancing_report _).bind fun _ => advancing_onFormula fun _ => rfl

private theorem advancing_modify_format (format : WeightFormat) :
    Advancing (modify fun r => { r with format } : Reading PlainStream PUnit) := by
  intro r a r' h
  cases h
  exact advances_of_body rfl (Nat.le_refl _)

private theorem advancing_weightLine : Advancing weightLine := by
  have hmeet : Advancing meetWeightLine := by
    apply advancing_bind_get
    intro r
    cases r.format with
    | minic2d => exact advancing_throw _
    | detect => exact advancing_modify_format _
    | _ => exact advancing_pure _
  have hliteral (l : Literal) : Advancing (meetLiteral l) := by
    refine .ite (advancing_pure _) (advancing_bind_get fun r => ?_)
    cases r.format with
    | cachet => exact advancing_throw _
    | cachetOrMc20 => exact advancing_settle _
    | _ => exact advancing_pure _
  have hnone : Advancing meetNoWeight := by
    apply advancing_bind_get
    intro r
    cases r.format with
    | cachetOrMc20 => exact advancing_settle _
    | cachet => exact advancing_pure _
    | _ => exact advancing_throw _
  refine (advancing_passPrefix _).bind fun _ => (advancing_require _ _).bind fun _ => hmeet.bind fun _ =>
    advancing_literal.bind fun l => (hliteral l).bind fun _ => advancing_token.bind fun weight => ?_
  exact .ite (hnone.bind fun _ => advancing_onFormula fun _ => rfl) (advancing_recordWeight _ _)

private theorem advancing_supportList (fuel : Nat) (words : List (List Char)) : Advancing (supportList fuel words) := by
  induction fuel generalizing words with
  | zero => exact advancing_pure _
  | succ fuel ih =>
    refine (advancing_nextWord words).bind fun (word, words) => ?_
    dsimp only
    cases ByteStream.integer? word with
    | none => exact advancing_throw _
    | some n =>
      exact .ite (advancing_pure _) (advancing_bind_get fun r => (advancing_require _ _).bind fun _ =>
        (advancing_assume _).bind fun v => (advancing_onFormula (f := (·.addSupport v)) fun _ => rfl).bind
          fun _ => ih words)

private theorem advancing_weightList (count number : Nat) (words : List (List Char)) :
    Advancing (weightList count number words) := by
  induction count generalizing number words with
  | zero => exact advancing_pure _
  | succ count ih =>
    exact (advancing_assume _).bind fun v => ((advancing_nextWord words).within _).bind fun (weight, words) =>
      (advancing_recordWeight _ weight).bind fun _ => ((advancing_nextWord words).within _).bind
        fun (weight, words) => (advancing_recordWeight _ weight).bind fun _ => ih (number + 1) words

theorem body_completeAllWeights {f g : Formula} (h : f.completeAllWeights = .ok g) : g.body = f.body := by
  obtain ⟨vs, -, hrun⟩ := bind_eq_ok.mp h
  clear h
  induction vs generalizing f with
  | nil =>
    cases hrun
    rfl
  | cons v vs ih =>
    obtain ⟨k, hk, hrun⟩ := bind_eq_ok.mp hrun
    rw [ih hrun]
    unfold Formula.completeWeights at hk
    split at hk
    · obtain ⟨w, -, hw⟩ := bind_eq_ok.mp hk
      cases hw
      rfl
    · cases hk
      rfl

private theorem advancing_finish : Advancing finish := by
  have hcomplete : Advancing complete := by
    intro r a r' h
    obtain ⟨r₀, _, hget, h⟩ := run_bind_eq_ok.mp h
    cases hget
    obtain ⟨g, r₁, hg, h⟩ := run_bind_eq_ok.mp h
    cases hresult : r.formula.completeAllWeights with
    | ok g' =>
      rw [hresult] at hg
      cases hg
      cases h
      exact advances_of_body (body_completeAllWeights hresult) (Nat.le_refl _)
    | error e =>
      rw [hresult] at hg
      cases hg
  apply advancing_bind_get
  intro r
  cases r.format with
  | cachetOrMc20 => exact (advancing_settle _).bind fun _ => hcomplete
  | cachet => exact hcomplete
  | _ => exact advancing_pure _

private theorem advances_addLine {r : Reader PlainStream} {text : List Char} {stream : PlainStream}
    (htext : IsPlainLine text) (hsize : text.length + stream.rest.length ≤ r.stream.rest.length) :
    Advances 1 r { r with stream, formula := r.formula.addLine (.raw text) } := by
  refine ⟨fun h line hline => ?_, ?_⟩
  · rcases (Formula.mem_addLine _ _).mp hline with hline | rfl
    · exact h line hline
    · exact htext
  · rw [Formula.bodySize_addLine, Line.size]
    dsimp only
    omega

private theorem newline_not_mem_decode (bytes : List UInt8) :
    '\n' ∉ Text.Utf8.decode (bytes.takeWhile (· != newline)) := by
  intro h
  obtain ⟨b, hb, hn⟩ := Text.Utf8.mem_of_mem_decode h (by decide)
  have hne := List.mem_takeWhile_imp hb
  rw [UInt8.toNat_inj.mp (hn.trans (show '\n'.toNat = newline.toNat from rfl))] at hne
  cases hne

private theorem length_decode_line (bytes : List UInt8) :
    (Text.Utf8.decode (bytes.takeWhile (· != newline))).length + (bytes.dropWhile (· != newline)).length ≤
      bytes.length := by
  refine (Nat.add_le_add_right (Text.Utf8.length_decode_le _) _).trans (Nat.le_of_eq ?_)
  rw [← List.length_append, List.takeWhile_append_dropWhile]

private theorem advances_comment {r r' : Reader PlainStream} {bytes : List UInt8}
    (hrest : r.stream.rest = 'c'.toUInt8 :: bytes) (h : comment r = .ok () r') : Advances 1 r r' := by
  obtain ⟨_, r₁, hpass, h⟩ := run_bind_eq_ok.mp h
  cases hpass
  obtain ⟨rest, r₂, hline, h⟩ := run_bind_eq_ok.mp h
  obtain ⟨s₂, hs₂, rfl⟩ := onStream_eq_ok.mp hline
  have heq := ByteStream.restOfLine_eq (PlainStream.pass r.stream)
  rw [PlainStream.rest_pass, hrest, List.tail_cons] at heq
  cases heq.symm.trans hs₂
  have hlength := length_decode_line bytes
  have hread (position : Position) :
      Advances 0 r { r with stream := ⟨bytes.dropWhile (· != newline), position⟩ } :=
    advances_of_body rfl (by rw [hrest, List.length_cons]; dsimp only; omega)
  obtain ⟨_, _, hget, h⟩ := run_bind_eq_ok.mp h
  cases hget
  dsimp only at h
  split at h
  · exact ((hread _).trans (advancing_supportList _ _ _ _ _ h)).mono (Nat.zero_le _)
  rename_i hsupport
  split at h
  · have hlist := Advancing.ite ((advancing_settle _).bind fun _ => advancing_weightList _ _ _)
      (advancing_weightList _ _ _) _ _ _ h
    exact ((hread _).trans hlist).mono (Nat.zero_le _)
  · cases h
    refine advances_addLine ⟨?_, 'c', _, rfl, by decide, by decide, by decide, fun _ hs => hsupport ?_⟩ ?_
    · exact List.not_mem_cons_of_ne_of_not_mem (by decide) (newline_not_mem_decode bytes)
    · rw [Bool.and_eq_true, beq_iff_eq]
      exact hs
    · rw [hrest, List.length_cons, List.length_cons]
      dsimp only
      omega

private theorem advances_otherLine {r r' : Reader PlainStream} {first : UInt8} {bytes : List UInt8}
    (hrest : r.stream.rest = first :: bytes) (hblank : isBlankByte first = false) (hp : first ≠ 'p'.toUInt8)
    (hw : first ≠ 'w'.toUInt8) (hc : first ≠ 'c'.toUInt8) (h : otherLine r = .ok () r') : Advances 1 r r' := by
  obtain ⟨text, r₁, hline, h⟩ := run_bind_eq_ok.mp h
  obtain ⟨s₁, hs₁, rfl⟩ := onStream_eq_ok.mp hline
  cases (ByteStream.restOfLine_eq r.stream).symm.trans hs₁
  cases h
  refine advances_addLine ⟨newline_not_mem_decode _, ?_⟩ (length_decode_line _)
  have hnewline : (first != newline) = true := by
    rw [bne_iff_ne]
    rintro rfl
    cases hblank
  rw [hrest, List.takeWhile_cons, if_pos hnewline]
  obtain ⟨c, cs, hdecode, hstands⟩ := Text.Utf8.decode_cons first (bytes.takeWhile (· != newline))
  have hne : c ≠ 'c' := fun he => hc ((hstands.eq_iff (by decide)).mpr he)
  exact ⟨c, cs, hdecode, hstands.isBlankByte ▸ hblank, fun he => hp ((hstands.eq_iff (by decide)).mpr he),
    fun he => hw ((hstands.eq_iff (by decide)).mpr he), fun he => absurd he hne⟩

private theorem advances_item {r r' : Reader PlainStream} {first : UInt8} {bytes : List UInt8}
    (hrest : r.stream.rest = first :: bytes) (hblank : isBlankByte first = false)
    (h : item first r = .ok () r') : Advances 1 r r' := by
  unfold item at h
  split at h
  · exact (advancing_header _ _ _ h).mono (Nat.zero_le _)
  split at h
  · exact (advancing_weightLine _ _ _ h).mono (Nat.zero_le _)
  split at h
  · subst first
    exact advances_comment hrest h
  · exact advances_otherLine hrest hblank ‹_› ‹_› ‹_› h

/-- A file keeps only lines that may be kept; they have no more characters than the bytes that were left, but
for a newline that is missing at the end. -/
private theorem isKept_file {fuel limit : Nat} {r r' : Reader PlainStream} (h : file fuel r = .ok () r')
    (hkept : ∀ line ∈ r.formula.body.toList, line.IsKept)
    (hsize : r.formula.bodySize + r.stream.rest.length ≤ limit ∨
      r.stream.rest = [] ∧ r.formula.bodySize ≤ limit + 1) :
    (∀ line ∈ r'.formula.body.toList, line.IsKept) ∧ r'.formula.bodySize ≤ limit + 1 := by
  have hfinish {r : Reader PlainStream} (h : finish r = .ok () r')
      (hkept : ∀ line ∈ r.formula.body.toList, line.IsKept)
      (hsize : r.formula.bodySize + r.stream.rest.length ≤ limit + 1) :
      (∀ line ∈ r'.formula.body.toList, line.IsKept) ∧ r'.formula.bodySize ≤ limit + 1 := by
    obtain ⟨hisKept, hle⟩ := advancing_finish _ _ _ h
    exact ⟨hisKept hkept, by omega⟩
  induction fuel generalizing r with
  | zero =>
    apply hfinish h hkept
    rcases hsize with hsize | ⟨hnil, hsize⟩
    · exact Nat.le_succ_of_le hsize
    · rwa [hnil]
  | succ fuel ih =>
    obtain ⟨_, r₁, hskip, h⟩ := run_bind_eq_ok.mp h
    obtain ⟨s₁, hs₁, rfl⟩ := onStream_eq_ok.mp hskip
    cases (ByteStream.skipBlanks_eq r.stream).symm.trans hs₁
    obtain ⟨_, _, hget, h⟩ := run_bind_eq_ok.mp h
    cases hget
    obtain ⟨next, r₂, hpeek, h⟩ := run_bind_eq_ok.mp h
    cases hpeek
    dsimp only at h
    have hlength := length_dropWhile_le isBlankByte r.stream.rest
    cases hfirst : r.stream.rest.dropWhile isBlankByte with
    | nil =>
      rw [hfirst] at h
      apply hfinish h hkept
      rcases hsize with hsize | ⟨hnil, hsize⟩ <;> (dsimp only [List.length_nil]; omega)
    | cons first bytes =>
      rw [hfirst] at h hlength
      obtain ⟨_, r₃, hitem, h⟩ := run_bind_eq_ok.mp h
      obtain ⟨_, r₄, hline, h⟩ := run_bind_eq_ok.mp h
      have hblank : isBlankByte first = false := by
        have hne : r.stream.rest.dropWhile isBlankByte ≠ [] := by simp [hfirst]
        have hhead := List.head_dropWhile_not isBlankByte hne
        simpa [hfirst] using hhead
      have hread := advances_item rfl hblank (within_eq_ok.mp hitem)
      have hread' := hread.size
      obtain ⟨s₄, hs₄, rfl⟩ := onStream_eq_ok.mp hline
      cases (ByteStream.skipLine_eq r₃.stream).symm.trans hs₄
      have hlength' := length_dropWhile_le (· != newline) r₃.stream.rest
      apply ih h (hread.isKept hkept)
      dsimp only at hread' ⊢
      rw [List.length_tail]
      have hpos : 0 < (first :: bytes).length := Nat.succ_pos _
      rcases hsize with hsize | ⟨hnil, -⟩
      · by_cases hend : r₃.stream.rest = []
        · rw [hend] at hread' ⊢
          exact .inr ⟨rfl, by omega⟩
        · have hpos := List.length_pos_iff.mpr hend
          exact .inl (by omega)
      · rw [hnil] at hfirst
        cases hfirst

end Reading

theorem Formula.isKept_of_readFrom {f : Formula} {content : List UInt8} {format : WeightFormat} {log log' : Log}
    (h : readFrom (⟨content, {}⟩ : PlainStream) format log = .ok f log')
    (haccepted : 0 < f.variableCount ∨ ∀ e, .formulaNotRead e ∉ log'.toList) :
    (∀ line ∈ f.body.toList, line.IsKept) ∧ f.bodySize ≤ content.length + 1 := by
  obtain ⟨r, ⟨hfile, rfl, -⟩ | ⟨e, -, rfl, rfl⟩⟩ := readFrom_eq_ok h
  · refine Reading.isKept_file hfile (fun line hline => nomatch hline) (.inl ?_)
    exact Nat.le_of_eq (Nat.zero_add _)
  · rcases haccepted with hpos | hlog
    · cases hpos
    · exact absurd (by simp) (hlog e)

end WeightedCnf
