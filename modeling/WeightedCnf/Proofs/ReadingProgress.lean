import WeightedCnf.Proofs.AcceptedTexts
import WeightedCnf.Proofs.EntryReading
import WeightedCnf.Proofs.FailedReads
import WeightedCnf.Proofs.StreamProgress

/-! Reading makes progress: each item and each word of a list uses up something that is left of the input, whatever
headers announce. So the loops of reading come to an end, and the fuel of their recursion does not cut them short. -/
namespace WeightedCnf
open ByteStream (unread integer? skipBlanks skipLine)

namespace Reading

section Rounds
variable {σ : Type} [ByteStream σ]

/-- One round of `supportList`, which deals with one word. -/
def supportRound (words : List (List Char)) : Reading σ (List (List Char) ⊕ Unit) := do
  let (word, words) ← nextWord words
  match integer? word with
  | none => refuse (.supportNotInteger word)
  | some n =>
    if n = 0 then return .inr ()
    let f := (← get).formula
    require (0 < n && f.hasLiteral n) (.supportOutOfRange n f.variableCount)
    let v ← assume (Variable.ofNumber n)
    onFormula (·.addSupport v)
    return .inl words

/-- One round of `weightList`, which deals with the two words of a variable. -/
def weightRound : Nat × Nat × List (List Char) → Reading σ (Nat × Nat × List (List Char) ⊕ Unit)
  | (0, _, _) => return .inr ()
  | (count + 1, number, words) => do
    let v ← assume (Variable.ofNumber number)
    let (weight, words) ← within (.inWeightOf v.positive) (nextWord words)
    recordWeight v.positive weight
    let (weight, words) ← within (.inWeightOf v.negative) (nextWord words)
    recordWeight v.negative weight
    return .inl (count, number + 1, words)

/-- One round of `file`, which deals with one item and what is left of its line. -/
def fileRound (_ : Unit) : Reading σ (Unit ⊕ Unit) := do
  onStream skipBlanks
  let line := (ByteStream.position (← get).stream).line
  match ← onStream ByteStream.peek with
  | none =>
    finish
    return .inr ()
  | some first =>
    within (.onLine line) (item first)
    onStream skipLine
    return .inl ()

private theorem supportList_unroll (fuel : Nat) (words : List (List Char)) :
    supportList (σ := σ) (fuel + 1) words = supportRound words >>= Sum.elim (supportList fuel) pure := by
  rw [supportList, supportRound, bind_assoc]
  refine congrArg (nextWord words >>= ·) (funext fun (word, words) => ?_)
  dsimp only
  cases integer? word with
  | none => rfl
  | some n =>
    dsimp only
    split
    · rfl
    · simp only [bind_assoc, pure_bind, Sum.elim_inl]

private theorem weightList_unroll : ∀ rest : Nat × Nat × List (List Char),
    weightList (σ := σ) rest.1 rest.2.1 rest.2.2 =
      weightRound rest >>= Sum.elim (fun rest => weightList rest.1 rest.2.1 rest.2.2) pure
  | (0, _, _) => rfl
  | (count + 1, number, words) => by
    rw [weightList, weightRound]
    simp only [bind_assoc, pure_bind, Sum.elim_inl]

private theorem file_unroll (fuel : Nat) (u : Unit) :
    file (σ := σ) (fuel + 1) = fileRound u >>= Sum.elim (fun _ => file fuel) pure := by
  rw [file, fileRound]
  simp only [bind_assoc]
  refine congrArg (onStream skipBlanks >>= ·) (funext fun _ => congrArg (get >>= ·) (funext fun r =>
    congrArg (onStream ByteStream.peek >>= ·) (funext fun next => ?_)))
  cases next with
  | none => simp only [bind_assoc, pure_bind, Sum.elim_inr, bind_pure_unit]
  | some first => simp only [bind_assoc, pure_bind, Sum.elim_inl]

end Rounds

variable {r r' : Reader BufferedStream} {words words' : List (List Char)}

private theorem stream_recordWeight {u : Unit} {l : Literal} {text : List Char} (h : recordWeight l text r = .ok u r') :
    r'.stream = r.stream := by
  obtain ⟨log, hrun⟩ := recordWeight_eq l text r
  cases hrun.symm.trans h
  rfl

private theorem nextWord_lt {word : List Char} (h : nextWord words r = .ok (word, words') r') :
    (words'.length, unread r'.stream) < (words.length, unread r.stream) := by
  cases words with
  | cons first words =>
    cases h
    exact Prod.mk_lt_mk_of_lt_of_le (Nat.lt_succ_self _) (Nat.le_refl _)
  | nil =>
    obtain ⟨_, r₁, htoken, h⟩ := run_bind_eq_ok.mp h
    obtain ⟨s, hs, rfl⟩ := onStream_eq_ok.mp htoken
    cases h
    exact Prod.mk_lt_mk_of_le_of_lt (Nat.le_refl _) (ByteStream.unread_token hs)

private theorem supportRound_lt (h : supportRound words r = .ok (.inl words') r') :
    (words'.length, unread r'.stream) < (words.length, unread r.stream) := by
  obtain ⟨⟨word, left⟩, r₁, hword, h⟩ := run_bind_eq_ok.mp h
  have hless := nextWord_lt hword
  dsimp only at h
  cases hn : integer? word with
  | none =>
    rw [hn] at h
    cases h
  | some n =>
    rw [hn] at h
    dsimp only at h
    split at h
    · cases h
    · obtain ⟨_, _, hget, h⟩ := run_bind_eq_ok.mp h
      cases hget
      obtain ⟨_, _, hrange, h⟩ := run_bind_eq_ok.mp h
      obtain ⟨-, rfl⟩ := require_eq_ok.mp hrange
      obtain ⟨v, _, hv, h⟩ := run_bind_eq_ok.mp h
      obtain ⟨-, rfl⟩ := assume_eq_ok.mp hv
      cases h
      exact hless

private theorem weightRound_lt {count count' number number' : Nat}
    (h : weightRound (count, number, words) r = .ok (.inl (count', number', words')) r') :
    (words'.length, unread r'.stream) < (words.length, unread r.stream) := by
  cases count with
  | zero => cases h
  | succ count =>
    obtain ⟨v, _, hv, h⟩ := run_bind_eq_ok.mp h
    obtain ⟨-, rfl⟩ := assume_eq_ok.mp hv
    obtain ⟨⟨positive, words₁⟩, r₁, hpositive, h⟩ := run_bind_eq_ok.mp h
    obtain ⟨_, r₂, hrecord, h⟩ := run_bind_eq_ok.mp h
    obtain ⟨⟨negative, words₂⟩, r₃, hnegative, h⟩ := run_bind_eq_ok.mp h
    obtain ⟨_, r₄, hrecord', h⟩ := run_bind_eq_ok.mp h
    have hfirst := nextWord_lt (within_eq_ok.mp hpositive)
    have hsecond := nextWord_lt (within_eq_ok.mp hnegative)
    rw [stream_recordWeight hrecord] at hsecond
    cases h
    rw [stream_recordWeight hrecord']
    exact hsecond.trans hfirst

/-- An item uses up its line: what is left of it is skipped, and so is the newline behind it, if there is one. -/
private theorem fileRound_lt (h : fileRound () r = .ok (.inl ()) r') : unread r'.stream < unread r.stream := by
  have hmatching := BufferedStream.matching_unread (unread r.stream)
  have hrelaying := relaying_eq hmatching
  obtain ⟨_, r₁, hskip, h⟩ := run_bind_eq_ok.mp h
  have hr₁ := preserves (p := (unread · ≤ unread r.stream))
    (agree_onStream hrelaying.stream (ByteStream.agree_skipBlanks hmatching)) (Nat.le_refl _) hskip
  obtain ⟨_, _, hget, h⟩ := run_bind_eq_ok.mp h
  cases hget
  obtain ⟨next, r₂, hpeek, h⟩ := run_bind_eq_ok.mp h
  obtain ⟨s, hs, rfl⟩ := onStream_eq_ok.mp hpeek
  obtain ⟨hunread, hnext⟩ := BufferedStream.unread_peek hs
  cases next with
  | none =>
    obtain ⟨_, _, -, h⟩ := run_bind_eq_ok.mp h
    cases h
  | some first =>
    have hpending := hnext.elim And.right fun hnone => nomatch hnone.1
    have hpos : 0 < unread r.stream := by
      have hpass := BufferedStream.unread_pass hpending
      have hle := hr₁.1
      omega
    obtain ⟨_, r₃, hitem, h⟩ := run_bind_eq_ok.mp h
    have hr₃ := preserves (p := fun t => unread t ≤ unread r.stream ∧ (t.pending ≠ [] ∨ unread t = 0))
      (agree_within (fun _ _ he => congrArg _ he) (agree_item hmatching hrelaying (fun bytes _ =>
        .self fun _ _ _ hle hpass => Nat.le_trans (BufferedStream.unread_passPrefix hpass) hle) first))
      (show unread s ≤ _ ∧ _ from ⟨Nat.le_trans (Nat.le_of_eq hunread) hr₁.1, .inl hpending⟩) hitem
    obtain ⟨_, r₄, hline, h⟩ := run_bind_eq_ok.mp h
    have hr₄ := preserves (p := (unread · ≤ unread r.stream)) (q := (unread · < unread r.stream))
      (agree_onStream hrelaying.stream (ByteStream.agree_skipLine hmatching ?_)) hr₃ hline
    · cases h
      exact hr₄
    · rintro s t ⟨rfl, hle, hpending | hnone⟩
      · have hpass := BufferedStream.unread_pass hpending
        refine ⟨rfl, ?_⟩
        change unread s.pass < unread r.stream
        omega
      · have hpass := BufferedStream.unread_pass_le s
        refine ⟨rfl, ?_⟩
        change unread s.pass < unread r.stream
        omega

private theorem loopsWithin_supportList {fuel : Nat} (h : words.length + unread r.stream < fuel) :
    LoopsWithin supportRound (words.length + unread r.stream + 1) words r (supportList fuel words r) := by
  have hdescends : Descends supportRound fun words (r : Reader BufferedStream) => words.length + unread r.stream := by
    intro words r words' r' hround
    have hless := supportRound_lt hround
    rw [Prod.mk_lt_mk] at hless
    dsimp only
    omega
  exact hdescends.loopsWithin supportList_unroll h

private theorem loopsWithin_weightList (count number : Nat) (words : List (List Char)) (r : Reader BufferedStream) :
    LoopsWithin weightRound (words.length + unread r.stream + 1) (count, number, words) r
      (weightList count number words r) := by
  have hdescends : Descends weightRound fun rest (r : Reader BufferedStream) => rest.2.2.length + unread r.stream := by
    rintro ⟨count, number, words⟩ r ⟨count', number', words'⟩ r' hround
    have hless := weightRound_lt hround
    rw [Prod.mk_lt_mk] at hless
    dsimp only
    omega
  exact hdescends.loopsWithin_fix weightList_unroll (count, number, words) r

private theorem loopsWithin_file {fuel : Nat} (h : unread r.stream < fuel) :
    LoopsWithin fileRound (unread r.stream + 1) () r (file fuel r) := by
  have hdescends : Descends fileRound fun _ (r : Reader BufferedStream) => unread r.stream :=
    fun _ _ _ _ hround => fileRound_lt hround
  exact hdescends.loopsWithin (f := fun fuel _ => file fuel) file_unroll h

end Reading

namespace Formula
open Reading

def ofEnding {σ : Type} : EStateM.Result (Stop FormulaError) (Reader σ) Unit → EStateM.Result Fault Log Formula
  | .ok () r => .ok { r.formula with format := r.format } r.log
  | .error (.error e) r => .ok { r.formula.setCounts 0 0 with format := r.format } (r.log.push (.formulaNotRead e))
  | .error (.fault cause) r => .error cause r.log

private theorem readFrom_eq_ofEnding {σ : Type} [ByteStream σ] (stream : σ) (format : WeightFormat) (log : Log) :
    readFrom stream format log = ofEnding (file (unread stream + 1) { stream, format, log }) := by
  unfold readFrom ofEnding
  cases file (unread stream + 1) ({ stream, format, log } : Reader σ) with
  | ok u r => rfl
  | error stop r => cases stop <;> rfl

/-- The loops of reading a source make progress and come to an end. -/
structure ReadingEnds (source : Source) (format : WeightFormat) : Prop where
  /-- The buffer is loaded in as many reads as there are turns and bytes, or fewer, and one more. -/
  loads (s : BufferedStream) (any : Bool) : LoopsWithin BufferedStream.loadRound
    (s.source.turns.length + s.source.content.length + 1) any s (s.load any)
  /-- Bytes are had after as many refills as there are bytes, or fewer, and one more. -/
  fills (s : BufferedStream) (count : Nat) : LoopsWithin (BufferedStream.fillRound count)
    (s.source.content.length + 1) () s (BufferedStream.fill count s)
  /-- Blanks, tokens and lines end with the input at the latest. -/
  passes (s : BufferedStream) (q : UInt8 → Bool) : LoopsWithin (ByteStream.passRound q) (unread s + 1) [] s
    (ByteStream.passWhile q s)
  /-- Each item leaves fewer bytes. -/
  item_lt {r r' : Reader BufferedStream} : fileRound () r = .ok (.inl ()) r' → unread r'.stream < unread r.stream
  /-- Each variable of a support list leaves fewer words, or fewer bytes. -/
  support_lt {r r' : Reader BufferedStream} {words words' : List (List Char)} :
    supportRound words r = .ok (.inl words') r' →
      (words'.length, unread r'.stream) < (words.length, unread r.stream)
  /-- The two weights of a variable leave fewer words, or fewer bytes. -/
  weight_lt {r r' : Reader BufferedStream} {count count' number number' : Nat} {words words' : List (List Char)} :
    weightRound (count, number, words) r = .ok (.inl (count', number', words')) r' →
      (words'.length, unread r'.stream) < (words.length, unread r.stream)
  /-- So a support list ends, and its fuel, which is more than there are words and bytes, does not cut it short. -/
  supports (r : Reader BufferedStream) (words : List (List Char)) (fuel : Nat) :
    words.length + unread r.stream < fuel → LoopsWithin supportRound (words.length + unread r.stream + 1) words r
      (supportList fuel words r)
  /-- So does a list of weights, however many variables are announced. -/
  weights (r : Reader BufferedStream) (count number : Nat) (words : List (List Char)) :
    LoopsWithin weightRound (words.length + unread r.stream + 1) (count, number, words) r
      (weightList count number words r)
  /-- The whole is a loop over the items, of which there are no more than bytes. -/
  items : ∃ ending, LoopsWithin fileRound (source.content.length + 1) ()
    { stream := BufferedStream.ofSourceUsual source, format } ending ∧ parse source format #[] = ofEnding ending
  /-- There is a formula in the end, unless a header announces a variable that there cannot be. -/
  returns : (∃ f log, parse source format #[] = .ok f log) ∨
    ∃ cause log, parse source format #[] = .error cause log ∧ log.Explains cause

/-- Reading any source makes progress and comes to an end, whatever its bytes are and however it delivers them. -/
theorem reading_ends (source : Source) (format : WeightFormat) : ReadingEnds source format where
  loads s any := BufferedStream.descends_loadRound.loopsWithin_fix BufferedStream.load_unroll any s
  fills s count := (BufferedStream.descends_fillRound count).loopsWithin_fix
    (fun _ => BufferedStream.fill_unroll count) () s
  passes s q := ByteStream.loopsWithin_passWhile q s
  item_lt := fileRound_lt
  support_lt := supportRound_lt
  weight_lt := weightRound_lt
  supports _ _ _ := loopsWithin_supportList
  weights r count number words := loopsWithin_weightList count number words r
  items := by
    have hunread : unread (BufferedStream.ofSourceUsual source) = source.content.length := Nat.zero_add _
    have hloops := loopsWithin_file (r := { stream := BufferedStream.ofSourceUsual source, format })
      (Nat.lt_succ_self _)
    rw [hunread] at hloops
    refine ⟨_, hloops, ?_⟩
    rw [parse, readFrom_eq_ofEnding, hunread]
  returns := by
    rcases readFrom_cases (BufferedStream.ofSourceUsual source) format with ⟨f, log, hread, -⟩ | ⟨f, log, e, hread, -⟩ |
      ⟨cause, log, hread, hexplains⟩
    · exact .inl ⟨f, log, hread⟩
    · exact .inl ⟨f, _, hread⟩
    · exact .inr ⟨cause, log, hread, hexplains⟩

end Formula
end WeightedCnf
