import WeightedCnf.Proofs.EntryReading
import WeightedCnf.Proofs.FormatDetection

/-! What a whole text says, item by item. A header can stand anywhere, and what a line says depends on the lines before
it: on the number of variables that the last header announced, and on whether lists of weights still have a meaning.
Reading a text comes to dealing with its items. -/
namespace WeightedCnf
open Text (isBlankByte)
open ByteStream (skipLine)

/-- This many tokens, first among words that were taken from the line already, then behind it. -/
inductive TokensAt : Nat → List (List Char) → List UInt8 → List (List Char) → List UInt8 → Prop
  | nil {words input} : TokensAt 0 words input [] input
  | word {count word words input tokens rest} (h : TokensAt count words input tokens rest) :
    TokensAt (count + 1) (word :: words) input (word :: tokens) rest
  | token {count input word input' tokens rest} (htoken : TokenAt input word input')
    (h : TokensAt count [] input' tokens rest) : TokensAt (count + 1) [] input (word :: tokens) rest

theorem TokensAt.length_eq {count : Nat} {words tokens : List (List Char)} {input rest : List UInt8}
    (h : TokensAt count words input tokens rest) : tokens.length = count := by
  induction h with
  | nil => rfl
  | word _ ih => exact congrArg Nat.succ ih
  | token _ _ ih => exact congrArg Nat.succ ih

private theorem TokensAt.length_le {count : Nat} {words tokens : List (List Char)} {input rest : List UInt8}
    (h : TokensAt count words input tokens rest) : rest.length ≤ input.length := by
  induction h with
  | nil => exact Nat.le_refl _
  | word _ ih => exact ih
  | token htoken _ ih => exact ih.trans htoken.length_lt.le

/-- A part of a text that is dealt with at once. -/
inductive Item where
  | header (variableCount clauseCount : Nat)
  | entry (e : Entry)
  /-- A list of weights: for each variable the tokens of both literals. -/
  | weights (tokens : List (List Char))
deriving DecidableEq, Repr

def WeightFormat.hasLists : WeightFormat → Bool
  | detect | minic2d => true
  | cachet | cachetOrMc20 | mc20 => false

/-- What the meaning of a line depends on. -/
structure Context where
  /-- As many variables as the last header announced. -/
  variableCount : Nat
  /-- A list of weights is one. -/
  lists : Bool
deriving DecidableEq, Repr

/-- Before the first line there are no variables. -/
def WeightFormat.context (format : WeightFormat) : Context :=
  ⟨0, format.hasLists⟩

/-- The context behind an item. After a weight line, a list of weights is none. -/
def Context.after (c : Context) : Item → Context
  | .header variableCount _ => { c with variableCount }
  | .entry (.weight _ _) => { c with lists := false }
  | .entry (.kept _) | .entry (.support _) | .weights _ => c

/-- An item in a context. What is left starts on the line on which the item ends. -/
inductive ItemAt (c : Context) : List UInt8 → Item → List UInt8 → Prop
  | header {input rest variableCount clauseCount} (h : HeaderAt input variableCount clauseCount rest) :
    ItemAt c input (.header variableCount clauseCount) rest
  | entry {input e rest} (h : EntryAt c.variableCount input e rest) : ItemAt c input (.entry e) rest
  | comment {rest} (hlists : c.lists = false) (hweights : StartsWeights (Text.line rest)) :
    ItemAt c ('c'.toUInt8 :: rest) (.entry (.kept ('c' :: Text.line rest))) (Text.lineEnd rest)
  | weights {input words tokens rest} (hlists : c.lists = true)
    (hblank : (Text.line input).head?.any Text.isAsciiBlank = true)
    (hwords : Text.words (Text.line input) = "weights".toList :: words)
    (h : TokensAt (2 * c.variableCount) words (Text.lineEnd input) tokens rest) :
    ItemAt c ('c'.toUInt8 :: input) (.weights tokens) rest

private theorem ItemAt.first {c : Context} {input rest : List UInt8} {i : Item} (h : ItemAt c input i rest) :
    ∃ first more, input = first :: more ∧ isBlankByte first = false := by
  cases h with
  | header h =>
    obtain ⟨-, -⟩ := h
    exact ⟨_, _, rfl, rfl⟩
  | entry h => exact h.first
  | comment => exact ⟨_, _, rfl, rfl⟩
  | weights => exact ⟨_, _, rfl, rfl⟩

private theorem ItemAt.length_le {c : Context} {input rest : List UInt8} {i : Item} (h : ItemAt c input i rest) :
    rest.length ≤ input.length := by
  cases h with
  | header h => exact h.length_lt.le
  | entry h => exact h.length_le
  | comment => exact Nat.le_succ_of_le (List.dropWhile_sublist _).length_le
  | weights _ _ _ h => exact Nat.le_succ_of_le (h.length_le.trans (List.dropWhile_sublist _).length_le)

theorem ItemAt.length_nextLine_lt {c : Context} {input rest : List UInt8} {i : Item} (h : ItemAt c input i rest) :
    (Text.nextLine rest).length < input.length := by
  obtain ⟨first, more, rfl, -⟩ := h.first
  have hrest := h.length_le
  have hline : (Text.lineEnd rest).length ≤ rest.length := (List.dropWhile_sublist _).length_le
  rw [Text.nextLine, List.length_tail]
  rw [List.length_cons] at hrest ⊢
  omega

/-- Items, each of which starts on a line of its own, behind any number of blanks, and in the context that those before
it leave. -/
inductive ItemsAt : Context → List UInt8 → List Item → Prop
  | nil {c blanks} (hblanks : ∀ b ∈ blanks, isBlankByte b = true) : ItemsAt c blanks []
  | cons {c gap input i rest is} (hgap : ∀ b ∈ gap, isBlankByte b = true) (hi : ItemAt c input i rest)
    (his : ItemsAt (c.after i) (Text.nextLine rest) is) : ItemsAt c (gap ++ input) (i :: is)

theorem ItemsAt.length_le {c : Context} {input : List UInt8} {is : List Item} (h : ItemsAt c input is) :
    is.length ≤ input.length := by
  induction h with
  | nil => exact Nat.zero_le _
  | cons _ hi _ ih =>
    have hlt := hi.length_nextLine_lt
    rw [List.length_append, List.length_cons]
    omega

/-- Items as before, and the bytes that are left behind the line on which the last one ends. -/
inductive ItemsBefore (left : List UInt8) : Context → List UInt8 → List Item → Prop
  | nil {c} : ItemsBefore left c left []
  | cons {c gap input i rest is} (hgap : ∀ b ∈ gap, isBlankByte b = true) (hi : ItemAt c input i rest)
    (his : ItemsBefore left (c.after i) (Text.nextLine rest) is) : ItemsBefore left c (gap ++ input) (i :: is)

private theorem ItemsAt.exists_before {c : Context} {input : List UInt8} {is : List Item} (h : ItemsAt c input is) :
    ∃ blanks, (∀ b ∈ blanks, isBlankByte b = true) ∧ ItemsBefore blanks c input is := by
  induction h with
  | nil hblanks => exact ⟨_, hblanks, .nil⟩
  | cons hgap hi _ ih =>
    obtain ⟨blanks, hblanks, his⟩ := ih
    exact ⟨blanks, hblanks, .cons hgap hi his⟩

theorem ItemsBefore.length_le {c : Context} {left input : List UInt8} {is : List Item} (h : ItemsBefore left c input is) :
    is.length + left.length ≤ input.length := by
  induction h with
  | nil => exact (Nat.zero_add _).le
  | cons _ hi _ ih =>
    have hlt := hi.length_nextLine_lt
    rw [List.length_append, List.length_cons]
    omega

/-- Two stops are the same, but for what exactly is complained about. -/
inductive Stop.Resembles {ε : Type} : Stop ε → Stop ε → Prop
  | fault (cause : Fault) : Resembles (.fault cause) (.fault cause)
  | error (cause cause' : ε) : Resembles (.error cause) (.error cause')

def Reader.context {σ : Type} (r : Reader σ) : Context :=
  ⟨r.formula.variableCount, r.format.hasLists⟩

namespace Reading
variable {σ : Type}

def recordWeights : (number : Nat) → (tokens : List (List Char)) → Reading σ Unit
  | number, positive :: negative :: tokens => do
    let v ← assume (Variable.ofNumber number)
    recordWeight v.positive positive
    recordWeight v.negative negative
    recordWeights (number + 1) tokens
  | _, _ => return

def meetWeights : Reading σ Unit := do
  if (← get).format = .detect then settle .minic2d

def perform : Item → Reading σ Unit
  | .header variableCount clauseCount => do
    report (.headerRead variableCount clauseCount)
    onFormula (·.setCounts variableCount clauseCount)
  | .entry e => entry e
  | .weights tokens => do
    meetWeights
    recordWeights 1 tokens

def items (is : List Item) : Reading σ Unit :=
  is.forM perform

theorem items_cons (i : Item) (is : List Item) :
    (items (i :: is) : Reading σ Unit) = perform i >>= fun _ => items is :=
  rfl

section Context
variable {r r' : Reader σ} {u : Unit}

theorem recordWeights_eq_ok {number : Nat} {positive negative : List Char} {tokens : List (List Char)} :
    recordWeights number (positive :: negative :: tokens) r = .ok u r' ↔
      ∃ v r₁ r₂, Variable.ofNumber number = .ok v ∧ recordWeight v.positive positive r = .ok () r₁ ∧
        recordWeight v.negative negative r₁ = .ok () r₂ ∧ recordWeights (number + 1) tokens r₂ = .ok u r' := by
  rw [recordWeights, run_bind_eq_ok]
  cases hv : Variable.ofNumber number with
  | error cause => exact ⟨fun ⟨_, _, h, _⟩ => (nomatch h), fun ⟨_, _, _, h, _⟩ => (nomatch h)⟩
  | ok v =>
    constructor
    · rintro ⟨_, _, ⟨⟩, h⟩
      obtain ⟨_, r₁, hpositive, h⟩ := run_bind_eq_ok.mp h
      obtain ⟨_, r₂, hnegative, h⟩ := run_bind_eq_ok.mp h
      exact ⟨v, r₁, r₂, rfl, hpositive, hnegative, h⟩
    · rintro ⟨_, r₁, r₂, ⟨⟩, hpositive, hnegative, h⟩
      exact ⟨v, r, rfl, run_bind_eq_ok.mpr ⟨(), r₁, hpositive, run_bind_eq_ok.mpr ⟨(), r₂, hnegative, h⟩⟩⟩

/-- A list of weights changes weights and adds complaints, but nothing else. -/
theorem recordWeights_of_ok {number : Nat} {tokens : List (List Char)} (h : recordWeights number tokens r = .ok u r') :
    r'.format = r.format ∧ r'.formula = { r.formula with weights := r'.formula.weights } := by
  induction number, tokens using recordWeights.induct generalizing r with
  | case1 number positive negative tokens ih =>
    obtain ⟨v, r₁, r₂, -, hpositive, hnegative, h⟩ := recordWeights_eq_ok.mp h
    obtain ⟨_, hrun⟩ := recordWeight_eq v.positive positive r
    cases hrun.symm.trans hpositive
    obtain ⟨_, hrun⟩ := recordWeight_eq v.negative negative _
    cases hrun.symm.trans hnegative
    have hkept := ih h
    exact hkept
  | case2 number tokens hshort =>
    rw [recordWeights] at h
    · cases h
      exact ⟨rfl, rfl⟩
    · exact hshort

theorem hasLists_meetWeightLine (h : meetWeightLine r = .ok u r') : r'.format.hasLists = false := by
  obtain ⟨stream, format, formula, log⟩ := r
  cases format with
  | minic2d => cases h
  | _ =>
    cases h
    rfl

/-- Once a list of weights has no meaning, it never has one again. -/
theorem hasLists_of_leads {format format' : WeightFormat} (h : format.Leads format') (hformat : format.hasLists = false) :
    format'.hasLists = false := by
  induction h with
  | refl => exact hformat
  | tail _ hnext ih =>
    cases hnext with
    | weightLine | weightList => cases ih
    | negativeLiteral | missingWeight => rfl

/-- The format that is known behind a weight line comes from the one that its literal leaves. -/
theorem entry_weight_leads {l : Literal} {token : List Char} (h : entry (.weight l token) r = .ok u r') :
    ∃ r₁ r₂, meetWeightLine r = .ok () r₁ ∧ meetLiteral l r₁ = .ok () r₂ ∧ r₂.format.Leads r'.format := by
  obtain ⟨r₁, r₂, hmeet, hliteral, h⟩ := entry_weight_of_ok h
  refine ⟨r₁, r₂, hmeet, hliteral, ?_⟩
  rcases h with ⟨-, r₃, hnone, rfl⟩ | ⟨-, log, rfl⟩
  · have hleads := (leads_meetNoWeight r₂).of_ok hnone
    exact hleads
  · exact .refl

private theorem context_meetWeights (h : meetWeights r = .ok u r') : r'.context = r.context := by
  obtain ⟨stream, format, formula, log⟩ := r
  cases format with
  | _ =>
    cases h
    rfl

/-- The context of a reader goes with the items. -/
theorem context_perform {i : Item} (h : perform i r = .ok u r') : r'.context = r.context.after i := by
  cases i with
  | header variableCount clauseCount =>
    cases h
    rfl
  | entry e =>
    have hcount : r'.formula.variableCount = r.formula.variableCount := variableCount_entry h
    cases e with
    | kept text =>
      cases h
      rfl
    | support vs =>
      have hformat : r'.format = r.format := by
        cases h
        rfl
      rw [Reader.context, hcount, hformat]
      rfl
    | weight l token =>
      have hlists : r'.format.hasLists = false := by
        obtain ⟨r₁, r₂, hmeet, hliteral, hleads⟩ := entry_weight_leads h
        have hsettled := ((leads_meetLiteral l r₁).of_ok hliteral).trans hleads
        exact hasLists_of_leads hsettled (hasLists_meetWeightLine hmeet)
      rw [Reader.context, hcount, hlists]
      rfl
  | weights tokens =>
    obtain ⟨_, r₁, hmeet, h⟩ := run_bind_eq_ok.mp h
    obtain ⟨hformat, hformula⟩ := recordWeights_of_ok h
    have hcount := congrArg Formula.variableCount hformula
    rw [Reader.context, hformat, hcount]
    exact context_meetWeights hmeet

end Context

section Completeness
variable {r : Reader PlainStream} {r' : Reader Unit} {c : Context} {input rest : List UInt8}

private theorem nextWord_at {count : Nat} {words tokens : List (List Char)}
    (h : TokensAt (count + 1) words input tokens rest) : ∃ word words' input' tokens', tokens = word :: tokens' ∧
      TokensAt count words' input' tokens' rest ∧
      ∀ r : Reader PlainStream, r.stream.rest = input → ∃ stream : PlainStream, stream.rest = input' ∧
        nextWord words r = .ok (word, words') { r with stream } := by
  cases h with
  | word h => exact ⟨_, _, _, _, rfl, h, fun r hr => ⟨r.stream, hr, rfl⟩⟩
  | token htoken h =>
    refine ⟨_, _, _, _, rfl, h, fun r hr => ?_⟩
    obtain ⟨s, hword, hrest⟩ := ByteStream.token_at (hr ▸ htoken)
    exact ⟨s, hrest, run_bind_of_ok (onStream_eq_ok.mpr ⟨s, hword, rfl⟩)⟩

/-- A step that takes something from the stream and does nothing else can be left out. -/
private theorem agree_taken {α β : Type} {x : Reading PlainStream α} (a : α) (middle : List UInt8)
    {f : α → Reading PlainStream β} {y : Reading Unit β} {S : PlainStream → Unit → Prop}
    (hx : ∀ r : Reader PlainStream, r.stream.rest = input → ∃ stream : PlainStream, stream.rest = middle ∧
      x r = .ok a { r with stream })
    (hf : Alike Eq (Leaves middle) S (f a) y) : Alike Eq (Leaves input) S (x >>= f) y := by
  intro r r' h
  obtain ⟨s, hs, hrun⟩ := hx r h.stream
  rw [run_bind_of_ok hrun]
  exact hf _ _ { h with stream := hs }

private theorem weightList_at {count : Nat} (number : Nat) {words tokens : List (List Char)}
    (h : TokensAt (2 * count) words input tokens rest) :
    Alike Eq (Leaves input) (Leaves rest) (weightList count number words) (recordWeights number tokens) := by
  induction count generalizing number words tokens input with
  | zero =>
    cases h
    exact .pure ()
  | succ count ih =>
    obtain ⟨positive, words₁, input₁, tokens₁, rfl, h₁, hpositive⟩ := nextWord_at h
    obtain ⟨negative, words₂, input₂, tokens₂, rfl, h₂, hnegative⟩ := nextWord_at h₁
    refine (agree_assume _).bind fun v => agree_taken (positive, words₁) input₁ (fun r hr => ?_) ?_
    · obtain ⟨s, hs, hrun⟩ := hpositive r hr
      exact ⟨s, hs, within_eq_ok.mpr hrun⟩
    refine (agree_recordWeight _ positive).bind fun _ => agree_taken (negative, words₂) input₂ (fun r hr => ?_) ?_
    · obtain ⟨s, hs, hrun⟩ := hnegative r hr
      exact ⟨s, hs, within_eq_ok.mpr hrun⟩
    exact (agree_recordWeight _ negative).bind fun _ => ih (number + 1) h₂

private theorem perform_weights (tokens : List (List Char)) (r : Reader σ) : perform (.weights tokens) r =
    (if r.format = .detect then settle .minic2d >>= fun _ => recordWeights 1 tokens else recordWeights 1 tokens) r := by
  obtain ⟨stream, format, formula, log⟩ := r
  cases format with
  | _ => rfl

private theorem comment_weights {words tokens : List (List Char)} (hr : Readers (Leaves ('c'.toUInt8 :: input)) r r')
    (hlists : r'.format.hasLists = true) (hblank : (Text.line input).head?.any Text.isAsciiBlank = true)
    (hwords : Text.words (Text.line input) = "weights".toList :: words)
    (h : TokensAt (2 * r'.formula.variableCount) words (Text.lineEnd input) tokens rest) :
    SameResult Eq (Readers fun _ _ => True) (Readers (Leaves rest)) (comment r) (perform (.weights tokens) r') := by
  obtain ⟨s, hrest, hline⟩ := comment_start hr.stream
  have hletter : onStream (modify ByteStream.pass) r = .ok () { r with stream := r.stream.pass } := rfl
  have hformat : (r.format == .detect || r.format == .minic2d) = true := by
    rw [hr.format]
    cases hformat : r'.format with
    | detect | minic2d => rfl
    | _ =>
      rw [hformat] at hlists
      cases hlists
  have hrun : comment r = (if r.format = .detect then settle .minic2d >>= fun _ =>
      weightList r.formula.variableCount 1 words else weightList r.formula.variableCount 1 words)
      { r with stream := s } := by
    refine (run_bind_of_ok hletter).trans ((run_bind_of_ok hline).trans ?_)
    refine (run_bind_of_ok (s := { r with stream := s }) rfl).trans ?_
    rw [hblank, hwords]
    dsimp only
    rw [hformat]
    rfl
  have hlist := weightList_at 1 h
  rw [← hr.formula] at hlist
  rw [hrun, perform_weights, ← hr.format]
  exact Agree.ite ((agree_settle _).bind fun _ => hlist) hlist _ _ { hr with stream := hrest }

/-- An item of the text is read as such. -/
theorem item_performs {i : Item} {first : UInt8} (hr : Readers (Leaves input) r r') (hi : ItemAt r'.context input i rest)
    (hfirst : first ∈ input.head?) :
    SameResult Eq (Readers fun _ _ => True) (Readers (Leaves rest)) (item first r) (perform i r') := by
  cases hi with
  | header h =>
    obtain ⟨s, hrest, hrun⟩ := header_at (r := r) (hr.stream.symm ▸ h)
    obtain ⟨more, rfl⟩ : ∃ more, input = 'p'.toUInt8 :: more := by
      obtain ⟨-, -⟩ := h
      exact ⟨_, rfl⟩
    cases hfirst
    rw [item, if_pos rfl, hrun]
    exact .ok ⟨hrest, hr.format, by rw [hr.formula], by rw [hr.log]⟩
  | entry h => exact item_at hr h hfirst
  | @comment input hlists hweights =>
    cases hfirst
    have hsupport : ¬ StartsSupport (Text.line input) := by
      intro h
      cases hweights.2.symm.trans h.2
    obtain ⟨s, hrest, hrun⟩ := comment_kept hr.stream hsupport fun _ => by
      change r'.format.hasLists = false at hlists
      rw [hr.format]
      constructor
      · intro hformat
        rw [hformat] at hlists
        cases hlists
      · intro hformat
        rw [hformat] at hlists
        cases hlists
    rw [item, if_neg (by decide), if_neg (by decide), if_pos rfl, hrun]
    exact .ok ⟨hrest, hr.format, by rw [hr.formula], hr.log⟩
  | weights hlists hblank hwords h =>
    cases hfirst
    rw [item, if_neg (by decide), if_neg (by decide), if_pos rfl]
    exact comment_weights hr hlists hblank hwords h

/-- Items are read one after the other, and then what is left. -/
theorem file_itemsBefore {left : List UInt8} {is : List Item} (his : ItemsBefore left r'.context input is)
    (hr : Readers (Leaves input) r r') (fuel : Nat) :
    (∀ d, items is r' = .ok () d → ∃ r₁, Readers (Leaves left) r₁ d ∧ file (is.length + fuel) r = file fuel r₁) ∧
    ∀ stop d, items is r' = .error stop d → ∃ stop' r₁, stop'.Resembles stop ∧ Readers (fun _ _ => True) r₁ d ∧
      file (is.length + fuel) r = .error stop' r₁ := by
  generalize hc : r'.context = c at his
  induction his generalizing r r' with
  | nil =>
    refine ⟨fun d hd => ?_, fun stop d hd => (nomatch hd)⟩
    cases hd
    exact ⟨r, hr, congrArg (file · r) (Nat.zero_add fuel)⟩
  | @cons c gap input i rest is hgap hi his ih =>
    obtain ⟨first, bytes, rfl, hfirst⟩ := hi.first
    obtain ⟨s, line, hs, hfile⟩ := file_at hr.stream hgap hfirst (is.length + fuel)
    have hitem := item_performs (r := { r with stream := s }) { hr with stream := hs } (hc ▸ hi)
      (rfl : (first :: bytes).head? = some first)
    rw [List.length_cons, Nat.add_right_comm, hfile, items_cons]
    generalize hx : item first { r with stream := s } = x, hy : perform i r' = y at hitem
    cases hitem with
    | @ok u r₁ r₁' hr₁ =>
      obtain ⟨s₂, hskip, hs₂⟩ := ByteStream.skipLine_at r₁.stream
      have hrest : s₂.rest = Text.nextLine rest := hs₂.trans (congrArg Text.nextLine hr₁.stream)
      rw [run_bind_of_ok (within_eq_ok.mpr hx), run_bind_of_ok (onStream_eq_ok.mpr ⟨s₂, hskip, rfl⟩), run_bind_of_ok hy]
      exact ih { hr₁ with stream := hrest } (hc ▸ context_perform hy)
    | @error stop _ r₁ r₁' hstop hr₁ =>
      subst hstop
      rw [run_bind_of_error (within_of_error _ hx), run_bind_of_error hy]
      refine ⟨fun d hd => (nomatch hd), fun stop d hd => ?_⟩
      cases hd
      refine ⟨_, r₁, ?_, hr₁, rfl⟩
      cases stop with
      | fault cause => exact .fault cause
      | error cause => exact .error _ cause

/-- Items are read one after the other, up to the end of the file. -/
theorem file_items {is : List Item} {fuel : Nat} (his : ItemsAt r'.context input is)
    (hr : Readers (Leaves input) r r') (hfuel : is.length < fuel) :
    (∀ d, items is r' = .ok () d → ∃ r₁, Readers (fun _ _ => True) r₁ d ∧ file fuel r = finish r₁) ∧
    ∀ stop d, items is r' = .error stop d → ∃ stop r₁, file fuel r = .error stop r₁ := by
  obtain ⟨blanks, hblanks, hbefore⟩ := his.exists_before
  obtain ⟨fuel, rfl⟩ := Nat.exists_eq_add_of_le hfuel.le
  obtain ⟨hread, hstopped⟩ := file_itemsBefore hbefore hr fuel
  refine ⟨fun d hd => ?_, fun stop d hd => ?_⟩
  · obtain ⟨r₁, hr₁, hfile⟩ := hread d hd
    obtain ⟨stream, hfinish⟩ := file_blanks (hr₁.stream.symm ▸ hblanks) fuel
    exact ⟨{ r₁ with stream }, { hr₁ with stream := trivial }, hfile.trans hfinish⟩
  · obtain ⟨stop', r₁, -, -, hfile⟩ := hstopped stop d hd
    exact ⟨stop', r₁, hfile⟩

end Completeness
end Reading
end WeightedCnf
