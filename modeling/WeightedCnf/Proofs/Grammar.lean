import WeightedCnf.Proofs.Growth
import WeightedCnf.Proofs.KeptLines

/-! What the bytes of a file say: tokens between blanks, a header, and behind it one entry after the other. Each
judgement names the bytes that are left, so that none can stop in the middle of a token. -/
namespace WeightedCnf
open Text (newline isBlankByte)
open Text.Utf8 (encode encode_append StandsFor)
open ByteStream (integer?)

private theorem span_append {q : UInt8 → Bool} {bytes rest : List UInt8} (hbytes : ∀ b ∈ bytes, q b = true)
    (hrest : ∀ b ∈ rest.head?, q b = false) :
    (bytes ++ rest).takeWhile q = bytes ∧ (bytes ++ rest).dropWhile q = rest := by
  rw [List.takeWhile_append_of_pos hbytes, List.dropWhile_append_of_pos hbytes]
  cases rest with
  | nil => exact ⟨List.append_nil _, rfl⟩
  | cons b rest =>
    have hb : ¬ q b = true := by
      rw [hrest b rfl]
      exact Bool.false_ne_true
    rw [List.takeWhile_cons_of_neg hb, List.dropWhile_cons_of_neg hb]
    exact ⟨List.append_nil _, rfl⟩

namespace Text

/-- The bytes from the end of this line on. -/
def lineEnd (bytes : List UInt8) : List UInt8 :=
  bytes.dropWhile (· != newline)

def line (bytes : List UInt8) : List Char :=
  Utf8.decode (bytes.takeWhile (· != newline))

/-- The bytes of the next line and all further ones. -/
def nextLine (bytes : List UInt8) : List UInt8 :=
  (lineEnd bytes).tail

theorem length_nextLine_le (bytes : List UInt8) : (nextLine bytes).length ≤ bytes.length := by
  rw [nextLine, List.length_tail]
  exact (Nat.sub_le _ _).trans (List.dropWhile_sublist _).length_le

end Text

/-- A token, behind any number of blanks. -/
inductive TokenAt : List UInt8 → List Char → List UInt8 → Prop
  | intro {gap token rest : List UInt8} (hgap : ∀ b ∈ gap, isBlankByte b = true) (hne : token ≠ [])
    (htoken : ∀ b ∈ token, isBlankByte b = false) (hrest : ∀ b ∈ rest.head?, isBlankByte b = true) :
    TokenAt (gap ++ (token ++ rest)) (Text.Utf8.decode token) rest

def NumberAt (input : List UInt8) (n : Int) (rest : List UInt8) : Prop :=
  ∃ word, TokenAt input word rest ∧ integer? word = some n

theorem TokenAt.length_lt {input rest : List UInt8} {word : List Char} (h : TokenAt input word rest) :
    rest.length < input.length := by
  obtain ⟨-, hne, -, -⟩ := h
  have hpos := List.length_pos_iff.mpr hne
  simp only [List.length_append]
  omega

private theorem NumberAt.length_lt {input rest : List UInt8} {n : Int} (h : NumberAt input n rest) :
    rest.length < input.length := by
  obtain ⟨_, h, -⟩ := h
  exact h.length_lt

/-- A header announces this many variables and clauses. -/
inductive HeaderAt : List UInt8 → Nat → Nat → List UInt8 → Prop
  | intro {input input' rest : List UInt8} {variableCount clauseCount : Nat}
    (hvariables : NumberAt input variableCount input') (hclauses : NumberAt input' clauseCount rest) :
    HeaderAt (encode "p cnf ".toList ++ input) variableCount clauseCount rest

theorem HeaderAt.length_lt {input rest : List UInt8} {variableCount clauseCount : Nat}
    (h : HeaderAt input variableCount clauseCount rest) : rest.length < input.length := by
  obtain ⟨hvariables, hclauses⟩ := h
  have hmiddle := hvariables.length_lt
  have hrest := hclauses.length_lt
  rw [List.length_append]
  omega

/-- Variables up to a zero, first among words that were taken from the line already, then as tokens. -/
inductive VariablesAt (variableCount : Nat) :
    List (List Char) → List UInt8 → List Variable → List UInt8 → Prop
  | zero {word words input} (hword : integer? word = some 0) :
    VariablesAt variableCount (word :: words) input [] input
  | next {word words input vs rest} {v : Variable} (hword : integer? word = some (v.number : Int))
    (hv : v.number ≤ variableCount) (h : VariablesAt variableCount words input vs rest) :
    VariablesAt variableCount (word :: words) input (v :: vs) rest
  | token {input word input' vs rest} (htoken : TokenAt input word input')
    (h : VariablesAt variableCount [word] input' vs rest) : VariablesAt variableCount [] input vs rest

theorem VariablesAt.length_le {variableCount : Nat} {words : List (List Char)} {input rest : List UInt8}
    {vs : List Variable} (h : VariablesAt variableCount words input vs rest) :
    vs.length < words.length + input.length + 1 ∧ rest.length ≤ input.length := by
  induction h with
  | zero => exact ⟨Nat.succ_pos _, Nat.le_refl _⟩
  | next _ _ _ ih =>
    simp only [List.length_cons]
    omega
  | token htoken _ ih =>
    have hlt := htoken.length_lt
    simp only [List.length_cons, List.length_nil] at ih ⊢
    omega

/-- What a line says, or a list that starts on one. -/
inductive Entry where
  /-- A clause, or a comment without a meaning: this text is kept. -/
  | kept (text : List Char)
  /-- These variables matter. -/
  | support (vs : List Variable)
  /-- The token that stands for the weight of a literal. -/
  | weight (l : Literal) (token : List Char)
deriving DecidableEq, Repr

/-- An entry of a file with this many variables. What is left starts on the line on which the entry ends. -/
inductive EntryAt (variableCount : Nat) : List UInt8 → Entry → List UInt8 → Prop
  | line {first rest} (hblank : isBlankByte first = false) (hp : first ≠ 'p'.toUInt8) (hw : first ≠ 'w'.toUInt8)
    (hc : first ≠ 'c'.toUInt8) :
    EntryAt variableCount (first :: rest) (.kept (Text.line (first :: rest))) (Text.lineEnd (first :: rest))
  | comment {rest} (hsupport : ¬ StartsSupport (Text.line rest)) (hweights : ¬ StartsWeights (Text.line rest)) :
    EntryAt variableCount ('c'.toUInt8 :: rest) (.kept ('c' :: Text.line rest)) (Text.lineEnd rest)
  | support {input words vs rest} (hblank : (Text.line input).head?.any Text.isAsciiBlank = true)
    (hwords : Text.words (Text.line input) = "ind".toList :: words)
    (h : VariablesAt variableCount words (Text.lineEnd input) vs rest) :
    EntryAt variableCount ('c'.toUInt8 :: input) (.support vs) rest
  | weight {input input' token rest} {l : Literal} (hliteral : NumberAt input l.toInt input')
    (hl : l.var.number ≤ variableCount) (htoken : TokenAt input' token rest) :
    EntryAt variableCount (encode "w ".toList ++ input) (.weight l token) rest

theorem EntryAt.length_le {variableCount : Nat} {input rest : List UInt8} {e : Entry}
    (h : EntryAt variableCount input e rest) : rest.length ≤ input.length := by
  cases h with
  | line => exact (List.dropWhile_sublist _).length_le
  | comment => exact Nat.le_succ_of_le (List.dropWhile_sublist _).length_le
  | @support input _ _ _ _ _ h =>
    have hline : (Text.lineEnd input).length ≤ input.length := (List.dropWhile_sublist _).length_le
    have hrest := h.length_le.2
    rw [List.length_cons]
    omega
  | weight hliteral _ htoken =>
    have hnumber := hliteral.length_lt
    have hweight := htoken.length_lt
    rw [List.length_append]
    omega

/-- An entry starts with a byte that is not blank. -/
theorem EntryAt.first {variableCount : Nat} {input rest : List UInt8} {e : Entry}
    (h : EntryAt variableCount input e rest) : ∃ first more, input = first :: more ∧ isBlankByte first = false := by
  cases h with
  | line hblank => exact ⟨_, _, rfl, hblank⟩
  | comment => exact ⟨_, _, rfl, rfl⟩
  | support => exact ⟨_, _, rfl, rfl⟩
  | weight => exact ⟨_, _, rfl, rfl⟩

/-- Entries, each of which starts on a line of its own, behind any number of blanks. -/
inductive EntriesAt (variableCount : Nat) : List UInt8 → List Entry → Prop
  | nil {blanks} (hblanks : ∀ b ∈ blanks, isBlankByte b = true) : EntriesAt variableCount blanks []
  | cons {gap input e rest es} (hgap : ∀ b ∈ gap, isBlankByte b = true) (he : EntryAt variableCount input e rest)
    (hes : EntriesAt variableCount (Text.nextLine rest) es) : EntriesAt variableCount (gap ++ input) (e :: es)

theorem EntriesAt.length_le {variableCount : Nat} {input : List UInt8} {es : List Entry}
    (h : EntriesAt variableCount input es) : es.length ≤ input.length := by
  induction h with
  | nil => exact Nat.zero_le _
  | @cons gap input e rest es _ he _ ih =>
    obtain ⟨first, more, rfl, -⟩ := he.first
    have hrest := he.length_le
    have hline : (Text.lineEnd rest).length ≤ rest.length := (List.dropWhile_sublist _).length_le
    rw [Text.nextLine, List.length_tail] at ih
    rw [List.length_cons] at hrest
    rw [List.length_append, List.length_cons, List.length_cons]
    omega

/-- A file: one header and then entries. -/
inductive FileAt : List UInt8 → (variableCount clauseCount : Nat) → List Entry → Prop
  | intro {gap input rest : List UInt8} {variableCount clauseCount : Nat} {es : List Entry}
    (hgap : ∀ b ∈ gap, isBlankByte b = true) (hheader : HeaderAt input variableCount clauseCount rest)
    (hes : EntriesAt variableCount (Text.nextLine rest) es) : FileAt (gap ++ input) variableCount clauseCount es

section Written
variable {text more : List Char}

private theorem ne_newline (htext : '\n' ∉ text) : ∀ b ∈ encode text, (b != newline) = true := by
  intro b hb
  rw [bne_iff_ne]
  rintro rfl
  obtain ⟨c, hc, hn⟩ := (Text.Utf8.mem_encode (by decide)).mp hb
  have he : c = '\n' := Char.toNat_inj.mp hn
  exact htext (he ▸ hc)

private theorem not_blank (htext : ∀ c ∈ text, Text.isAsciiBlank c = false) :
    ∀ b ∈ encode text, isBlankByte b = false := by
  intro b hb
  by_cases hascii : b.toNat < 128
  · obtain ⟨c, hc, hn⟩ := (Text.Utf8.mem_encode hascii).mp hb
    exact (StandsFor.isBlankByte (.inl hn)).trans (htext c hc)
  · exact (StandsFor.isBlankByte (.inr ⟨by decide, Nat.not_lt.mp hascii⟩ : StandsFor Text.Utf8.replacement b))

theorem isBlank_of_isAsciiBlank (h : Text.isAsciiBlank c = true) : Text.isBlank c = true := by
  simp only [Text.isAsciiBlank, Bool.or_eq_true, beq_iff_eq] at h
  rcases h with (((rfl | rfl) | rfl) | rfl) | rfl <;> decide

private theorem isAsciiBlank_of_isBlank (h : Text.isBlank c = false) : Text.isAsciiBlank c = false := by
  cases hc : Text.isAsciiBlank c with
  | false => rfl
  | true =>
    rw [isBlank_of_isAsciiBlank hc] at h
    cases h

/-- Text that is blank is blank in bytes. -/
theorem blank_encode (htext : ∀ c ∈ text, Text.isAsciiBlank c = true) : ∀ b ∈ encode text, isBlankByte b = true := by
  intro b hb
  rw [encode, List.mem_flatMap] at hb
  obtain ⟨c, hc, hb⟩ := hb
  have hblank := htext c hc
  have hascii : c.toNat < 128 := by
    simp only [Text.isAsciiBlank, Bool.or_eq_true, beq_iff_eq] at hblank
    rcases hblank with (((rfl | rfl) | rfl) | rfl) | rfl <;> decide
  rw [Text.Utf8.utf8EncodeChar_of_ascii hascii, List.mem_singleton] at hb
  have hstands : StandsFor c b := .inl (by rw [hb, UInt8.toNat_ofNat', Nat.mod_eq_of_lt (by omega)])
  exact hstands.isBlankByte.trans hblank

/-- A line ends here, or the text does. -/
def EndsLine (more : List Char) : Prop := ∀ c ∈ more.head?, c = '\n'

theorem endsLine_nil : EndsLine [] := nofun

theorem endsLine_newline : EndsLine ('\n' :: more) := fun _ hc => (Option.some.inj hc).symm

private theorem head_newline (hmore : EndsLine more) : ∀ b ∈ (encode more).head?, (b != newline) = false := by
  cases more with
  | nil => exact nofun
  | cons c more =>
    obtain rfl : c = '\n' := hmore c rfl
    rintro _ ⟨⟩
    rfl

/-- A line that ends in front of these bytes. -/
theorem Text.line_append (htext : '\n' ∉ text) {rest : List UInt8} (hrest : ∀ b ∈ rest.head?, (b != newline) = false) :
    Text.line (encode text ++ rest) = text ∧ Text.lineEnd (encode text ++ rest) = rest := by
  obtain ⟨hline, hend⟩ := span_append (ne_newline htext) hrest
  exact ⟨by rw [Text.line, hline, Text.Utf8.decode_encode], hend⟩

theorem Text.line_encode (htext : '\n' ∉ text) (hmore : EndsLine more) : Text.line (encode (text ++ more)) = text := by
  rw [encode_append, (Text.line_append htext (head_newline hmore)).1]

theorem Text.lineEnd_encode (htext : '\n' ∉ text) (hmore : EndsLine more) :
    Text.lineEnd (encode (text ++ more)) = encode more := by
  rw [encode_append, (Text.line_append htext (head_newline hmore)).2]

theorem Text.nextLine_encode (htext : '\n' ∉ text) (hmore : EndsLine more) :
    Text.nextLine (encode (text ++ more)) = encode more.tail := by
  rw [Text.nextLine, Text.lineEnd_encode htext hmore]
  cases more with
  | nil => rfl
  | cons c more =>
    obtain rfl : c = '\n' := hmore c rfl
    rfl

theorem Text.nextLine_newline (more : List Char) : Text.nextLine (encode ('\n' :: more)) = encode more := rfl

/-- A word between blanks is a token. -/
theorem tokenAt_word {gap rest : List UInt8} (hgap : ∀ b ∈ gap, isBlankByte b = true) {word : List Char}
    (hword : Text.IsWord word) (hrest : ∀ b ∈ rest.head?, isBlankByte b = true) :
    TokenAt (gap ++ (encode word ++ rest)) word rest := by
  have hne : encode word ≠ [] := by
    obtain ⟨w, ws, rfl⟩ := List.exists_cons_of_ne_nil hword.1
    obtain ⟨b, bs, hencode, -⟩ := Text.Utf8.encode_cons_standsFor w ws
    rw [hencode]
    exact List.cons_ne_nil _ _
  have htoken := TokenAt.intro hgap hne (not_blank fun c hc => isAsciiBlank_of_isBlank (hword.2 c hc)) hrest
  rwa [Text.Utf8.decode_encode] at htoken

private theorem tokenAt_encode {gap : List UInt8} (hgap : ∀ b ∈ gap, isBlankByte b = true) {word : List Char}
    (hword : Text.IsWord word) (hmore : ∀ c ∈ more.head?, Text.isAsciiBlank c = true) :
    TokenAt (gap ++ encode (word ++ more)) word (encode more) := by
  have hrest : ∀ b ∈ (encode more).head?, isBlankByte b = true := by
    cases more with
    | nil => exact nofun
    | cons c more =>
      obtain ⟨b, bs, hencode, -, hstands⟩ := Text.Utf8.encode_cons_standsFor c more
      rw [hencode]
      rintro _ ⟨⟩
      exact hstands.isBlankByte.trans (hmore c rfl)
  rw [encode_append]
  exact tokenAt_word hgap hword hrest

private theorem integer?_ofInt {n : Int} (hn : -2 ^ 63 ≤ n ∧ n < 2 ^ 63) :
    integer? (Text.Decimal.ofInt n) = some n := by
  rw [integer?, Text.Decimal.readInt?_ofInt, Option.filter_some, if_pos]
  rw [Bool.and_eq_true, decide_eq_true_eq, decide_eq_true_eq]
  omega

private theorem numberAt_word {gap rest : List UInt8} (hgap : ∀ b ∈ gap, isBlankByte b = true) {n : Int}
    (hn : -2 ^ 63 ≤ n ∧ n < 2 ^ 63) (hrest : ∀ b ∈ rest.head?, isBlankByte b = true) :
    NumberAt (gap ++ (encode (Text.Decimal.ofInt n) ++ rest)) n rest :=
  ⟨_, tokenAt_word hgap (Text.isWord_ofInt n) hrest, integer?_ofInt hn⟩

private theorem numberAt_encode {gap : List UInt8} (hgap : ∀ b ∈ gap, isBlankByte b = true) {n : Int}
    (hn : -2 ^ 63 ≤ n ∧ n < 2 ^ 63) (hmore : ∀ c ∈ more.head?, Text.isAsciiBlank c = true) :
    NumberAt (gap ++ encode (Text.Decimal.ofInt n ++ more)) n (encode more) :=
  ⟨_, tokenAt_encode hgap (Text.isWord_ofInt n) hmore, integer?_ofInt hn⟩

private theorem blank_space : ∀ b ∈ encode [' '], isBlankByte b = true :=
  List.all_eq_true.mp rfl

private theorem blank_head {c : Char} (hc : Text.isAsciiBlank c = true) :
    ∀ d ∈ (c :: more).head?, Text.isAsciiBlank d = true := by
  rintro _ ⟨⟩
  exact hc

theorem EndsLine.blank (h : EndsLine more) : ∀ c ∈ more.head?, Text.isAsciiBlank c = true := fun c hc => by
  rw [h c hc]
  rfl

/-- The header of a formula announces its variables and clauses. -/
theorem headerAt_line {f : Formula} (hvariables : f.variableCount < 2 ^ 63) (hclauses : f.clauseCount < 2 ^ 63)
    {rest : List UInt8} (hrest : ∀ b ∈ rest.head?, isBlankByte b = true) :
    HeaderAt (encode f.headerLine ++ rest) f.variableCount f.clauseCount rest := by
  have hsecond : NumberAt (encode [' '] ++ (encode (Text.Decimal.ofInt f.clauseCount) ++ rest)) f.clauseCount rest :=
    numberAt_word blank_space (by omega) hrest
  have hfirst : NumberAt ([] ++ (encode (Text.Decimal.ofInt f.variableCount) ++ (encode [' '] ++
      (encode (Text.Decimal.ofInt f.clauseCount) ++ rest)))) f.variableCount _ :=
    numberAt_word (List.forall_mem_nil _) (by omega) (by rintro _ ⟨⟩; rfl)
  have hheader := HeaderAt.intro hfirst hsecond
  have htext : f.headerLine = "p cnf ".toList ++ (Text.Decimal.ofInt f.variableCount ++
      ([' '] ++ Text.Decimal.ofInt f.clauseCount)) := by
    unfold Formula.headerLine
    rw [List.append_assoc]
    rfl
  rw [htext, encode_append, encode_append, encode_append, List.append_assoc, List.append_assoc, List.append_assoc]
  exact hheader

theorem headerAt_encode {f : Formula} (hvariables : f.variableCount < 2 ^ 63) (hclauses : f.clauseCount < 2 ^ 63)
    (hmore : EndsLine more) : HeaderAt (encode (f.headerLine ++ more)) f.variableCount f.clauseCount (encode more) := by
  rw [encode_append]
  refine headerAt_line hvariables hclauses fun b hb => ?_
  cases more with
  | nil => cases hb
  | cons c more =>
    obtain rfl : c = '\n' := hmore c rfl
    cases hb
    rfl

/-- Variables that are written one after the other and a zero are a list. -/
theorem variablesAt_digits {variableCount : Nat} {vs : List Variable} (hvs : ∀ v ∈ vs, v.number ≤ variableCount)
    (input : List UInt8) :
    VariablesAt variableCount (vs.map (Text.Decimal.digits ·.number) ++ [Text.Decimal.digits 0]) input vs input := by
  induction vs with
  | nil => exact .zero (integer?_ofInt (n := 0) (by decide))
  | cons v vs ih =>
    have hlimit := v.number_le_limit
    have hnumber : (v.number : Int) < 2 ^ 63 := by
      have hsmall : Variable.limit < 2 ^ 63 := by decide
      omega
    exact .next (integer?_ofInt (n := v.number) (by omega)) (hvs v List.mem_cons_self)
      (ih fun u hu => hvs u (List.mem_cons_of_mem v hu))

/-- The words of a line that lists variables up to a zero. -/
theorem words_supportLine (vs : List Variable) :
    Text.words (" ind ".toList ++ unwords (vs.map (Text.Decimal.digits ·.number) ++ [Text.Decimal.digits 0])) =
      "ind".toList :: (vs.map (Text.Decimal.digits ·.number) ++ [Text.Decimal.digits 0]) := by
  have hind : Text.IsWord "ind".toList := Text.isWord_of_all (List.cons_ne_nil _ _) rfl
  refine (Text.words_blank (by decide) _).trans ((Text.words_word_blank hind (by decide) _).trans ?_)
  refine congrArg (List.cons _) (words_unwords fun w hw => ?_)
  rcases List.mem_append.mp hw with hw | hw
  · obtain ⟨v, -, rfl⟩ := List.mem_map.mp hw
    exact Text.isWord_digits _
  · rw [List.mem_singleton.mp hw]
    exact Text.isWord_digits 0

/-- A literal and a token, written at the start of a line. -/
theorem entryAt_weight {variableCount : Nat} {l : Literal} {token : List Char} (hl : l.var.number ≤ variableCount)
    (htoken : Text.IsWord token) (hmore : ∀ c ∈ more.head?, Text.isAsciiBlank c = true) :
    EntryAt variableCount (encode ("w ".toList ++ l.text ++ ' ' :: token ++ more)) (.weight l token)
      (encode more) := by
  have hweight : TokenAt (encode [' '] ++ encode (token ++ more)) token (encode more) :=
    tokenAt_encode blank_space htoken hmore
  rw [← encode_append] at hweight
  have hlimit := l.var.number_le_limit
  have hsmall : Variable.limit < 2 ^ 63 := by decide
  have habs := l.natAbs_toInt
  have hliteral : NumberAt ([] ++ encode (Text.Decimal.ofInt l.toInt ++ ' ' :: (token ++ more))) l.toInt
      (encode (' ' :: (token ++ more))) :=
    numberAt_encode (List.forall_mem_nil _) (by omega) (blank_head rfl)
  have hentry := EntryAt.weight hliteral hl hweight
  rw [List.nil_append, ← encode_append] at hentry
  have htext : "w ".toList ++ l.text ++ ' ' :: token ++ more =
      "w ".toList ++ (Text.Decimal.ofInt l.toInt ++ ' ' :: (token ++ more)) := by
    rw [List.append_assoc, List.append_assoc, List.cons_append]
    rfl
  rwa [htext]

end Written

namespace ByteStream
variable {s : PlainStream} {rest : List UInt8}

theorem token_at {word : List Char} (h : TokenAt s.rest word rest) :
    ∃ s', token s = .ok word s' ∧ s'.rest = rest := by
  obtain ⟨input, position⟩ := s
  dsimp only at h
  obtain ⟨hgap, hne, htoken, hrest⟩ := h
  rename_i gap token
  have hstart : ∀ b ∈ (token ++ rest).head?, isBlankByte b = false := by
    obtain ⟨b, bytes, rfl⟩ := List.exists_cons_of_ne_nil hne
    rintro _ ⟨⟩
    exact htoken _ List.mem_cons_self
  obtain ⟨-, hdrop⟩ := span_append hgap hstart
  have hinside : ∀ b ∈ token, (!isBlankByte b) = true := fun b hb => by rw [htoken b hb]; rfl
  have hbehind : ∀ b ∈ rest.head?, (!isBlankByte b) = false := fun b hb => by rw [hrest b hb]; rfl
  obtain ⟨hbytes, hrest⟩ := span_append hinside hbehind
  have heq := token_eq ⟨gap ++ (token ++ rest), position⟩ rfl (hdrop ▸ hbytes) (hdrop ▸ hrest)
  rw [List.isEmpty_eq_false_iff.mpr hne] at heq
  exact ⟨_, heq, rfl⟩

theorem integer_at {n : Int} (h : NumberAt s.rest n rest) : ∃ s', integer s = .ok n s' ∧ s'.rest = rest := by
  obtain ⟨word, htoken, hn⟩ := h
  obtain ⟨s', hword, hrest⟩ := token_at htoken
  refine ⟨s', (run_bind_of_ok hword).trans ?_, hrest⟩
  rw [hn]
  rfl

theorem passPrefix_at {bytes : List UInt8} (hs : s.rest = bytes ++ rest) :
    ∃ s', ByteStream.passPrefix bytes s = .ok true s' ∧ s'.rest = rest :=
  ⟨_, passPrefix_of_prefix s hs, rfl⟩

theorem skipBlanks_at {gap : List UInt8} (hs : s.rest = gap ++ rest) (hgap : ∀ b ∈ gap, isBlankByte b = true)
    (hrest : ∀ b ∈ rest.head?, isBlankByte b = false) : ∃ s', skipBlanks s = .ok () s' ∧ s'.rest = rest := by
  refine ⟨_, skipBlanks_eq s, ?_⟩
  rw [hs]
  exact (span_append hgap hrest).2

theorem restOfLine_at (s : PlainStream) :
    ∃ s', restOfLine s = .ok (Text.line s.rest) s' ∧ s'.rest = Text.lineEnd s.rest :=
  ⟨_, restOfLine_eq s, rfl⟩

theorem skipLine_at (s : PlainStream) : ∃ s', skipLine s = .ok () s' ∧ s'.rest = Text.nextLine s.rest :=
  ⟨_, skipLine_eq s, rfl⟩

end ByteStream
end WeightedCnf
