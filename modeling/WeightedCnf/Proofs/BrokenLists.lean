import WeightedCnf.Proofs.ShiftedReading

/-! Lists can be broken over lines anywhere. The words of the first line come from the line and those of further lines
from the stream, yet a list says the same wherever it is broken, and reading goes on behind the newline that ends it. -/
namespace WeightedCnf
open Text (newline isBlankByte)
open Text.Utf8 (encode encode_append encode_cons)
open ByteStream (integer?)

/-- A token of a list and the blanks in front of it. -/
structure ListToken where
  blanks : List Char
  token : List Char
  blanks_ne_nil : blanks ≠ []
  isAsciiBlank_blanks : ∀ c ∈ blanks, Text.isAsciiBlank c = true
  isWord_token : Text.IsWord token

namespace ListToken

def spaced (t : ListToken) : ListToken where
  blanks := [' ']
  token := t.token
  blanks_ne_nil := List.cons_ne_nil _ _
  isAsciiBlank_blanks := List.forall_mem_singleton.mpr rfl
  isWord_token := t.isWord_token

/-- The tokens of a list, each behind its blanks, and the newline behind the last one. -/
def text : List ListToken → List Char
  | [] => ['\n']
  | t :: ts => t.blanks ++ (t.token ++ text ts)

variable {ts : List ListToken}

private theorem exists_blank_cons (ts : List ListToken) :
    ∃ c more, text ts = c :: more ∧ Text.isAsciiBlank c = true := by
  cases ts with
  | nil => exact ⟨'\n', [], rfl, rfl⟩
  | cons t ts =>
    obtain ⟨c, cs, hblanks⟩ := List.exists_cons_of_ne_nil t.blanks_ne_nil
    refine ⟨c, cs ++ (t.token ++ text ts), by rw [text, hblanks]; rfl, t.isAsciiBlank_blanks c ?_⟩
    rw [hblanks]
    exact List.mem_cons_self

private theorem head_blank (ts : List ListToken) (left : List UInt8) :
    ∀ b ∈ (encode (text ts) ++ left).head?, isBlankByte b = true := by
  obtain ⟨c, more, htext, hblank⟩ := exists_blank_cons ts
  obtain ⟨b, bs, hencode, -, hstands⟩ := Text.Utf8.encode_cons_standsFor c more
  rw [htext, hencode]
  rintro _ ⟨⟩
  exact hstands.isBlankByte.trans hblank

private theorem words_blanks {blanks : List Char} (h : ∀ c ∈ blanks, Text.isAsciiBlank c = true) (more : List Char) :
    Text.words (blanks ++ more) = Text.words more := by
  induction blanks with
  | nil => rfl
  | cons c blanks ih =>
    rw [List.cons_append, Text.words_blank (isBlank_of_isAsciiBlank (h c List.mem_cons_self)),
      ih fun d hd => h d (List.mem_cons_of_mem c hd)]

variable (left : List UInt8)

private theorem tokensAt_stream (ts : List ListToken) : ∃ rest,
    TokensAt ts.length [] (encode (text ts) ++ left) (ts.map token) rest ∧ Text.nextLine rest = left := by
  induction ts with
  | nil => exact ⟨_, .nil, rfl⟩
  | cons t ts ih =>
    obtain ⟨rest, htokens, hrest⟩ := ih
    have htoken := tokenAt_word (blank_encode t.isAsciiBlank_blanks) t.isWord_token (head_blank ts left)
    refine ⟨rest, .token ?_ htokens, hrest⟩
    rw [text, encode_append, encode_append, List.append_assoc, List.append_assoc]
    exact htoken

private theorem head_first {first others : List Char} (h : text ts = first ++ '\n' :: others) :
    ∀ c ∈ first.head?, Text.isAsciiBlank c = true := by
  obtain ⟨c, more, htext, hblank⟩ := exists_blank_cons ts
  cases first with
  | nil => exact nofun
  | cons d first =>
    rintro _ ⟨⟩
    rw [htext, List.cons_append] at h
    rwa [← (List.cons.inj h).1]

private theorem words_word_first {word more : List Char} (hword : Text.IsWord word)
    (hmore : ∀ c ∈ more.head?, Text.isAsciiBlank c = true) : Text.words (word ++ more) = word :: Text.words more := by
  cases more with
  | nil => rw [List.append_nil, Text.words_word hword]; rfl
  | cons c more =>
    have hc := isBlank_of_isAsciiBlank (hmore c rfl)
    rw [Text.words_word_blank hword hc, Text.words_blank hc]

/-- The line on which the tokens start gives its words, and the stream gives the tokens behind the first break. -/
private theorem tokensAt_line (ts : List ListToken) :
    ∃ first others rest, text ts = first ++ '\n' :: others ∧ '\n' ∉ first ∧
    TokensAt ts.length (Text.words first) (newline :: (encode others ++ left)) (ts.map token) rest ∧
    Text.nextLine rest = left := by
  induction ts with
  | nil => exact ⟨[], [], _, rfl, List.not_mem_nil, .nil, rfl⟩
  | cons t ts ih =>
    by_cases hbreak : '\n' ∈ t.blanks
    · obtain ⟨gap, gap', hblanks, hgap⟩ := List.eq_append_cons_of_mem hbreak
      have hblank := t.isAsciiBlank_blanks
      rw [hblanks] at hblank
      obtain ⟨rest, htokens, hrest⟩ := tokensAt_stream left ts
      have hwords : Text.words gap = [] := by
        have hnone := words_blanks (fun c hc => hblank c (List.mem_append_left _ hc)) []
        rwa [List.append_nil] at hnone
      have htoken := tokenAt_word (blank_encode fun c hc => hblank c (List.mem_append_right gap hc)) t.isWord_token
        (head_blank ts left)
      refine ⟨gap, gap' ++ (t.token ++ text ts), rest, by rw [text, hblanks]; simp, hgap, ?_, hrest⟩
      rw [hwords]
      refine .token ?_ htokens
      rw [encode_append, encode_append, List.append_assoc, List.append_assoc]
      exact htoken
    · obtain ⟨first, others, rest, htext, hfirst, htokens, hrest⟩ := ih
      have hnewline : '\n' ∉ t.token := fun hc => by
        cases t.isWord_token.2 '\n' hc
      refine ⟨t.blanks ++ (t.token ++ first), others, rest, by rw [text, htext]; simp, ?_, ?_, hrest⟩
      · rw [List.mem_append, List.mem_append]
        exact not_or.mpr ⟨hbreak, not_or.mpr ⟨hnewline, hfirst⟩⟩
      · rw [words_blanks t.isAsciiBlank_blanks, words_word_first t.isWord_token (head_first htext)]
        exact .word htokens

end ListToken

/-- These tokens stand for variables of a formula, and for a zero behind them. -/
def StandFor (variableCount : Nat) (tokens : List (List Char)) (vs : List Variable) : Prop :=
  tokens.map integer? = vs.map (fun v => some (v.number : Int)) ++ [some 0] ∧ ∀ v ∈ vs, v.number ≤ variableCount

section Variables
variable {count variableCount : Nat} {word : List Char} {words tokens : List (List Char)} {input rest : List UInt8}
  {vs : List Variable}

private theorem variablesAt_cons (h : TokensAt count words input tokens rest)
    (hbehind : ∀ vs, StandFor variableCount tokens vs → VariablesAt variableCount words input vs rest)
    (htokens : StandFor variableCount (word :: tokens) vs) :
    VariablesAt variableCount (word :: words) input vs rest := by
  obtain ⟨hnumbers, hvs⟩ := htokens
  rw [List.map_cons] at hnumbers
  cases vs with
  | nil =>
    obtain ⟨hzero, hnil⟩ := List.cons.inj hnumbers
    cases List.map_eq_nil_iff.mp hnil
    cases h
    exact .zero hzero
  | cons v vs =>
    obtain ⟨hnumber, hnumbers⟩ := List.cons.inj hnumbers
    exact .next hnumber (hvs v List.mem_cons_self)
      (hbehind vs ⟨hnumbers, fun u hu => hvs u (List.mem_cons_of_mem v hu)⟩)

private theorem TokensAt.variablesAt (h : TokensAt count words input tokens rest)
    (htokens : StandFor variableCount tokens vs) :
    VariablesAt variableCount words input vs rest := by
  induction h generalizing vs with
  | nil =>
    have hnone := congrArg List.length htokens.1
    simp at hnone
  | word h ih => exact variablesAt_cons h (fun _ => ih) htokens
  | token htoken h ih => exact .token htoken (variablesAt_cons h (fun _ => ih) htokens)

end Variables

def listText (keyword : List Char) (ts : List ListToken) : List Char :=
  "c ".toList ++ (keyword ++ ListToken.text ts)

/-- What a list with this keyword and these tokens says. -/
inductive Lists (c : Context) : (keyword : List Char) → (tokens : List (List Char)) → Item → Prop
  | support {tokens vs} (h : StandFor c.variableCount tokens vs) : Lists c "ind".toList tokens (.entry (.support vs))
  | weights {tokens} (hlists : c.lists = true) (hcount : tokens.length = 2 * c.variableCount) :
    Lists c "weights".toList tokens (.weights tokens)

private theorem Lists.isWord {c : Context} {keyword : List Char} {tokens : List (List Char)} {i : Item}
    (h : Lists c keyword tokens i) : Text.IsWord keyword := by
  cases h with
  | support => exact Text.isWord_of_all (List.cons_ne_nil _ _) rfl
  | weights => exact Text.isWord_of_all (List.cons_ne_nil _ _) rfl

/-- A list is an item wherever it is broken, and behind it comes what follows its last newline. -/
private theorem Lists.itemAt {c : Context} {keyword : List Char} {ts : List ListToken} {i : Item}
    (h : Lists c keyword (ts.map ListToken.token) i) (left : List UInt8) :
    ∃ rest, ItemAt c (encode (listText keyword ts) ++ left) i rest ∧ Text.nextLine rest = left := by
  obtain ⟨first, others, rest, htext, hfirst, htokens, hrest⟩ := ListToken.tokensAt_line left ts
  refine ⟨rest, ?_, hrest⟩
  have hbytes : encode (listText keyword ts) ++ left =
      'c'.toUInt8 :: (encode (' ' :: (keyword ++ first)) ++ newline :: (encode others ++ left)) := by
    have hall : listText keyword ts = 'c' :: ((' ' :: (keyword ++ first)) ++ '\n' :: others) := by
      rw [listText, htext, List.cons_append, List.append_assoc]
      rfl
    rw [hall, encode_cons, encode_append, encode_cons, List.append_assoc, List.append_assoc]
    rfl
  have hnewline : '\n' ∉ ' ' :: (keyword ++ first) := by
    intro hc
    rcases List.mem_append.mp ((List.mem_cons.mp hc).resolve_left (by decide)) with hc | hc
    · cases h.isWord.2 '\n' hc
    · exact hfirst hc
  have hends : ∀ b ∈ (newline :: (encode others ++ left)).head?, (b != newline) = false := by
    rintro _ ⟨⟩
    rfl
  obtain ⟨hline, hend⟩ := Text.line_append hnewline hends
  have hwords : Text.words (' ' :: (keyword ++ first)) = keyword :: Text.words first :=
    (Text.words_blank rfl _).trans (ListToken.words_word_first h.isWord (ListToken.head_first htext))
  rw [← hline] at hwords
  have hblank : (Text.line (encode (' ' :: (keyword ++ first)) ++ newline :: (encode others ++ left))).head?.any
      Text.isAsciiBlank = true := by
    rw [hline]
    rfl
  rw [← hend] at htokens
  rw [hbytes]
  cases h with
  | support h => exact .entry (.support hblank hwords (htokens.variablesAt h))
  | weights hlists hcount =>
    rw [List.length_map] at hcount
    rw [hcount] at htokens
    exact .weights hlists hblank hwords htokens

/-- A text of whole items, whatever follows it. -/
def IsFront (c : Context) (front : List UInt8) (is : List Item) : Prop :=
  ∀ left, ItemsBefore left c (front ++ left) is

section Fronts
variable {c : Context} {front front' : List UInt8} {is is' : List Item}

private theorem ItemsBefore.append {left middle input : List UInt8} (h : ItemsBefore middle c input is)
    (h' : ItemsBefore left (is.foldl Context.after c) middle is') : ItemsBefore left c input (is ++ is') := by
  induction h with
  | nil => exact h'
  | cons hgap hi _ ih => exact .cons hgap hi (ih h')

private theorem IsFront.append (h : IsFront c front is) (h' : IsFront (is.foldl Context.after c) front' is') :
    IsFront c (front ++ front') (is ++ is') := by
  intro left
  rw [List.append_assoc]
  exact (h (front' ++ left)).append (h' left)

private theorem ItemAt.before {input left rest : List UInt8} {i : Item} (hi : ItemAt c input i rest)
    (hrest : Text.nextLine rest = left) : ItemsBefore left c input [i] := by
  have hitems : ItemsBefore left c ([] ++ input) [i] := .cons (List.forall_mem_nil _) hi (hrest ▸ .nil)
  exact hitems

private theorem isFront_header {f : Formula} (hvariables : f.variableCount < 2 ^ 63)
    (hclauses : f.clauseCount < 2 ^ 63) :
    IsFront c (encode (f.headerLine ++ ['\n'])) [.header f.variableCount f.clauseCount] := by
  intro left
  have hblank : ∀ b ∈ (newline :: left).head?, isBlankByte b = true := by
    rintro _ ⟨⟩
    rfl
  rw [encode_append, List.append_assoc]
  exact (ItemAt.header (headerAt_line hvariables hclauses hblank)).before rfl

private theorem Lists.isFront {keyword : List Char} {ts : List ListToken} {i : Item}
    (h : Lists c keyword (ts.map ListToken.token) i) : IsFront c (encode (listText keyword ts)) [i] := by
  intro left
  obtain ⟨rest, hi, hrest⟩ := h.itemAt left
  exact hi.before hrest

end Fronts

namespace Formula

/-- Wherever a list behind some whole items, among them a header, is broken over lines, the same formula is read as when
single spaces stand between its tokens. It is the one that comes of what the list says and of reading the text behind
it from its first byte on. -/
theorem parse_brokenList {broken unbroken : Source} {format : WeightFormat} {front left : List UInt8} {is : List Item}
    {keyword : List Char} {ts : List ListToken} {i : Item} (hfront : IsFront format.context front is)
    (hlist : Lists (is.foldl Context.after format.context) keyword (ts.map ListToken.token) i)
    (hbroken : broken.content = front ++ (encode (listText keyword ts) ++ left))
    (hunbroken : unbroken.content = front ++ (encode (listText keyword (ts.map ListToken.spaced)) ++ left))
    (hending : broken.ending = .endOfInput) (hending' : unbroken.ending = .endOfInput) :
    Logged.value (parse broken format #[]) = Logged.value (parse unbroken format #[]) ∧
      Logged.value (parse broken format #[]) = readAfter (is ++ [i]) left format := by
  have htokens : (ts.map ListToken.spaced).map ListToken.token = ts.map ListToken.token := by
    rw [List.map_map]
    rfl
  have hlist' : Lists _ keyword ((ts.map ListToken.spaced).map ListToken.token) i := htokens.symm ▸ hlist
  have hitems := (hfront.append hlist.isFront) left
  have hitems' := (hfront.append hlist'.isFront) left
  rw [List.append_assoc, ← hbroken] at hitems
  rw [List.append_assoc, ← hunbroken] at hitems'
  have hread := value_parse hending hitems
  exact ⟨hread.trans (value_parse hending' hitems').symm, hread⟩

/-- Weights of two variables, and breaks in front of two of them. -/
def brokenWeights : List ListToken :=
  [⟨" ".toList, "1/4".toList, List.cons_ne_nil _ _, List.all_eq_true.mp rfl,
      Text.isWord_of_all (List.cons_ne_nil _ _) rfl⟩,
    ⟨"\n\t".toList, "3/4".toList, List.cons_ne_nil _ _, List.all_eq_true.mp rfl,
      Text.isWord_of_all (List.cons_ne_nil _ _) rfl⟩,
    ⟨"  ".toList, "0.5".toList, List.cons_ne_nil _ _, List.all_eq_true.mp rfl,
      Text.isWord_of_all (List.cons_ne_nil _ _) rfl⟩,
    ⟨" \n\n".toList, "0.5".toList, List.cons_ne_nil _ _, List.all_eq_true.mp rfl,
      Text.isWord_of_all (List.cons_ne_nil _ _) rfl⟩]

def brokenSource : Source :=
  { content := encode "p cnf 2 0\nc weights 1/4\n\t3/4  0.5 \n\n0.5\nc ind 2 0\n".toList }

def unbrokenSource : Source :=
  { content := encode "p cnf 2 0\nc weights 1/4 3/4 0.5 0.5\nc ind 2 0\n".toList }

theorem parse_brokenList_weights :
    Logged.value (parse brokenSource .detect #[]) = Logged.value (parse unbrokenSource .detect #[]) ∧
    Logged.value (parse brokenSource .detect #[]) =
      readAfter [.header 2 0, .weights (brokenWeights.map ListToken.token)] (encode "c ind 2 0\n".toList) .detect := by
  have hfront : IsFront WeightFormat.detect.context _ [.header 2 0] :=
    isFront_header (f := ofCounts 2 0) (by decide) (by decide)
  have hlist : Lists ⟨2, true⟩ "weights".toList (brokenWeights.map ListToken.token)
      (.weights (brokenWeights.map ListToken.token)) := .weights rfl rfl
  have hbroken : brokenSource.content = encode ((ofCounts 2 0).headerLine ++ ['\n']) ++
      (encode (listText "weights".toList brokenWeights) ++ encode "c ind 2 0\n".toList) := by decide +kernel
  have hunbroken : unbrokenSource.content = encode ((ofCounts 2 0).headerLine ++ ['\n']) ++
      (encode (listText "weights".toList (brokenWeights.map ListToken.spaced)) ++ encode "c ind 2 0\n".toList) := by
    decide +kernel
  have hread := parse_brokenList hfront hlist hbroken hunbroken rfl rfl
  exact hread

end Formula
end WeightedCnf
