import WeightedCnf.Proofs.ExplicitFormat
import WeightedCnf.Proofs.Items

/-! Every text that is read without a complaint is made of items, so what its formula says can be told from the items
alone. -/
namespace WeightedCnf
open Text (newline isBlankByte)
open Text.Utf8 (encode)

private theorem head_dropWhile {q : UInt8 → Bool} {bytes : List UInt8} :
    ∀ b ∈ (bytes.dropWhile q).head?, q b = false := by
  intro b hb
  have hhead := List.head?_dropWhile_not q bytes
  rwa [hb] at hhead

private theorem Literal.toInt_of_ofInt {n : Int} {l : Literal} (h : ofInt n = .ok l) : l.toInt = n := by
  unfold ofInt at h
  cases hl : ofInt? n with
  | none =>
    rw [hl] at h
    cases h
  | some k =>
    rw [hl] at h
    cases h
    obtain ⟨v, hv, rfl⟩ := Option.map_eq_some_iff.mp hl
    have hnumber := Variable.number_of_ofNumber? hv
    rw [toInt]
    by_cases hn : 0 < n
    · rw [decide_eq_true hn, if_pos rfl]
      dsimp only
      omega
    · rw [decide_eq_false hn, if_neg Bool.false_ne_true]
      dsimp only
      omega

namespace ByteStream
variable {s s' : PlainStream}

private theorem tokenAt_of_ok {word : List Char} (h : token s = .ok word s') : TokenAt s.rest word s'.rest := by
  have heq := token_eq s rfl rfl rfl
  rw [heq] at h
  split at h
  · cases h
  · rename_i hne
    cases h
    have htoken := @TokenAt.intro (s.rest.takeWhile isBlankByte) _
      ((s.rest.dropWhile isBlankByte).dropWhile (!isBlankByte ·)) (fun b hb => List.mem_takeWhile_imp hb)
      (fun hnil => hne (List.isEmpty_iff.mpr hnil))
      (fun b hb => by
        have hinside := List.mem_takeWhile_imp hb
        rwa [Bool.not_eq_true'] at hinside)
      (fun b hb => by
        have hbehind := head_dropWhile b hb
        rwa [Bool.not_eq_false'] at hbehind)
    rwa [List.takeWhile_append_dropWhile, List.takeWhile_append_dropWhile] at htoken

private theorem numberAt_of_ok {n : Int} (h : integer s = .ok n s') : NumberAt s.rest n s'.rest := by
  obtain ⟨word, s₁, hword, h⟩ := run_bind_eq_ok.mp h
  dsimp only at h
  cases hn : integer? word with
  | none =>
    rw [hn] at h
    cases h
  | some m =>
    rw [hn] at h
    cases h
    exact ⟨word, tokenAt_of_ok hword, hn⟩

private theorem prefix_of_ok {bytes : List UInt8} (h : ByteStream.passPrefix bytes s = .ok true s') :
    s.rest = bytes ++ s'.rest := by
  by_cases hstarts : bytes <+: s.rest
  · obtain ⟨rest, hrest⟩ := hstarts
    have hpass := passPrefix_of_prefix s hrest.symm
    cases hpass.symm.trans h
    exact hrest.symm
  · have hpass := passPrefix_of_not_prefix s hstarts
    cases hpass.symm.trans h

end ByteStream

namespace Reading
open ByteStream (integer? token)
variable {r r' : Reader PlainStream} {u : Unit}

theorem require_eq_ok {σ : Type} [ByteStream σ] {r r' : Reader σ} {c : Bool} {e : FormulaError} :
    require c e r = .ok u r' ↔ c = true ∧ r = r' := by
  cases c with
  | true =>
    change EStateM.Result.ok () r = _ ↔ _
    rw [EStateM.Result.ok.injEq]
    exact ⟨fun h => ⟨rfl, h.2⟩, fun h => ⟨rfl, h.2⟩⟩
  | false => exact ⟨(nomatch ·), fun h => (nomatch h.1)⟩

theorem assume_eq_ok {σ α : Type} {r r' : Reader σ} {x : Except Fault α} {a : α} :
    assume x r = .ok a r' ↔ x = .ok a ∧ r = r' := by
  cases x with
  | ok b =>
    change EStateM.Result.ok b r = _ ↔ _
    rw [EStateM.Result.ok.injEq, Except.ok.injEq]
  | error cause => exact ⟨(nomatch ·), fun h => (nomatch h.1)⟩

private theorem headerAt_of_ok (h : header r = .ok u r') : ∃ variableCount clauseCount rest,
    HeaderAt r.stream.rest variableCount clauseCount rest := by
  obtain ⟨_, r₁, hstart, h⟩ := run_bind_eq_ok.mp h
  obtain ⟨s₁, hpass, rfl⟩ := onStream_eq_ok.mp hstart
  obtain ⟨_, _, hmalformed, h⟩ := run_bind_eq_ok.mp h
  obtain ⟨rfl, rfl⟩ := require_eq_ok.mp hmalformed
  obtain ⟨variableCount, r₂, hvariables, h⟩ := run_bind_eq_ok.mp h
  obtain ⟨s₂, hvariables', rfl⟩ := onStream_eq_ok.mp hvariables
  obtain ⟨clauseCount, r₃, hclauses, h⟩ := run_bind_eq_ok.mp h
  obtain ⟨s₃, hclauses', rfl⟩ := onStream_eq_ok.mp hclauses
  obtain ⟨_, _, hrequire, h⟩ := run_bind_eq_ok.mp h
  obtain ⟨hvariableCount, rfl⟩ := require_eq_ok.mp hrequire
  obtain ⟨_, _, hrequire, h⟩ := run_bind_eq_ok.mp h
  obtain ⟨hclauseCount, rfl⟩ := require_eq_ok.mp hrequire
  rw [decide_eq_true_eq] at hvariableCount hclauseCount
  obtain ⟨n, rfl⟩ := Int.eq_ofNat_of_zero_le hvariableCount
  obtain ⟨k, rfl⟩ := Int.eq_ofNat_of_zero_le hclauseCount
  refine ⟨n, k, s₃.rest, ?_⟩
  rw [ByteStream.prefix_of_ok hpass]
  exact .intro (ByteStream.numberAt_of_ok hvariables') (ByteStream.numberAt_of_ok hclauses')

private theorem literalAt_of_ok {l : Literal} (h : literal r = .ok l r') :
    NumberAt r.stream.rest l.toInt r'.stream.rest ∧
    l.var.number ≤ r.formula.variableCount := by
  obtain ⟨n, r₁, hinteger, h⟩ := run_bind_eq_ok.mp h
  obtain ⟨s₁, hnumber, rfl⟩ := onStream_eq_ok.mp hinteger
  obtain ⟨_, _, hget, h⟩ := run_bind_eq_ok.mp h
  cases hget
  obtain ⟨_, _, hrequire, h⟩ := run_bind_eq_ok.mp h
  obtain ⟨hliteral, rfl⟩ := require_eq_ok.mp hrequire
  obtain ⟨hl, rfl⟩ := assume_eq_ok.mp h
  have hn := Literal.toInt_of_ofInt hl
  subst hn
  rw [Formula.hasLiteral, Bool.and_eq_true, decide_eq_true_eq, Literal.natAbs_toInt] at hliteral
  exact ⟨ByteStream.numberAt_of_ok hnumber, hliteral.2⟩

private theorem stream_meetWeightLine (h : meetWeightLine r = .ok u r') : r'.stream = r.stream := by
  obtain ⟨stream, format, formula, log⟩ := r
  cases format with
  | minic2d => cases h
  | _ =>
    cases h
    rfl

private theorem stream_meetLiteral {l : Literal} (h : meetLiteral l r = .ok u r') : r'.stream = r.stream := by
  obtain ⟨stream, format, formula, log⟩ := r
  unfold meetLiteral at h
  split at h
  · cases h
    rfl
  · cases format with
    | cachet => cases h
    | _ =>
      cases h
      rfl

private theorem weightAt_of_ok (h : weightLine r = .ok u r') :
    ∃ e rest, EntryAt r.formula.variableCount r.stream.rest e rest := by
  obtain ⟨_, r₁, hstart, h⟩ := run_bind_eq_ok.mp h
  obtain ⟨s₁, hpass, rfl⟩ := onStream_eq_ok.mp hstart
  obtain ⟨_, _, hmalformed, h⟩ := run_bind_eq_ok.mp h
  obtain ⟨rfl, rfl⟩ := require_eq_ok.mp hmalformed
  obtain ⟨_, r₂, hmeet, h⟩ := run_bind_eq_ok.mp h
  obtain ⟨l, r₃, hliteral, h⟩ := run_bind_eq_ok.mp h
  obtain ⟨_, r₄, hmeet', h⟩ := run_bind_eq_ok.mp h
  obtain ⟨weight, r₅, htoken, -⟩ := run_bind_eq_ok.mp h
  obtain ⟨s₅, htoken', -⟩ := onStream_eq_ok.mp htoken
  obtain ⟨hnumber, hl⟩ := literalAt_of_ok hliteral
  rw [stream_meetWeightLine hmeet] at hnumber
  rw [formula_meetWeightLine hmeet] at hl
  have hweight := ByteStream.tokenAt_of_ok htoken'
  rw [stream_meetLiteral hmeet'] at hweight
  refine ⟨.weight l weight, s₅.rest, ?_⟩
  rw [ByteStream.prefix_of_ok hpass]
  exact .weight hnumber hl hweight

private theorem nextWord_eq_ok {words words' : List (List Char)} {word : List Char}
    (h : nextWord words r = .ok (word, words') r') : words = word :: words' ∧ r' = r ∨
      words = [] ∧ words' = [] ∧ ∃ stream : PlainStream, r' = { r with stream } ∧
        TokenAt r.stream.rest word stream.rest := by
  cases words with
  | cons first words =>
    cases h
    exact .inl ⟨rfl, rfl⟩
  | nil =>
    obtain ⟨_, r₁, htoken, h⟩ := run_bind_eq_ok.mp h
    cases h
    obtain ⟨s, hs, rfl⟩ := onStream_eq_ok.mp htoken
    exact .inr ⟨rfl, rfl, s, rfl, ByteStream.tokenAt_of_ok hs⟩

private theorem supportList_of_ok {fuel : Nat} {words : List (List Char)}
    (h : supportList (fuel + 1) words r = .ok u r') :
    ∃ word words' r₁, nextWord words r = .ok (word, words') r₁ ∧ (integer? word = some 0 ∨
      ∃ v : Variable, integer? word = some (v.number : Int) ∧ v.number ≤ r₁.formula.variableCount ∧
        supportList fuel words' { r₁ with formula := r₁.formula.addSupport v } = .ok u r') := by
  obtain ⟨⟨word, words'⟩, r₁, hword, h⟩ := run_bind_eq_ok.mp h
  refine ⟨word, words', r₁, hword, ?_⟩
  dsimp only at h
  cases hn : integer? word with
  | none =>
    rw [hn] at h
    cases h
  | some n =>
    rw [hn] at h
    dsimp only at h
    split at h
    · rename_i hzero
      exact .inl (congrArg some hzero)
    · obtain ⟨_, _, hget, h⟩ := run_bind_eq_ok.mp h
      cases hget
      obtain ⟨_, _, hrequire, h⟩ := run_bind_eq_ok.mp h
      obtain ⟨hinside, rfl⟩ := require_eq_ok.mp hrequire
      obtain ⟨v, _, hassume, h⟩ := run_bind_eq_ok.mp h
      obtain ⟨hv, rfl⟩ := assume_eq_ok.mp hassume
      obtain ⟨_, _, hadd, hrest⟩ := run_bind_eq_ok.mp h
      cases hadd
      rw [Bool.and_eq_true, decide_eq_true_eq, Formula.hasLiteral, Bool.and_eq_true, decide_eq_true_eq] at hinside
      obtain ⟨hpos, -, hle⟩ := hinside
      obtain ⟨m, rfl⟩ := Int.eq_ofNat_of_zero_le hpos.le
      cases Variable.number_of_ofNumber hv
      exact .inr ⟨v, rfl, hle, hrest⟩

private theorem variablesAt_of_ok {fuel : Nat} {words : List (List Char)} (h : supportList fuel words r = .ok u r')
    (hfuel : words.length + r.stream.rest.length < fuel) :
    ∃ vs rest, VariablesAt r.formula.variableCount words r.stream.rest vs rest := by
  induction fuel generalizing words r with
  | zero => exact absurd hfuel (Nat.not_lt_zero _)
  | succ fuel ih =>
    obtain ⟨word, words', r₁, hword, hread⟩ := supportList_of_ok h
    -- a word that comes from the stream is read like one that was taken from the line
    have hline (hfuel : words'.length + r₁.stream.rest.length < fuel) :
        ∃ vs rest, VariablesAt r₁.formula.variableCount (word :: words') r₁.stream.rest vs rest := by
      rcases hread with hzero | ⟨v, hv, hle, h⟩
      · exact ⟨[], _, .zero hzero⟩
      · obtain ⟨vs, rest, hvs⟩ := ih h hfuel
        exact ⟨v :: vs, rest, .next hv hle hvs⟩
    rcases nextWord_eq_ok hword with ⟨rfl, rfl⟩ | ⟨rfl, rfl, stream, rfl, htoken⟩
    · apply hline
      rw [List.length_cons] at hfuel
      omega
    · have hlt := htoken.length_lt
      rw [List.length_nil, Nat.zero_add] at hfuel
      obtain ⟨vs, rest, hvs⟩ := hline (by
        rw [List.length_nil, Nat.zero_add]
        exact Nat.lt_of_lt_of_le hlt (Nat.le_of_lt_succ hfuel))
      exact ⟨vs, rest, .token htoken hvs⟩

private theorem weightList_of_ok {count number : Nat} {words : List (List Char)}
    (h : weightList (count + 1) number words r = .ok u r') :
    ∃ positive negative words₁ words₂ r₁ r₂ formula₁ formula₂ log₁ log₂,
      nextWord words r = .ok (positive, words₁) r₁ ∧
      nextWord words₁ { r₁ with formula := formula₁, log := log₁ } = .ok (negative, words₂) r₂ ∧
      weightList count (number + 1) words₂ { r₂ with formula := formula₂, log := log₂ } = .ok u r' := by
  obtain ⟨v, _, hassume, h⟩ := run_bind_eq_ok.mp h
  obtain ⟨-, rfl⟩ := assume_eq_ok.mp hassume
  obtain ⟨⟨positive, words₁⟩, r₁, hpositive, h⟩ := run_bind_eq_ok.mp h
  obtain ⟨_, _, hrecord, h⟩ := run_bind_eq_ok.mp h
  obtain ⟨log₁, hrun⟩ := recordWeight_eq v.positive positive r₁
  cases hrun.symm.trans hrecord
  obtain ⟨⟨negative, words₂⟩, r₂, hnegative, h⟩ := run_bind_eq_ok.mp h
  obtain ⟨_, _, hrecord', hrest⟩ := run_bind_eq_ok.mp h
  obtain ⟨log₂, hrun⟩ := recordWeight_eq v.negative negative r₂
  cases hrun.symm.trans hrecord'
  exact ⟨positive, negative, words₁, words₂, r₁, r₂, _, _, log₁, log₂, within_eq_ok.mp hpositive,
    within_eq_ok.mp hnegative, hrest⟩

private theorem tokensAt_of_nextWord {count : Nat} {words words' tokens : List (List Char)} {word : List Char}
    {rest : List UInt8} (hword : nextWord words r = .ok (word, words') r')
    (h : TokensAt count words' r'.stream.rest tokens rest) :
    TokensAt (count + 1) words r.stream.rest (word :: tokens) rest := by
  rcases nextWord_eq_ok hword with ⟨rfl, rfl⟩ | ⟨rfl, rfl, stream, rfl, htoken⟩
  · exact .word h
  · exact .token htoken h

private theorem tokensAt_of_ok {count number : Nat} {words : List (List Char)}
    (h : weightList count number words r = .ok u r') :
    ∃ tokens rest, TokensAt (2 * count) words r.stream.rest tokens rest := by
  induction count generalizing number words r with
  | zero => exact ⟨[], _, .nil⟩
  | succ count ih =>
    obtain ⟨positive, negative, words₁, words₂, r₁, r₂, formula₁, formula₂, log₁, log₂, hpositive, hnegative, h⟩ :=
      weightList_of_ok h
    obtain ⟨tokens, rest, htokens⟩ := ih h
    have hbehind := tokensAt_of_nextWord hnegative htokens
    exact ⟨_, rest, tokensAt_of_nextWord hpositive hbehind⟩

private theorem commentAt_of_ok {input : List UInt8} (hs : r.stream.rest = 'c'.toUInt8 :: input)
    (h : comment r = .ok u r') :
    ∃ i rest, ItemAt r.context ('c'.toUInt8 :: input) i rest := by
  obtain ⟨s, hrest, hline⟩ := comment_start hs
  have hletter : onStream (modify ByteStream.pass) r = .ok () { r with stream := r.stream.pass } := rfl
  have hrun := (run_bind_of_ok hletter).symm.trans h
  replace hrun := (run_bind_of_ok hline).symm.trans hrun
  replace hrun := (run_bind_of_ok (s := { r with stream := s }) rfl).symm.trans hrun
  dsimp only at hrun
  split at hrun
  · rename_i hsupport
    rw [Bool.and_eq_true, beq_iff_eq] at hsupport
    obtain ⟨vs, rest, hvs⟩ := variablesAt_of_ok hrun (Nat.lt_succ_of_le (Nat.add_le_add_right (by simp) _))
    rw [hrest] at hvs
    exact ⟨_, rest, .entry (.support hsupport.1 (List.cons_head?_tail hsupport.2).symm hvs)⟩
  rename_i hsupport
  rw [Bool.and_eq_true, beq_iff_eq] at hsupport
  split at hrun
  · rename_i hweights
    rw [Bool.and_eq_true, Bool.and_eq_true, beq_iff_eq] at hweights
    obtain ⟨⟨hblank, hword⟩, hformat⟩ := hweights
    have hlists : r.format.hasLists = true := by
      cases hr : r.format <;> rw [hr] at hformat <;> first | rfl | cases hformat
    obtain ⟨r₁, hr₁, hlist⟩ : ∃ r₁ : Reader PlainStream, r₁.stream = s ∧
        weightList r.formula.variableCount 1 (Text.words (Text.line input)).tail r₁ = .ok u r' := by
      split at hrun
      · obtain ⟨_, r₁, hsettle, hlist⟩ := run_bind_eq_ok.mp hrun
        cases hsettle
        exact ⟨_, rfl, hlist⟩
      · exact ⟨_, rfl, hrun⟩
    obtain ⟨tokens, rest, htokens⟩ := tokensAt_of_ok hlist
    rw [hr₁, hrest] at htokens
    exact ⟨_, rest, .weights hlists hblank (List.cons_head?_tail hword).symm htokens⟩
  · rename_i hweights
    rw [Bool.and_eq_true, Bool.and_eq_true, beq_iff_eq] at hweights
    by_cases hstarts : StartsWeights (Text.line input)
    · refine ⟨_, _, .comment ?_ hstarts⟩
      cases hr : r.format with
      | detect | minic2d => exact absurd ⟨hstarts, by rw [hr]; rfl⟩ hweights
      | cachet | cachetOrMc20 | mc20 => exact congrArg WeightFormat.hasLists hr
    · exact ⟨_, _, .entry (.comment hsupport hstarts)⟩

private theorem itemAt_of_ok {first : UInt8} {input : List UInt8} (hs : r.stream.rest = first :: input)
    (hfirst : isBlankByte first = false) (h : item first r = .ok u r') :
    ∃ i rest, ItemAt r.context (first :: input) i rest := by
  unfold item at h
  split at h
  · obtain ⟨variableCount, clauseCount, rest, hheader⟩ := headerAt_of_ok h
    exact ⟨_, rest, .header (hs ▸ hheader)⟩
  split at h
  · obtain ⟨e, rest, he⟩ := weightAt_of_ok h
    exact ⟨_, rest, .entry (hs ▸ he)⟩
  split at h
  · rename_i hc
    subst hc
    exact commentAt_of_ok hs h
  · exact ⟨_, _, .entry (.line hfirst ‹_› ‹_› ‹_›)⟩

private theorem item_of_ok {first : UInt8} {input : List UInt8} (hs : r.stream.rest = first :: input)
    (hfirst : isBlankByte first = false) (h : item first r = .ok u r') :
    ∃ i, ItemAt r.context (first :: input) i r'.stream.rest ∧ r'.context = r.context.after i := by
  obtain ⟨i, rest, hi⟩ := itemAt_of_ok hs hfirst h
  have hstart : Readers (Leaves (first :: input)) r ⟨(), r.format, r.formula, r.log⟩ := ⟨hs, rfl, rfl, rfl⟩
  have hperformed : SameResult Eq _ (Readers (Leaves rest)) _ _ := item_performs hstart hi rfl
  rw [h] at hperformed
  generalize hy : perform i ⟨(), r.format, r.formula, r.log⟩ = y at hperformed
  cases hperformed with
  | @ok _ _ d hd =>
    have hcontext : r'.context = r.context.after i := by
      rw [Reader.context, hd.formula, hd.format]
      exact context_perform hy
    have hrest : r'.stream.rest = rest := hd.stream
    exact ⟨i, hrest.symm ▸ hi, hcontext⟩

/-- A file that is read to its end is made of items. -/
private theorem itemsAt_of_ok {fuel : Nat} (h : file fuel r = .ok u r') (hfuel : r.stream.rest.length < fuel) :
    ∃ is, ItemsAt r.context r.stream.rest is := by
  induction fuel generalizing r with
  | zero => exact absurd hfuel (Nat.not_lt_zero _)
  | succ fuel ih =>
    have hgap : ∀ b ∈ r.stream.rest.takeWhile isBlankByte, isBlankByte b = true := fun b hb => List.mem_takeWhile_imp hb
    have hsplit := (r.stream.rest.takeWhile_append_dropWhile (p := isBlankByte)).symm
    cases hbehind : r.stream.rest.dropWhile isBlankByte with
    | nil =>
      rw [hbehind, List.append_nil] at hsplit
      rw [hsplit]
      exact ⟨[], .nil hgap⟩
    | cons first input =>
      rw [hbehind] at hsplit
      have hfirst : isBlankByte first = false := head_dropWhile first (by rw [hbehind]; rfl)
      obtain ⟨s, line, hs, hfile⟩ := file_at hsplit hgap hfirst fuel
      obtain ⟨_, r₁, hitem, hrun⟩ := run_bind_eq_ok.mp (hfile.symm.trans h)
      obtain ⟨i, hi, hcontext⟩ := item_of_ok (r := { r with stream := s }) hs hfirst (within_eq_ok.mp hitem)
      obtain ⟨s₂, hskip, hs₂⟩ := ByteStream.skipLine_at r₁.stream
      rw [run_bind_of_ok (onStream_eq_ok.mpr ⟨s₂, hskip, rfl⟩)] at hrun
      obtain ⟨is, his⟩ := ih hrun (by
        have hlt := hi.length_nextLine_lt
        rw [hsplit, List.length_append] at hfuel
        rw [hs₂]
        omega)
      have hcontext' : r₁.context = r.context.after i := hcontext
      rw [hsplit]
      refine ⟨i :: is, .cons hgap hi ?_⟩
      rw [← hcontext', ← hs₂]
      exact his

/-- With enough fuel a file is read to its end, so more fuel changes nothing. -/
theorem file_congr_fuel {fuel fuel' : Nat} (h : r.stream.rest.length < fuel) (h' : r.stream.rest.length < fuel') :
    file fuel r = file fuel' r := by
  induction fuel generalizing fuel' r with
  | zero => exact absurd h (Nat.not_lt_zero _)
  | succ fuel ih =>
    obtain ⟨fuel', rfl⟩ := Nat.exists_eq_add_one_of_ne_zero (Nat.ne_of_gt (Nat.zero_lt_of_lt h'))
    refine run_bind_congr fun _ r₁ hskip => run_bind_congr fun _ _ hget => run_bind_congr fun next r₂ hpeek => ?_
    obtain ⟨s₁, hs₁, rfl⟩ := onStream_eq_ok.mp hskip
    cases (ByteStream.skipBlanks_eq r.stream).symm.trans hs₁
    cases hget
    cases hpeek
    have hlength := (List.dropWhile_sublist isBlankByte (l := r.stream.rest)).length_le
    cases hnext : r.stream.rest.dropWhile isBlankByte with
    | nil => rfl
    | cons first input =>
      refine run_bind_congr fun _ r₃ hitem => run_bind_congr fun _ r₄ hline => ?_
      obtain ⟨i, hi, -⟩ := item_of_ok rfl (head_dropWhile first (by rw [hnext]; rfl)) (within_eq_ok.mp hitem)
      obtain ⟨s₄, hs₄, rfl⟩ := onStream_eq_ok.mp hline
      obtain ⟨s, hskip, hs⟩ := ByteStream.skipLine_at r₃.stream
      cases hskip.symm.trans hs₄
      have hlt := hi.length_nextLine_lt
      rw [hnext] at hlength
      have hrest : s₄.rest.length < r.stream.rest.length := by
        rw [hs]
        exact hlt.trans_le hlength
      exact ih (by dsimp only; omega) (by dsimp only; omega)

end Reading

def Reader.atStart (format : WeightFormat) : Reader Unit where
  stream := ()
  format

namespace Formula
variable {source : Source} {format : WeightFormat} {f : Formula} {log : Log}

/-- A text that is read without a complaint is made of items, and dealing with these gives the formula. -/
theorem parse_items (hending : source.ending = .endOfInput) (hparse : parse source format #[] = .ok f log)
    (haccepted : ∀ e, .formulaNotRead e ∉ log.toList) :
    (∃ is, ItemsAt format.context source.content is) ∧
    ∀ is, ItemsAt format.context source.content is → ∃ d d', Reading.items is (.atStart format) = .ok () d ∧
      Reading.finish d = .ok () d' ∧ f = { d'.formula with format := d'.format } ∧ log = d'.log := by
  rw [parse_eq_readFrom hending] at hparse
  obtain ⟨r, hfile, rfl, rfl⟩ := file_of_readFrom hparse haccepted
  refine ⟨Reading.itemsAt_of_ok hfile (Nat.lt_succ_self _), fun is his => ?_⟩
  have hstart : Readers (Leaves source.content) ({ stream := ⟨source.content, {}⟩, format } : Reader PlainStream)
      (.atStart format) := ⟨rfl, rfl, rfl, rfl⟩
  have his' : ItemsAt (Reader.atStart format).context source.content is := his
  obtain ⟨hread, hstopped⟩ := Reading.file_items his' hstart (Nat.lt_succ_of_le his.length_le)
  cases hitems : Reading.items is (.atStart format) with
  | error stop d =>
    obtain ⟨stop', r', hfile'⟩ := hstopped stop d hitems
    cases hfile.symm.trans hfile'
  | ok u d =>
    obtain ⟨r₁, hr₁, hfile'⟩ := hread d hitems
    have hend : SameResult Eq _ _ _ _ := Reading.agree_finish r₁ d hr₁
    rw [hfile'.symm.trans hfile] at hend
    generalize hy : Reading.finish d = y at hend
    cases hend with
    | ok h => exact ⟨d, _, rfl, hy, by rw [h.formula, h.format], h.log⟩

/-- A text is read without a complaint if nothing is wrong with its items. -/
theorem parse_of_items {is : List Item} {d d' : Reader Unit} (hending : source.ending = .endOfInput)
    (his : ItemsAt format.context source.content is) (hitems : Reading.items is (.atStart format) = .ok () d)
    (hfinish : Reading.finish d = .ok () d') :
    parse source format #[] = .ok { d'.formula with format := d'.format } d'.log := by
  have hstart : Readers (Leaves source.content) ({ stream := ⟨source.content, {}⟩, format } : Reader PlainStream)
      (.atStart format) := ⟨rfl, rfl, rfl, rfl⟩
  have his' : ItemsAt (Reader.atStart format).context source.content is := his
  obtain ⟨r, hr, hfile⟩ := (Reading.file_items his' hstart (Nat.lt_succ_of_le his.length_le)).1 d hitems
  have hend : SameResult Eq _ _ _ _ := Reading.agree_finish r d hr
  have hread : Reading.file (ByteStream.unread (⟨source.content, {}⟩ : PlainStream) + 1)
      ({ stream := ⟨source.content, {}⟩, format } : Reader PlainStream) = Reading.finish r := hfile
  rw [hfinish] at hend
  rw [parse_eq_readFrom hending, readFrom, hread]
  generalize Reading.finish r = x at hend
  cases hend with
  | ok h =>
    dsimp only
    rw [h.formula, h.format, h.log]

end Formula
end WeightedCnf
