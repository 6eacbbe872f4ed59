import WeightedCnf.Proofs.BufferedReading
import WeightedCnf.Proofs.PlainReading

/-! A buffer is not noticed. Whatever is asked of a stream, the answers and the positions are those that the list of
its bytes gives, however large the buffer is and however the source delivers the bytes. -/
namespace WeightedCnf
open Text (newline isBlankByte)

/-- What can be asked of a stream. -/
inductive Request where
  | peek
  | passPrefix (bytes : List UInt8)
  | skipBlanks
  | skipLine
  | restOfLine
  | token
  | integer
deriving DecidableEq, Repr

/-- What a stream answers. -/
inductive Answer where
  | next (byte : Option UInt8)
  | found (found : Bool)
  | done
  | text (text : List Char)
  | number (n : Int)
deriving DecidableEq, Repr

/-- The result or the error of a computation, and the state that it leaves in both cases. -/
def outcome {ε σ α : Type} : EStateM.Result ε σ α → Except ε α × σ
  | .ok a s => (.ok a, s)
  | .error e s => (.error e, s)

namespace Request

def ask {σ : Type} [ByteStream σ] : Request → EStateM StreamError σ Answer
  | peek => .next <$> ByteStream.peek
  | passPrefix bytes => .found <$> ByteStream.passPrefix bytes
  | skipBlanks => (fun _ => .done) <$> ByteStream.skipBlanks
  | skipLine => (fun _ => .done) <$> ByteStream.skipLine
  | restOfLine => .text <$> ByteStream.restOfLine
  | token => .text <$> ByteStream.token
  | integer => .number <$> ByteStream.integer

/-- Asks one thing after the other, and goes on after errors. With each answer comes the position behind it. -/
def askAll {σ : Type} [ByteStream σ] : List Request → σ → List (Except StreamError Answer × Position)
  | [], _ => []
  | request :: requests, s =>
    let (answer, s) := outcome (request.ask s)
    (answer, ByteStream.position s) :: askAll requests s

end Request

/-- The position behind all bytes that were passed: their newlines count the lines, and the bytes after the last one
the columns. -/
def Position.behind (passed : List UInt8) : Position where
  line := 1 + passed.count newline
  column := (passed.reverse.takeWhile (· != newline)).length

private theorem Position.behind_concat (passed : List UInt8) (b : UInt8) :
    behind (passed ++ [b]) = (behind passed).after b := by
  unfold behind after
  rw [List.count_append, List.count_singleton, List.reverse_append, List.reverse_singleton, List.singleton_append,
    List.takeWhile_cons]
  by_cases hb : b = newline
  · subst hb
    rw [if_pos rfl]
    rfl
  · have hbeq : (b == newline) = false := beq_eq_false_iff_ne.mpr hb
    have hbne : (b != newline) = true := bne_iff_ne.mpr hb
    rw [if_neg hb, hbeq, hbne]
    rfl

private theorem Position.past_behind (passed bytes : List UInt8) :
    (behind passed).past bytes = behind (passed ++ bytes) := by
  induction bytes generalizing passed with
  | nil => rw [List.append_nil]; rfl
  | cons b bytes ih =>
    rw [List.append_cons, ← ih, behind_concat]
    rfl

namespace Request
variable (passed left : List UInt8)

def blanks : List UInt8 := left.takeWhile isBlankByte

def word : List UInt8 := (left.dropWhile isBlankByte).takeWhile (!isBlankByte ·)

def line : List UInt8 := left.takeWhile (· != newline)

def nextText : Except StreamError (List Char) :=
  if (word left).isEmpty then .error (.missingToken (.behind (passed ++ blanks left)))
  else .ok (Text.Utf8.decode (word left))

/-- A token as an integer, when these bytes were passed with it. -/
def number (text : List Char) : Except StreamError Int :=
  match ByteStream.integer? text with
  | some n => .ok n
  | none =>
    let ⟨line, column⟩ := Position.behind passed
    .error (.notAnInteger ⟨line, column - Text.Utf8.size text⟩ text)

/-- The answer when some bytes were passed and others are left, and what it passes of these. -/
def answer : Request → Except StreamError Answer × List UInt8
  | peek => (.ok (.next left.head?), [])
  | passPrefix bytes => if bytes <+: left then (.ok (.found true), bytes) else (.ok (.found false), [])
  | skipBlanks => (.ok .done, blanks left)
  | skipLine => (.ok .done, line left ++ (left.dropWhile (· != newline)).take 1)
  | restOfLine => (.ok (.text (Text.Utf8.decode (line left))), line left)
  | token => (.text <$> nextText passed left, blanks left ++ word left)
  | integer =>
    (.number <$> (nextText passed left >>= number (passed ++ (blanks left ++ word left))),
      blanks left ++ word left)

def answers (passed left : List UInt8) : List Request → List (Except StreamError Answer × Position)
  | [] => []
  | request :: requests =>
    let (answer, bytes) := request.answer passed left
    (answer, .behind (passed ++ bytes)) :: answers (passed ++ bytes) (left.drop bytes.length) requests

private theorem drop_takeWhile (q : UInt8 → Bool) (bytes : List UInt8) :
    bytes.drop (bytes.takeWhile q).length = bytes.dropWhile q := by
  conv => enter [1, 2]; rw [← List.takeWhile_append_dropWhile (p := q) (l := bytes)]
  exact List.drop_left

private theorem outcome_map {ε σ α β : Type} (f : α → β) (x : EStateM ε σ α) (s : σ) :
    outcome ((f <$> x) s) = (f <$> (outcome (x s)).1, (outcome (x s)).2) := by
  change outcome (EStateM.map f x s) = _
  unfold EStateM.map
  cases x s <;> rfl

private theorem outcome_token : outcome (ByteStream.token (⟨left, .behind passed⟩ : PlainStream)) =
    (nextText passed left,
      ⟨left.drop (blanks left ++ word left).length, .behind (passed ++ (blanks left ++ word left))⟩) := by
  have hrest : (left.dropWhile isBlankByte).dropWhile (!isBlankByte ·) =
      left.drop (blanks left ++ word left).length := by
    rw [← drop_takeWhile, ← drop_takeWhile isBlankByte, List.drop_drop, List.length_append, drop_takeWhile]
    rfl
  rw [ByteStream.token_eq ⟨left, .behind passed⟩ (rfl : _ = blanks left) (rfl : _ = word left) hrest,
    Position.past_behind, Position.past_behind, nextText]
  split <;> rfl

private theorem outcome_integer : outcome (ByteStream.integer (⟨left, .behind passed⟩ : PlainStream)) =
    (nextText passed left >>= number (passed ++ (blanks left ++ word left)),
      ⟨left.drop (blanks left ++ word left).length, .behind (passed ++ (blanks left ++ word left))⟩) := by
  have htoken := outcome_token passed left
  change outcome (EStateM.bind ByteStream.token _ _) = _
  unfold EStateM.bind
  cases hrun : ByteStream.token (⟨left, .behind passed⟩ : PlainStream) with
  | error e s =>
    rw [hrun] at htoken
    obtain ⟨herror, hs⟩ := Prod.mk.inj htoken
    rw [← herror, ← hs]
    rfl
  | ok text s =>
    rw [hrun] at htoken
    obtain ⟨hok, hs⟩ := Prod.mk.inj htoken
    rw [← hok, hs]
    change outcome _ = (number _ text, _)
    unfold number
    dsimp only
    cases ByteStream.integer? text <;> rfl

private theorem outcome_ask (request : Request) : outcome (request.ask (⟨left, .behind passed⟩ : PlainStream)) =
    ((request.answer passed left).1, ⟨left.drop (request.answer passed left).2.length,
      .behind (passed ++ (request.answer passed left).2)⟩) := by
  cases request with
  | peek =>
    rw [answer, List.append_nil]
    rfl
  | passPrefix bytes =>
    rw [ask, outcome_map, answer]
    by_cases hprefix : bytes <+: left
    · obtain ⟨rest, rfl⟩ := hprefix
      have hpass := ByteStream.passPrefix_of_prefix (⟨bytes ++ rest, .behind passed⟩ : PlainStream) rfl
      change (_ <$> (outcome (PlainStream.passPrefix bytes _)).1, (outcome (PlainStream.passPrefix bytes _)).2) = _
      rw [hpass, if_pos (List.prefix_append _ _), List.drop_left, Position.past_behind]
      rfl
    · have hpass := ByteStream.passPrefix_of_not_prefix (⟨left, .behind passed⟩ : PlainStream) hprefix
      change (_ <$> (outcome (PlainStream.passPrefix bytes _)).1, (outcome (PlainStream.passPrefix bytes _)).2) = _
      rw [hpass, if_neg hprefix, List.append_nil]
      rfl
  | skipBlanks =>
    rw [ask, outcome_map, ByteStream.skipBlanks_eq, Position.past_behind, answer, blanks, drop_takeWhile]
    rfl
  | skipLine =>
    have htail : (left.dropWhile (· != newline)).drop ((left.dropWhile (· != newline)).take 1).length =
        (left.dropWhile (· != newline)).tail := by
      cases left.dropWhile (· != newline) <;> rfl
    rw [ask, outcome_map, ByteStream.skipLine_eq, Position.past_behind, Position.past_behind, answer,
      List.append_assoc, List.length_append, ← List.drop_drop, line, drop_takeWhile, htail]
    rfl
  | restOfLine =>
    rw [ask, outcome_map, ByteStream.restOfLine_eq, Position.past_behind, answer, line, drop_takeWhile]
    rfl
  | token => rw [ask, outcome_map, outcome_token, answer]
  | integer => rw [ask, outcome_map, outcome_integer, answer]

private theorem agree_ask {size : Nat} (hpos : 0 < size) (request : Request)
    (hfits : ∀ bytes, request = .passPrefix bytes → bytes.length ≤ size) :
    Agree Eq (Buffers size) (Buffers size) (Buffers size) (request.ask (σ := BufferedStream))
      (request.ask (σ := PlainStream)) := by
  have hpeeked {α : Type} {x : EStateM StreamError BufferedStream α} {y : EStateM StreamError PlainStream α}
      (h : Agree Eq (Buffers size) (Buffers size) (Peeked size) x y) :
      Agree Eq (Buffers size) (Buffers size) (Buffers size) x y :=
    h.mono (fun _ _ h => h) fun _ _ h => h.toBuffers
  have hmatching := BufferedStream.matching hpos
  cases request with
  | peek => exact (hpeeked hmatching.peek).map _
  | passPrefix bytes => exact (BufferedStream.agree_passPrefix (hfits bytes rfl)).map _
  | skipBlanks => exact (hpeeked (ByteStream.agree_skipBlanks hmatching)).map _
  | skipLine => exact (ByteStream.agree_skipLine hmatching hmatching.pass).map _
  | restOfLine => exact (hpeeked (ByteStream.agree_restOfLine hmatching)).map _
  | token => exact (hpeeked (ByteStream.agree_token hmatching)).map _
  | integer => exact (hpeeked (ByteStream.agree_integer hmatching)).map _

variable {passed left}

private theorem askAll_eq {size : Nat} (hpos : 0 < size) {requests : List Request}
    (hfits : ∀ bytes, .passPrefix bytes ∈ requests → bytes.length ≤ size) {b : BufferedStream}
    (h : Buffers size b ⟨left, .behind passed⟩) : askAll requests b = answers passed left requests := by
  induction requests generalizing b passed left with
  | nil => rfl
  | cons request requests ih =>
    -- what the plain stream says is known, and the buffered one says the same
    have hplain := outcome_ask passed left request
    have hask := agree_ask hpos request (fun bytes he => hfits bytes (he ▸ List.mem_cons_self)) b _ h
    have hnext : ∃ b', outcome (request.ask b) = ((request.answer passed left).1, b') ∧
        Buffers size b' ⟨left.drop (request.answer passed left).2.length,
          .behind (passed ++ (request.answer passed left).2)⟩ := by
      generalize request.ask b = r, request.ask (⟨left, .behind passed⟩ : PlainStream) = r' at hask hplain
      cases hask with
      | ok h =>
        obtain ⟨hanswer, rfl⟩ := Prod.mk.inj hplain
        exact ⟨_, congrArg (·, _) hanswer, h⟩
      | error he h =>
        subst he
        obtain ⟨hanswer, rfl⟩ := Prod.mk.inj hplain
        exact ⟨_, congrArg (·, _) hanswer, h⟩
    obtain ⟨b', houtcome, hb'⟩ := hnext
    have hposition : ByteStream.position b' = .behind (passed ++ (request.answer passed left).2) :=
      hb'.position.symm
    rw [askAll, houtcome, answers]
    dsimp only
    rw [hposition, ih (fun bytes hmem => hfits bytes (List.mem_cons_of_mem _ hmem)) hb']

end Request

/-- Whatever the size of the buffer, the reads of the source and the requests, a stream answers as the list of its
bytes does, and tells the positions as they are counted from the start. So a formula depends only on the bytes that
it is read from. -/
theorem BufferedStream.askAll_ofSource {size : Nat} (hpos : 0 < size) {source : Source}
    (hending : source.ending = .endOfInput) {requests : List Request}
    (hfits : ∀ bytes, .passPrefix bytes ∈ requests → bytes.length ≤ size) :
    (∃ b, ofSource size source = .ok b ∧ ByteStream.position b = .behind [] ∧
      Request.askAll requests b = Request.answers [] source.content requests) ∧
    ∀ other : Source, other.content = source.content → other.ending = .endOfInput →
      ∀ format log, Formula.parse other format log = Formula.parse source format log := by
  refine ⟨?_, fun other hcontent hother format log => ?_⟩
  · obtain ⟨b, hb, hbuffers⟩ := exists_ofSource hpos hending
    exact ⟨b, hb, hbuffers.position.symm, Request.askAll_eq hpos hfits hbuffers⟩
  · rw [Formula.parse_eq_readFrom hother, Formula.parse_eq_readFrom hending, hcontent]

def piecemealSource : Source where
  content := Text.Utf8.encode "12345 -67890\nabc def\n".toList
  turns := [.upTo 3, .interrupted, .upTo 2, .interrupted, .interrupted, .upTo 1, .upTo 4]

theorem BufferedStream.askAll_ofSource_piecemeal : ∃ b, ofSource 8 piecemealSource = .ok b ∧
    Request.askAll [.integer, .integer, .peek, .skipLine, .passPrefix (Text.Utf8.encode "abc d".toList), .restOfLine,
      .skipBlanks, .token] b =
    [(.ok (.number 12345), ⟨1, 5⟩), (.ok (.number (-67890)), ⟨1, 12⟩), (.ok (.next (some 10)), ⟨1, 12⟩),
      (.ok .done, ⟨2, 0⟩), (.ok (.found true), ⟨2, 5⟩), (.ok (.text "ef".toList), ⟨2, 7⟩), (.ok .done, ⟨3, 0⟩),
      (.error (.missingToken ⟨3, 0⟩), ⟨3, 0⟩)] := by
  have hfits (bytes : List UInt8) (h : Request.passPrefix bytes ∈ [.integer, .integer, .peek, .skipLine,
      .passPrefix (Text.Utf8.encode "abc d".toList), .restOfLine, .skipBlanks, .token]) : bytes.length ≤ 8 := by
    have hbytes : bytes = Text.Utf8.encode "abc d".toList := by simpa using h
    rw [hbytes]
    decide
  obtain ⟨⟨b, hb, -, hanswers⟩, -⟩ :=
    askAll_ofSource (by decide : 0 < 8) (rfl : piecemealSource.ending = .endOfInput) hfits
  exact ⟨b, hb, hanswers⟩

end WeightedCnf
