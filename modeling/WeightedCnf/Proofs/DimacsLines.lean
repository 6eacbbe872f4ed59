import Mathlib.Data.List.Basic
import WeightedCnf.Count
import WeightedCnf.Proofs.Outcomes
import WeightedCnf.Proofs.Utf8
import WeightedCnf.Proofs.Valuation
import WeightedCnf.Proofs.Words

/-! What the lines of a written formula mean to the reader of the DIMACS format. -/
namespace WeightedCnf
open Text (IsWord)
open Text.Utf8 (encode encode_append encode_cons)

namespace Dimacs

/-- Whether an integer under way is negative, and its magnitude so far. -/
def Number.parts : Number → Bool × Nat
  | .none => (false, 0)
  | .sign => (true, 0)
  | .digits negated magnitude => (negated, magnitude)

namespace Scanner

abbrev scan (s : Scanner) (text : List Char) : Except DimacsError Scanner :=
  (encode text).foldlM feed s

theorem scan_append (s : Scanner) (cs ds : List Char) :
    s.scan (cs ++ ds) = s.scan cs >>= fun s' => s'.scan ds := by
  rw [scan, encode_append, List.foldlM_append]

private theorem scan_cons {c : Char} (h : c.toNat < 128) (s : Scanner) (cs : List Char) :
    s.scan (c :: cs) = s.feed (UInt8.ofNat c.toNat) >>= fun s' => s'.scan cs := by
  rw [scan, encode_cons, Text.Utf8.utf8EncodeChar_of_ascii h]
  rfl

/-- Neither a newline nor a carriage return, which end lines of comments and headers. -/
def IsInline (text : List Char) : Prop := '\n' ∉ text ∧ '\r' ∉ text

@[simp] theorem isInline_nil : IsInline [] := by
  simp [IsInline]

@[simp] theorem isInline_cons {c : Char} {cs : List Char} :
    IsInline (c :: cs) ↔ (c ≠ '\n' ∧ c ≠ '\r') ∧ IsInline cs := by
  simp only [IsInline, List.mem_cons, not_or, ne_comm, ne_eq]
  exact and_and_and_comm

@[simp] theorem isInline_append {cs ds : List Char} : IsInline (cs ++ ds) ↔ IsInline cs ∧ IsInline ds := by
  simp only [IsInline, List.mem_append, not_or]
  exact and_and_and_comm

@[simp] theorem isInline_digits (n : Nat) : IsInline (Text.Decimal.digits n) := by
  constructor <;> intro hmem
  · exact absurd (Text.Decimal.isDigit_of_mem_digits hmem) (by decide)
  · exact absurd (Text.Decimal.isDigit_of_mem_digits hmem) (by decide)

@[simp] theorem isInline_ofInt (n : Int) : IsInline (Text.Decimal.ofInt n) := by
  cases n <;> simp [Text.Decimal.ofInt]

@[simp] theorem isInline_unwords {ws : List (List Char)} :
    IsInline (unwords ws) ↔ ∀ w ∈ ws, IsInline w := by
  induction ws with
  | nil => simp [unwords]
  | cons w ws ih =>
    cases ws with
    | nil => simp [unwords_singleton]
    | cons v vs => simp [unwords_cons_cons, ih]

private theorem not_lineEnd {text : List Char} (h : IsInline text) {b : UInt8} (hb : b ∈ encode text) :
    b ≠ 10 ∧ b ≠ 13 := by
  constructor
  · rintro rfl
    obtain ⟨c, hc, hn⟩ := (Text.Utf8.mem_encode (by decide)).mp hb
    have he : c = '\n' := Char.toNat_inj.mp hn
    exact h.1 (he ▸ hc)
  · rintro rfl
    obtain ⟨c, hc, hn⟩ := (Text.Utf8.mem_encode (by decide)).mp hb
    have he : c = '\r' := Char.toNat_inj.mp hn
    exact h.2 (he ▸ hc)

private theorem feed_comment {s : Scanner} (hm : s.mode = .comment) {b : UInt8} (hb : b ≠ 10 ∧ b ≠ 13) :
    s.feed b = .ok s := by
  have hn : b ≠ Text.newline := hb.1
  have hr : ¬ (b = '\n'.toUInt8 ∨ b = '\r'.toUInt8) := fun h => h.elim hb.1 hb.2
  simp only [feed, hn, hm, hr, if_false]

private theorem foldlM_comment {s : Scanner} (hm : s.mode = .comment) {bytes : List UInt8}
    (h : ∀ b ∈ bytes, b ≠ 10 ∧ b ≠ 13) : bytes.foldlM feed s = .ok s := by
  induction bytes with
  | nil => rfl
  | cons b bs ih =>
    rw [List.foldlM_cons, feed_comment hm (h b List.mem_cons_self)]
    exact ih fun c hc => h c (List.mem_cons_of_mem b hc)

/-- A comment line leaves no trace but the number of lines. -/
theorem scan_comment {s : Scanner} (hm : s.mode = .clauses true .none) {text : List Char}
    (h : IsInline text) :
    s.scan ('c' :: text ++ ['\n']) = .ok { s with line := s.line + 1 } := by
  obtain ⟨line, mode, header, literals, clauses⟩ := s
  cases hm
  have hc : feed ⟨line, .clauses true .none, header, literals, clauses⟩ (UInt8.ofNat 'c'.toNat) =
      .ok ⟨line, .comment, header, literals, clauses⟩ := rfl
  rw [List.cons_append, scan_cons (by decide), hc]
  change scan ⟨line, .comment, header, literals, clauses⟩ (text ++ ['\n']) = _
  rw [scan_append, scan, foldlM_comment rfl fun b hb => not_lineEnd h hb]
  rfl

private theorem feed_header {s : Scanner} {read : List UInt8} (hm : s.mode = .header read) {b : UInt8}
    (hb : b ≠ 10 ∧ b ≠ 13) : s.feed b = .ok { s with mode := .header (b :: read) } := by
  have hn : b ≠ Text.newline := hb.1
  have hr : ¬ (b = '\n'.toUInt8 ∨ b = '\r'.toUInt8) := fun h => h.elim hb.1 hb.2
  simp only [feed, hn, hm, hr, if_false]

private theorem foldlM_header {s : Scanner} {read : List UInt8} (hm : s.mode = .header read)
    {bytes : List UInt8} (h : ∀ b ∈ bytes, b ≠ 10 ∧ b ≠ 13) :
    bytes.foldlM feed s = .ok { s with mode := .header (bytes.reverse ++ read) } := by
  induction bytes generalizing s read with
  | nil => rw [List.reverse_nil, List.nil_append, ← hm]; rfl
  | cons b bs ih =>
    rw [List.foldlM_cons, feed_header hm (h b List.mem_cons_self)]
    refine (ih (show _ = Mode.header (b :: read) from rfl) fun c hc => h c (List.mem_cons_of_mem b hc)).trans ?_
    rw [List.reverse_cons, List.append_assoc, List.singleton_append]

/-- The first line is the header, if it starts with its letter. -/
theorem scan_header {text : List Char} (h : IsInline text) :
    scan {} ('p' :: text ++ ['\n']) = do
      let header ← Header.read 2 ('p' :: text)
      return { line := 2, header := some header } := by
  have hp : feed {} (UInt8.ofNat 'p'.toNat) = .ok { mode := .header [112] } := rfl
  rw [List.cons_append, scan_cons (by decide), hp]
  change scan { mode := .header [112] } (text ++ ['\n']) = _
  rw [scan_append, scan, foldlM_header (s := { mode := .header [112] }) rfl fun b hb => not_lineEnd h hb]
  have hbytes : ((encode text).reverse ++ [112]).reverse = encode ('p' :: text) := by
    rw [List.reverse_append, List.reverse_reverse]
    rfl
  change ((do
    let header ← Header.read 2 (Text.Utf8.decode ((encode text).reverse ++ [112]).reverse)
    pure { line := 2, header := some header }) >>= pure : Except DimacsError Scanner) = _
  rw [hbytes, Text.Utf8.decode_encode, bind_pure]

/-- The line of the next byte, after this one. -/
def lineAfter (s : Scanner) (b : UInt8) : Nat :=
  if b = Text.newline then s.line + 1 else s.line

theorem feed_clauses {s : Scanner} {startOfLine : Bool} {number : Number}
    (hm : s.mode = .clauses startOfLine number) (b : UInt8) :
    s.feed b = clauseByte { s with line := s.lineAfter b } startOfLine number b := by
  obtain ⟨line, mode, header, literals, clauses⟩ := s
  cases hm
  unfold feed lineAfter
  split <;> rfl

private theorem feed_digit {s : Scanner} {startOfLine : Bool} {number : Number}
    (hm : s.mode = .clauses startOfLine number) {c : Char} (hc : Text.Decimal.isDigit c = true) :
    s.feed (UInt8.ofNat c.toNat) = s.digit number.parts.1 number.parts.2 (Text.Decimal.digitValue c) := by
  obtain ⟨hlow, hhigh⟩ := Text.Decimal.isDigit_iff.mp hc
  have hb : (UInt8.ofNat c.toNat).toNat = c.toNat := by rw [UInt8.toNat_ofNat']; omega
  have hne : UInt8.ofNat c.toNat ≠ Text.newline := by
    rw [ne_eq, ← UInt8.toNat_inj, hb]
    exact fun h => absurd (h ▸ hlow) (by decide)
  have hdigit : '0'.toUInt8 ≤ UInt8.ofNat c.toNat ∧ UInt8.ofNat c.toNat ≤ '9'.toUInt8 := by
    rw [UInt8.le_iff_toNat_le, UInt8.le_iff_toNat_le, hb]
    exact ⟨hlow, hhigh⟩
  rw [feed_clauses hm, lineAfter, if_neg hne, clauseByte, if_pos hdigit, hb]
  cases number <;> rfl

private theorem le_foldl_digits (cs : List Char) (m : Nat) :
    m ≤ cs.foldl (fun n c => 10 * n + Text.Decimal.digitValue c) m := by
  induction cs generalizing m with
  | nil => exact le_rfl
  | cons c cs ih => exact le_trans (by dsimp only; omega) (ih _)

private theorem scan_digits {s : Scanner} {startOfLine : Bool} {number : Number}
    (hm : s.mode = .clauses startOfLine number) {cs : List Char} (hne : cs ≠ [])
    (hd : ∀ c ∈ cs, Text.Decimal.isDigit c = true) {n : Nat} (hn : n < Variable.limit + 1)
    (hv : cs.foldl (fun n c => 10 * n + Text.Decimal.digitValue c) number.parts.2 = n) :
    s.scan cs = .ok { s with mode := .clauses false (.digits number.parts.1 ⟨n, hn⟩) } := by
  induction cs generalizing s startOfLine number with
  | nil => exact absurd rfl hne
  | cons c cs ih =>
    have hc := hd c List.mem_cons_self
    have hlt : 10 * number.parts.2 + Text.Decimal.digitValue c < Variable.limit + 1 :=
      lt_of_le_of_lt (hv ▸ le_foldl_digits cs _) hn
    rw [scan_cons (by have := Text.Decimal.isDigit_iff.mp hc; omega), feed_digit hm hc, digit, dif_pos hlt]
    cases cs with
    | nil => subst hv; rfl
    | cons d ds =>
      exact @ih _ _ (.digits number.parts.1 ⟨_, hlt⟩) rfl (List.cons_ne_nil d ds)
        (fun e he => hd e (List.mem_cons_of_mem c he)) hv

private theorem scan_number {s : Scanner} {startOfLine : Bool} {number : Number}
    (hm : s.mode = .clauses startOfLine number) (hnew : number.parts.2 = 0) {n : Nat}
    (hn : n < Variable.limit + 1) :
    s.scan (Text.Decimal.digits n) = .ok { s with mode := .clauses false (.digits number.parts.1 ⟨n, hn⟩) } := by
  refine scan_digits hm Text.Decimal.digits_ne_nil (fun _ hc => Text.Decimal.isDigit_of_mem_digits hc) hn ?_
  rw [hnew]
  exact Text.Decimal.value_digits n

private theorem feed_separator {s : Scanner} {startOfLine : Bool} {number : Number}
    (hm : s.mode = .clauses startOfLine number) (hs : number ≠ .sign) :
    s.feed 32 = .ok { s.endNumber number with mode := .clauses false .none } := by
  have hsep : (32 : UInt8) = ' '.toUInt8 ∨ (32 : UInt8) = '\n'.toUInt8 ∨ (32 : UInt8) = '\r'.toUInt8 :=
    .inl rfl
  rw [feed_clauses hm, lineAfter, if_neg (by decide), clauseByte, if_neg (by decide),
    if_neg (fun h => absurd h.1 (by decide)), if_pos ⟨hsep, hs⟩]
  rfl

private theorem feed_newline {s : Scanner} {startOfLine : Bool} {number : Number}
    (hm : s.mode = .clauses startOfLine number) (hs : number ≠ .sign) :
    s.feed 10 = .ok { endNumber { s with line := s.line + 1 } number with mode := .clauses true .none } := by
  have hsep : (10 : UInt8) = ' '.toUInt8 ∨ (10 : UInt8) = '\n'.toUInt8 ∨ (10 : UInt8) = '\r'.toUInt8 :=
    .inr (.inl rfl)
  rw [feed_clauses hm, lineAfter, if_pos (show (10 : UInt8) = Text.newline from rfl), clauseByte, if_neg (by decide),
    if_neg (fun h => absurd h.1 (by decide)), if_pos ⟨hsep, hs⟩]
  rfl

private theorem scan_literal {s : Scanner} {startOfLine : Bool} (hm : s.mode = .clauses startOfLine .none)
    (l : Literal) :
    s.scan (l.text ++ [' ']) = .ok { s with
      mode := .clauses false .none
      literals := l :: s.literals } := by
  obtain ⟨line, mode, header, literals, clauses⟩ := s
  cases hm
  obtain ⟨⟨index, hi⟩, positive⟩ := l
  have hn : index + 1 < Variable.limit + 1 := Nat.succ_lt_succ hi
  have hspace : scan ⟨line, .clauses false (.digits (!positive) ⟨index + 1, hn⟩), header, literals, clauses⟩
      [' '] = .ok ⟨line, .clauses false .none, header, ⟨⟨index, hi⟩, positive⟩ :: literals, clauses⟩ := by
    rw [scan_cons (by decide)]
    change (feed _ 32 >>= fun s' => s'.scan []) = _
    rw [feed_separator rfl (by simp)]
    simp [endNumber]
    rfl
  cases positive with
  | true =>
    have ht : Literal.text ⟨⟨index, hi⟩, true⟩ = Text.Decimal.digits (index + 1) := rfl
    rw [ht, scan_append, scan_number rfl rfl hn]
    exact hspace
  | false =>
    have ht : Literal.text ⟨⟨index, hi⟩, false⟩ = '-' :: Text.Decimal.digits (index + 1) := rfl
    have hminus : feed ⟨line, .clauses startOfLine .none, header, literals, clauses⟩
        (UInt8.ofNat '-'.toNat) = .ok ⟨line, .clauses false .sign, header, literals, clauses⟩ := rfl
    rw [ht, List.cons_append, scan_cons (by decide), hminus]
    change scan ⟨line, .clauses false .sign, header, literals, clauses⟩ _ = _
    rw [scan_append, scan_number rfl rfl hn]
    exact hspace

private theorem scan_literals {s : Scanner} {startOfLine : Bool}
    (hm : s.mode = .clauses startOfLine .none) (clause : Clause) :
    ∃ startOfLine', s.scan (clause.flatMap (·.text ++ [' '])) = .ok { s with
      mode := .clauses startOfLine' .none
      literals := clause.reverse ++ s.literals } := by
  induction clause generalizing s startOfLine with
  | nil => exact ⟨startOfLine, by rw [← hm]; rfl⟩
  | cons l ls ih =>
    obtain ⟨startOfLine', h⟩ := ih (s := { s with
      mode := .clauses false .none
      literals := l :: s.literals }) rfl
    refine ⟨startOfLine', ?_⟩
    rw [List.flatMap_cons, scan_append, scan_literal hm, List.reverse_cons, List.append_assoc]
    exact h

private theorem scan_clause {s : Scanner} (hm : s.mode = .clauses true .none) (hl : s.literals = [])
    (clause : Clause) :
    s.scan ((Line.clause clause).text ++ ['\n']) = .ok { s with
      line := s.line + 1
      clauses := s.clauses.push clause } := by
  obtain ⟨line, mode, header, literals, clauses⟩ := s
  cases hm
  cases hl
  have hend : ∀ startOfLine, scan ⟨line, .clauses startOfLine .none, header, clause.reverse, clauses⟩
      ['0', '\n'] = .ok ⟨line + 1, .clauses true .none, header, [], clauses.push clause⟩ := by
    intro startOfLine
    have hzero : ['0', '\n'] = Text.Decimal.digits 0 ++ ['\n'] := rfl
    have hnewline : scan ⟨line, .clauses false (.digits false ⟨0, Nat.succ_pos _⟩), header, clause.reverse,
        clauses⟩ ['\n'] = .ok ⟨line + 1, .clauses true .none, header, [], clauses.push clause⟩ := by
      rw [scan_cons (by decide)]
      change (feed _ 10 >>= fun s' => s'.scan []) = _
      rw [feed_newline rfl (by simp)]
      simp [endNumber]
      rfl
    rw [hzero, scan_append, scan_number rfl rfl (Nat.succ_pos _)]
    exact hnewline
  by_cases hc : clause = []
  · subst hc
    have hspace : feed ⟨line, .clauses true .none, header, [], clauses⟩ (UInt8.ofNat ' '.toNat) =
        .ok ⟨line, .clauses false .none, header, [], clauses⟩ := rfl
    change scan _ (' ' :: ['0', '\n']) = _
    rw [scan_cons (by decide), hspace]
    exact hend false
  · have ht : (Line.clause clause).text ++ ['\n'] = clause.flatMap (·.text ++ [' ']) ++ ['0', '\n'] := by
      have hw := unwords_concat_space (mt List.map_eq_nil_iff.mp hc : clause.map Literal.text ≠ [])
      rw [List.flatMap_map] at hw
      rw [Line.text, zeroTerminated, ← hw]
      simp
    obtain ⟨startOfLine, h⟩ := scan_literals
      (s := ⟨line, .clauses true .none, header, [], clauses⟩) rfl clause
    rw [List.append_nil] at h
    rw [ht, scan_append, h]
    exact hend startOfLine

private theorem clauseByte_shift (line' : Nat) (header' : Header) {line : Nat} {mode : Mode}
    {header : Header} {literals : Clause} {clauses : Array Clause} {startOfLine : Bool} {number : Number} {b : UInt8}
    {s : Scanner} (h : clauseByte ⟨line, mode, some header, literals, clauses⟩ startOfLine number b = .ok s) :
    s.header = some header ∧ (∀ read, s.mode ≠ .header read) ∧
      clauseByte ⟨line', mode, some header', literals, clauses⟩ startOfLine number b =
        .ok { s with line := line', header := some header' } := by
  have hdigit : ∀ negated magnitude value,
      digit ⟨line, mode, some header, literals, clauses⟩ negated magnitude value = .ok s →
      s.header = some header ∧ (∀ read, s.mode ≠ .header read) ∧
        digit ⟨line', mode, some header', literals, clauses⟩ negated magnitude value =
          .ok { s with line := line', header := some header' } := by
    intro negated magnitude value h
    unfold digit at h ⊢
    split at h
    · rename_i hlt
      cases h
      exact ⟨rfl, nofun, dif_pos hlt⟩
    · cases h
  unfold clauseByte at h ⊢
  split at h
  · rename_i hd
    rw [if_pos hd]
    cases number <;> exact hdigit _ _ _ h
  rename_i hd
  rw [if_neg hd]
  split at h
  · rename_i hd
    cases h
    exact ⟨rfl, nofun, if_pos hd⟩
  rename_i hd
  rw [if_neg hd]
  split at h
  · rename_i hd
    rw [if_pos hd]
    cases h
    refine ⟨?_, nofun, ?_⟩ <;> rcases number with _ | _ | ⟨_, _ | _, _⟩ <;> rfl
  rename_i hd
  rw [if_neg hd]
  split at h
  · rename_i hd
    cases h
    exact ⟨rfl, nofun, if_pos hd⟩
  rename_i hd
  rw [if_neg hd]
  split at h
  · rename_i hd
    exact absurd hd.2.2 (by simp)
  · cases h

/-- The bytes of the body mean the same whatever header and however many lines came before. -/
private theorem feed_shift (line' : Nat) (header' : Header) {line : Nat} {mode : Mode} {header : Header}
    {literals : Clause} {clauses : Array Clause} {b : UInt8} {s : Scanner} (hm : ∀ read, mode ≠ .header read)
    (h : feed ⟨line, mode, some header, literals, clauses⟩ b = .ok s) :
    s.header = some header ∧ (∀ read, s.mode ≠ .header read) ∧
      ∃ line'', feed ⟨line', mode, some header', literals, clauses⟩ b =
        .ok { s with line := line'', header := some header' } := by
  cases mode with
  | comment =>
    have hfeed : ∀ line header, feed ⟨line, .comment, some header, literals, clauses⟩ b =
        .ok ⟨lineAfter ⟨line, .comment, some header, literals, clauses⟩ b,
          if b = '\n'.toUInt8 ∨ b = '\r'.toUInt8 then .clauses true .none else .comment, some header,
          literals, clauses⟩ := by
      intro line header
      unfold feed lineAfter
      split <;> dsimp only <;> split <;> rfl
    rw [hfeed] at h
    cases h
    refine ⟨rfl, fun read => ?_, _, hfeed line' header'⟩
    dsimp only
    split <;> nofun
  | header read => exact absurd rfl (hm read)
  | clauses startOfLine number =>
    rw [feed_clauses rfl] at h
    obtain ⟨hheader, hmode, h'⟩ := clauseByte_shift
      (lineAfter ⟨line', .clauses startOfLine number, some header', literals, clauses⟩ b) header' h
    exact ⟨hheader, hmode, _, (feed_clauses rfl b).trans h'⟩

/-- Likewise for a whole text. -/
theorem scan_shift (line' : Nat) (header' : Header) {line : Nat} {mode : Mode} {header : Header}
    {literals : Clause} {clauses : Array Clause} {text : List Char} {s : Scanner} (hm : ∀ read, mode ≠ .header read)
    (h : scan ⟨line, mode, some header, literals, clauses⟩ text = .ok s) :
    s.header = some header ∧ ∃ line'', scan ⟨line', mode, some header', literals, clauses⟩ text =
      .ok { s with line := line'', header := some header' } := by
  unfold scan at h ⊢
  generalize encode text = bytes at h ⊢
  induction bytes generalizing line' line mode literals clauses with
  | nil =>
    cases h
    exact ⟨rfl, line', rfl⟩
  | cons b bs ih =>
    rw [List.foldlM_cons, bind_eq_ok] at h
    obtain ⟨s₁, hfeed, hrest⟩ := h
    obtain ⟨hheader, hmode, line₁, hfeed'⟩ := feed_shift line' header' hm hfeed
    obtain ⟨line₂, mode₁, header₁, literals₁, clauses₁⟩ := s₁
    cases hheader
    obtain ⟨hheader', line'', hrest'⟩ := ih line₁ hmode hrest
    refine ⟨hheader', line'', ?_⟩
    rw [List.foldlM_cons, hfeed']
    exact hrest'

private theorem mode_of_feed_newline {s s' : Scanner} (h : s.feed Text.newline = .ok s') :
    s'.mode = .clauses true .none := by
  obtain ⟨line, mode, header, literals, clauses⟩ := s
  cases mode with
  | comment =>
    cases h
    rfl
  | header read =>
    obtain ⟨_, -, hs⟩ := bind_eq_ok.mp h
    cases hs
    rfl
  | clauses startOfLine number =>
    by_cases hs : number = .sign
    · subst hs
      cases h
    · rw [show Text.newline = 10 from rfl, feed_newline rfl hs] at h
      cases h
      rfl

theorem mode_of_scan_unlines {s s' : Scanner} (hm : s.mode = .clauses true .none)
    {lines : List (List Char)} (h : s.scan (unlines lines) = .ok s') : s'.mode = .clauses true .none := by
  induction lines generalizing s with
  | nil =>
    cases h
    exact hm
  | cons l ls ih =>
    rw [unlines, List.flatMap_cons, scan_append, bind_eq_ok] at h
    obtain ⟨s₁, hl, hls⟩ := h
    rw [scan_append, bind_eq_ok] at hl
    obtain ⟨s₂, -, hn⟩ := hl
    rw [scan_cons (by decide), bind_eq_ok] at hn
    obtain ⟨s₃, hfeed, hs⟩ := hn
    cases hs
    exact ih (mode_of_feed_newline hfeed) hls

end Scanner

/-- The lines read as these clauses when they stand behind a header. -/
def BodyReads (lines : List (List Char)) (clauses : List Clause) : Prop :=
  ∃ s, Scanner.scan { header := some ⟨0, 0⟩ } (unlines lines) = .ok s ∧ s.literals = [] ∧
    s.clauses.toList = clauses

end Dimacs

def Line.clauses : Line → List Clause
  | .clause c => [c]
  | _ => []

/-- A line that a reduction adds: a clause, or a comment that stays on its line. -/
def Line.IsAdded : Line → Prop
  | .raw _ => False
  | .clause _ => True
  | .comment text => Dimacs.Scanner.IsInline text

namespace Dimacs.BodyReads
open Scanner
variable {lines : List (List Char)} {clauses : List Clause}

private theorem addLine (h : BodyReads lines clauses) {line : Line} (hline : line.IsAdded) :
    BodyReads (lines ++ [line.text]) (clauses ++ line.clauses) := by
  obtain ⟨s, hs, hl, rfl⟩ := h
  have hm := mode_of_scan_unlines rfl hs
  have hscan : ∀ s', s.scan (line.text ++ ['\n']) = .ok s' →
      Scanner.scan { header := some ⟨0, 0⟩ } (unlines (lines ++ [line.text])) = .ok s' := by
    intro s' hs'
    rw [unlines, List.flatMap_append, scan_append, ← unlines, hs, ok_bind]
    simpa using hs'
  cases line with
  | raw text => exact hline.elim
  | clause c => exact ⟨_, hscan _ (scan_clause hm hl c), hl, by simp [Line.clauses]⟩
  | comment text =>
    have hin : IsInline (' ' :: text) := isInline_cons.mpr ⟨by simp, hline⟩
    exact ⟨_, hscan _ (scan_comment hm hin), hl, by simp [Line.clauses]⟩

theorem addLines (h : BodyReads lines clauses) {added : List Line} (hadded : ∀ l ∈ added, l.IsAdded) :
    BodyReads (lines ++ added.map Line.text) (clauses ++ added.flatMap Line.clauses) := by
  induction added generalizing lines clauses with
  | nil => simpa using h
  | cons l ls ih =>
    have hl := h.addLine (hadded l List.mem_cons_self)
    have hls := ih hl fun k hk => hadded k (List.mem_cons_of_mem l hk)
    simpa using hls

/-- A comment in front of the others changes nothing. -/
theorem comment_cons {text : List Char} (htext : IsInline text) :
    BodyReads (('c' :: text) :: lines) clauses ↔ BodyReads lines clauses := by
  have hcons : Scanner.scan { header := some ⟨0, 0⟩ } (unlines (('c' :: text) :: lines)) =
      Scanner.scan { line := 2, header := some ⟨0, 0⟩ } (unlines lines) := by
    rw [unlines, List.flatMap_cons, scan_append, scan_comment rfl htext]
    rfl
  unfold BodyReads
  rw [hcons]
  constructor
  · rintro ⟨s, hs, hl, rfl⟩
    obtain ⟨-, line, hs'⟩ := scan_shift 1 ⟨0, 0⟩ (by simp) hs
    exact ⟨_, hs', hl, rfl⟩
  · rintro ⟨s, hs, hl, rfl⟩
    obtain ⟨-, line, hs'⟩ := scan_shift 2 ⟨0, 0⟩ (by simp) hs
    exact ⟨_, hs', hl, rfl⟩

theorem comments_append {front : List (List Char)}
    (hfront : ∀ text ∈ front, ∃ rest, text = 'c' :: rest ∧ IsInline rest) :
    BodyReads (front ++ lines) clauses ↔ BodyReads lines clauses := by
  induction front with
  | nil => exact Iff.rfl
  | cons text front ih =>
    obtain ⟨rest, rfl, hrest⟩ := hfront text List.mem_cons_self
    rw [List.cons_append, comment_cons hrest, ih fun t ht => hfront t (List.mem_cons_of_mem _ ht)]

end Dimacs.BodyReads

end WeightedCnf
