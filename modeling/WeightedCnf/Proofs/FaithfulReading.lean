import WeightedCnf.Proofs.ItemWeights

/-! A file with one weight line for each literal is read faithfully: its clauses and comments are kept as they are, its
support and its weights are those that its lines list, whatever the order of the lines. -/
namespace WeightedCnf
open Text (isAsciiBlank isBlankByte)
open Text.Utf8 (encode encode_append)
open Text.Decimal (digits)

/-- A line behind the header of a file in which each literal can have a weight line. -/
inductive FileLine where
  | clause (text : List Char)
  /-- What comes behind the letter of a comment. -/
  | comment (text : List Char)
  | support (vs : List Variable)
  | weight (l : Literal) (num denom : Nat)
deriving DecidableEq, Repr

namespace FileLine
variable {line : FileLine} {ls : List FileLine} {more : List Char}

def text : FileLine → List Char
  | clause text => text
  | comment text => 'c' :: text
  | support vs => "c ind ".toList ++ unwords (vs.map (digits ·.number) ++ [digits 0])
  | weight l num denom => "w ".toList ++ l.text ++ ' ' :: (digits num ++ '/' :: digits denom) ++ " 0".toList

def IsAllowed (variableCount : Nat) : FileLine → Prop
  | clause text => '\n' ∉ text ∧ ∃ c cs, text = c :: cs ∧ isAsciiBlank c = false ∧ c ≠ 'p' ∧ c ≠ 'w' ∧ c ≠ 'c'
  | comment text => '\n' ∉ text ∧ ¬ StartsSupport text
  | support vs => ∀ v ∈ vs, v.number ≤ variableCount
  | weight l num denom => l.var.number ≤ variableCount ∧ num < 2 ^ 63 ∧ denom < 2 ^ 63

instance (variableCount : Nat) (line : FileLine) : Decidable (line.IsAllowed variableCount) :=
  match line with
  | clause text => decidable_of_iff
      ('\n' ∉ text ∧ text.head?.any fun c => !isAsciiBlank c && c != 'p' && c != 'w' && c != 'c') (by
        cases text with
        | nil => simp [IsAllowed]
        | cons c cs => simp [IsAllowed, and_assoc])
  | comment text => inferInstanceAs (Decidable ('\n' ∉ text ∧
      ¬ (text.head?.any isAsciiBlank = true ∧ (Text.words text).head? = some "ind".toList)))
  | support vs => List.decidableBAll (fun v : Variable => v.number ≤ variableCount) vs
  | weight l num denom =>
    inferInstanceAs (Decidable (l.var.number ≤ variableCount ∧ num < 2 ^ 63 ∧ denom < 2 ^ 63))

def entry : FileLine → Entry
  | clause text => .kept text
  | comment text => .kept ('c' :: text)
  | support vs => .support vs
  | weight l num denom => .weight l (digits num ++ '/' :: digits denom)

/-- The text that is kept of the line, if any. -/
def kept? : FileLine → Option (List Char)
  | clause text => some text
  | comment text => some ('c' :: text)
  | support _ | weight _ _ _ => none

def supported : FileLine → List Variable
  | support vs => vs
  | clause _ | comment _ | weight _ _ _ => []

def weight? (l : Literal) : FileLine → Option Weight
  | weight k num denom => if k = l then some (.ofNats num denom) else none
  | clause _ | comment _ | support _ => none

private theorem isWord_fraction (num denom : Nat) : Text.IsWord (digits num ++ '/' :: digits denom) := by
  refine ⟨List.append_ne_nil_of_left_ne_nil Text.Decimal.digits_ne_nil _, fun c hc => ?_⟩
  rcases List.mem_append.mp hc with hc | hc
  · exact (Text.isWord_digits num).2 c hc
  · rcases List.mem_cons.mp hc with rfl | hc
    · decide
    · exact (Text.isWord_digits denom).2 c hc

private theorem clauseAt {variableCount : Nat} {text : List Char} (h : (clause text).IsAllowed variableCount)
    (hmore : EndsLine more) : EntryAt variableCount (encode (text ++ more)) (.kept text) (encode more) := by
  obtain ⟨hnewline, c, cs, rfl, hc, hp, hw, hcomment⟩ := h
  obtain ⟨b, bs, hencode, -, hstands⟩ := Text.Utf8.encode_cons_standsFor c (cs ++ more)
  have hkept : EntryAt variableCount (b :: (bs ++ encode (cs ++ more))) _ _ := .line (hstands.isBlankByte.trans hc)
    (fun he => hp ((hstands.eq_iff (by decide)).mp he)) (fun he => hw ((hstands.eq_iff (by decide)).mp he))
    fun he => hcomment ((hstands.eq_iff (by decide)).mp he)
  rw [← hencode, ← List.cons_append, Text.line_encode hnewline hmore,
    Text.lineEnd_encode hnewline hmore] at hkept
  exact hkept

private theorem supportAt {variableCount : Nat} {vs : List Variable} (h : (support vs).IsAllowed variableCount)
    (hmore : EndsLine more) :
    EntryAt variableCount (encode ((support vs).text ++ more)) (.support vs) (encode more) := by
  have hnewline : '\n' ∉ " ind ".toList ++ unwords (vs.map (digits ·.number) ++ [digits 0]) := by
    have hwords : ∀ w ∈ vs.map (digits ·.number) ++ [digits 0], Dimacs.Scanner.IsInline w := by
      intro w hw
      rcases List.mem_append.mp hw with hw | hw
      · obtain ⟨v, -, rfl⟩ := List.mem_map.mp hw
        exact Dimacs.Scanner.isInline_digits v.number
      · rw [List.mem_singleton.mp hw]
        exact Dimacs.Scanner.isInline_digits 0
    exact (Dimacs.Scanner.isInline_append.mpr ⟨by simp, Dimacs.Scanner.isInline_unwords.mpr hwords⟩).1
  have hline := Text.line_encode hnewline hmore
  have hlist := variablesAt_digits h (encode more)
  rw [← Text.lineEnd_encode hnewline hmore] at hlist
  change EntryAt variableCount ('c'.toUInt8 :: encode (" ind ".toList ++
    unwords (vs.map (digits ·.number) ++ [digits 0]) ++ more)) _ _
  rw [← Text.lineEnd_encode hnewline hmore]
  exact .support (by rw [hline]; rfl) (hline.symm ▸ words_supportLine vs) hlist

private theorem itemAt {c : Context} (hlists : c.lists = false) (h : line.IsAllowed c.variableCount)
    (hmore : EndsLine more) :
    ∃ rest, ItemAt c (encode (line.text ++ more)) (.entry line.entry) rest ∧ Text.nextLine rest = encode more.tail := by
  have hend : Text.nextLine (encode ([] ++ more)) = encode more.tail := Text.nextLine_encode List.not_mem_nil hmore
  cases line with
  | clause text => exact ⟨_, .entry (clauseAt h hmore), hend⟩
  | comment text =>
    obtain ⟨hnewline, hsupport⟩ := h
    have hline := Text.line_encode hnewline hmore
    have hrest : ItemAt c ('c'.toUInt8 :: encode (text ++ more)) (.entry (.kept ('c' :: text))) (encode more) := by
      rw [← Text.lineEnd_encode hnewline hmore]
      by_cases hweights : StartsWeights text
      · have hitem := ItemAt.comment hlists (hline.symm ▸ hweights)
        rwa [hline] at hitem
      · have hentry : EntryAt c.variableCount ('c'.toUInt8 :: encode (text ++ more)) _ _ :=
          .comment (hline.symm ▸ hsupport) (hline.symm ▸ hweights)
        rw [hline] at hentry
        exact .entry hentry
    exact ⟨_, hrest, hend⟩
  | support vs => exact ⟨_, .entry (supportAt h hmore), hend⟩
  | weight l num denom =>
    obtain ⟨hl, -, -⟩ := h
    have hentry : EntryAt c.variableCount (encode ("w ".toList ++ l.text ++ ' ' :: (digits num ++ '/' :: digits denom) ++
        (" 0".toList ++ more))) _ _ := entryAt_weight hl (isWord_fraction num denom) (by rintro _ ⟨⟩; rfl)
    rw [← List.append_assoc] at hentry
    exact ⟨_, .entry hentry, Text.nextLine_encode (by decide) hmore⟩

private theorem endsLine_lines (ls : List FileLine) {last : List Char} (hlast : last = [] ∨ last = ['\n']) :
    EndsLine (ls.flatMap (fun line => '\n' :: line.text) ++ last) := by
  cases ls with
  | nil =>
    rcases hlast with rfl | rfl
    · exact endsLine_nil
    · exact endsLine_newline
  | cons line ls => exact endsLine_newline

private theorem itemsAt {c : Context} (hlists : c.lists = false) (hls : ∀ line ∈ ls, line.IsAllowed c.variableCount)
    {last : List Char} (hlast : last = [] ∨ last = ['\n']) :
    ItemsAt c (encode (ls.flatMap (fun line => '\n' :: line.text) ++ last).tail) (ls.map fun line => .entry line.entry) := by
  induction ls with
  | nil =>
    rcases hlast with rfl | rfl
    · exact .nil (List.forall_mem_nil _)
    · exact .nil (List.forall_mem_nil _)
  | cons line ls ih =>
    obtain ⟨rest, hitem, hrest⟩ := itemAt hlists (hls line List.mem_cons_self) (endsLine_lines ls hlast)
    have hafter : c.after (.entry line.entry) = c := by
      cases line with
      | weight =>
        obtain ⟨variableCount, lists⟩ := c
        cases hlists
        rfl
      | _ => rfl
    have hitems := ih fun line' h => hls line' (List.mem_cons_of_mem line h)
    rw [← hrest] at hitems
    rw [List.flatMap_cons, List.append_assoc]
    have hall := ItemsAt.cons (List.forall_mem_nil _) hitem (hafter.symm ▸ hitems)
    exact hall

end FileLine

/-- Additions to a support come behind what is there, in order, and only those that are new count. -/
theorem Support.toList_foldl_insert_eq (vs : List Variable) (s : Support) :
    (vs.foldl insert s).toList = s.toList ++ (vs.filter fun v => !s.contains v).eraseDups := by
  induction vs generalizing s with
  | nil => exact (List.append_nil _).symm
  | cons v vs ih =>
    rw [List.foldl_cons, ih]
    by_cases hv : s.contains v = true
    · have hsame : s.insert v = s := dif_pos hv
      rw [hsame, List.filter_cons_of_neg (by rw [hv]; exact Bool.false_ne_true)]
    · have hfilter (u : Variable) : (!(s.insert v).contains u) = (!(u == v) && !s.contains u) := by
        have hiff : (s.insert v).contains u = true ↔ s.contains u = true ∨ u = v := by
          rw [contains_iff, contains_iff]
          exact mem_insert
        rw [← Bool.not_or, Bool.not_inj_iff, Bool.eq_iff_iff, hiff, Bool.or_eq_true, beq_iff_eq, or_comm]
      rw [toList_insert hv, List.append_assoc, List.singleton_append, List.filter_cons_of_pos (by simpa using hv),
        List.eraseDups_cons, List.filter_filter]
      simp only [hfilter]

namespace FileLine
variable {ls : List FileLine} {f : Formula}

def apply (f : Formula) : FileLine → Formula
  | clause text => f.addLine (.raw text)
  | comment text => f.addLine (.raw ('c' :: text))
  | support vs => vs.foldl Formula.addSupport f
  | weight l num denom => f.setWeight l (.ofNats num denom)

private theorem apply_eq (line : FileLine) (f : Formula) : line.apply f =
    { f with
      body := f.body ++ (line.kept?.map Line.raw).toArray
      support := line.supported.foldl Support.insert f.support
      weights := (line.apply f).weights } := by
  cases line with
  | clause text => simp [apply, kept?, supported, Formula.addLine]
  | comment text => simp [apply, kept?, supported, Formula.addLine]
  | support vs =>
    rw [apply, Formula.foldl_addSupport]
    simp [kept?, supported]
  | weight l num denom => simp [apply, kept?, supported, Formula.setWeight]

private theorem weights_apply (line : FileLine) (f : Formula) (l : Literal) :
    (line.apply f).weights[l]? = (f.weights[l]?).or (line.weight? l) := by
  cases line with
  | clause text => exact Option.or_none.symm
  | comment text => exact Option.or_none.symm
  | support vs =>
    rw [apply, Formula.foldl_addSupport]
    exact Option.or_none.symm
  | weight k num denom => exact Formula.getElem?_setWeight f k (.ofNats num denom) l

/-- Many lines keep their texts and supports in order, and change neither the counts nor the format. -/
private theorem foldl_apply (ls : List FileLine) (f : Formula) : ls.foldl (fun f line => line.apply f) f =
    { f with
      body := f.body ++ ((ls.filterMap kept?).map Line.raw).toArray
      support := (ls.flatMap supported).foldl Support.insert f.support
      weights := (ls.foldl (fun f line => line.apply f) f).weights } := by
  induction ls generalizing f with
  | nil => simp
  | cons line ls ih =>
    rw [List.foldl_cons, ih, apply_eq line f, List.flatMap_cons, List.foldl_append, List.filterMap_cons]
    cases line.kept? with
    | none => simp
    | some text => simp

private theorem weights_foldl_apply (ls : List FileLine) (f : Formula) (l : Literal) :
    (ls.foldl (fun f line => line.apply f) f).weights[l]? = (f.weights[l]?).or (ls.findSome? (·.weight? l)) := by
  induction ls generalizing f with
  | nil => exact Option.or_none.symm
  | cons line ls ih =>
    rw [List.foldl_cons, ih, weights_apply, Option.or_assoc, List.findSome?_cons]
    cases line.weight? l <;> rfl

end FileLine

namespace Reading
variable {σ : Type} {r : Reader σ}

/-- Where each literal can have a weight, a line does what it says and nothing else. -/
private theorem perform_line (hformat : r.format = .mc20) {line : FileLine}
    (h : line.IsAllowed r.formula.variableCount) :
    perform (.entry line.entry) r = .ok () { r with formula := line.apply r.formula } := by
  cases line with
  | clause text => rfl
  | comment text => rfl
  | support vs => rfl
  | weight l num denom =>
    obtain ⟨-, hnum, hdenom⟩ := h
    have hmeet : meetWeightLine r = .ok () r := by
      obtain ⟨stream, format, formula, log⟩ := r
      cases hformat
      rfl
    have hliteral : meetLiteral l r = .ok () r := by
      obtain ⟨stream, format, formula, log⟩ := r
      cases hformat
      unfold meetLiteral
      cases l.positive <;> rfl
    have htoken : digits num ++ '/' :: digits denom ≠ "-1".toList := fun he =>
      absurd (he ▸ List.mem_append_right _ List.mem_cons_self : '/' ∈ "-1".toList) (by decide)
    refine (run_bind_of_ok hmeet).trans ((run_bind_of_ok hliteral).trans ?_)
    rw [if_neg htoken, recordWeight, Weight.read_fraction hnum hdenom]
    rfl

private theorem items_lines {ls : List FileLine} (hformat : r.format = .mc20)
    (hls : ∀ line ∈ ls, line.IsAllowed r.formula.variableCount) :
    items (ls.map fun line => .entry line.entry) r =
      .ok () { r with formula := ls.foldl (fun f line => line.apply f) r.formula } := by
  induction ls generalizing r with
  | nil => rfl
  | cons line ls ih =>
    have hcount : (line.apply r.formula).variableCount = r.formula.variableCount := by
      rw [FileLine.apply_eq]
    rw [List.map_cons, items_cons, run_bind_of_ok (perform_line hformat (hls line List.mem_cons_self))]
    exact ih hformat fun line' h => hcount ▸ hls line' (List.mem_cons_of_mem line h)

end Reading

namespace Formula
variable {source : Source}

/-- A file with a header and any lines behind it, where each literal can have a weight, is read without a complaint and
as it says: clauses and comments are kept as they are and in order, the support is that of the support lines, without
repetitions, and the first weight line of a literal decides. -/
theorem parse_lines {variableCount clauseCount : Nat} (hvariables : variableCount < 2 ^ 63)
    (hclauses : clauseCount < 2 ^ 63) {ls : List FileLine} (hls : ∀ line ∈ ls, line.IsAllowed variableCount)
    {last : List Char} (hlast : last = [] ∨ last = ['\n']) (hending : source.ending = .endOfInput)
    (hcontent : source.content = encode ((ofCounts variableCount clauseCount).headerLine ++
      (ls.flatMap (fun line => '\n' :: line.text) ++ last))) :
    ∃ f, parse source .mc20 #[] = .ok f #[.headerRead variableCount clauseCount] ∧ f.format = .mc20 ∧
      f.variableCount = variableCount ∧ f.clauseCount = clauseCount ∧
      f.body.toList = (ls.filterMap (·.kept?)).map Line.raw ∧ f.support.toList = (ls.flatMap (·.supported)).eraseDups ∧
      ∀ l, f.weight l = (ls.findSome? (·.weight? l)).getD .one := by
  have hmore := FileLine.endsLine_lines ls hlast
  have hitems : ItemsAt WeightFormat.mc20.context source.content
      (.header variableCount clauseCount :: ls.map fun line => .entry line.entry) := by
    have hrest := FileLine.itemsAt (c := ⟨variableCount, false⟩) rfl hls hlast
    have hheader := headerAt_encode (f := ofCounts variableCount clauseCount) hvariables hclauses hmore
    have hnext : Text.nextLine (encode ([] ++ (ls.flatMap (fun line => '\n' :: line.text) ++ last))) = _ :=
      Text.nextLine_encode List.not_mem_nil hmore
    have hall := ItemsAt.cons (List.forall_mem_nil _) (.header hheader : ItemAt WeightFormat.mc20.context _ _ _)
      (hnext.symm ▸ hrest)
    rw [hcontent]
    exact hall
  have hrun : Reading.items (.header variableCount clauseCount :: ls.map fun line => .entry line.entry)
      (.atStart .mc20) = .ok ()
        { stream := ()
          format := .mc20
          formula := ls.foldl (fun f line => line.apply f) (ofCounts variableCount clauseCount)
          log := #[.headerRead variableCount clauseCount] } :=
    (run_bind_of_ok rfl).trans (Reading.items_lines (r := { Reader.atStart .mc20 with
      formula := ofCounts variableCount clauseCount, log := #[.headerRead variableCount clauseCount] }) rfl hls)
  have hfields := FileLine.foldl_apply ls (ofCounts variableCount clauseCount)
  refine ⟨_, parse_of_items hending hitems hrun rfl, rfl, congrArg Formula.variableCount hfields,
    congrArg Formula.clauseCount hfields, ?_, ?_, fun l => ?_⟩
  · refine (congrArg (·.body.toList) hfields).trans ?_
    simp [ofCounts]
  · refine (congrArg (·.support.toList) hfields).trans ((Support.toList_foldl_insert_eq _ .empty).trans ?_)
    have hnew (v : Variable) : (!Support.empty.contains v) = true := by
      simp [Support.empty, Support.contains]
    rw [List.filter_eq_self.mpr fun v _ => hnew v]
    rfl
  · have hweights := FileLine.weights_foldl_apply ls (ofCounts variableCount clauseCount) l
    have hempty : (ofCounts variableCount clauseCount).weights[l]? = none := Std.TreeMap.getElem?_emptyc
    exact congrArg (Option.getD · Weight.one) (hweights.trans (congrArg (Option.or · _) hempty))

def linesSource : Source :=
  { content := encode "p cnf 3 1\nw -2 1/3 0\nc weights\nc ind 3 1 3 0\n1 -2 0\nw -2 1/4 0\nc ind 2 1 0\n".toList }

theorem parse_lines_mixed : ∃ f, parse linesSource .mc20 #[] = .ok f #[.headerRead 3 1] ∧
    f.body.toList = [.raw "c weights".toList, .raw "1 -2 0".toList] ∧
    f.support.toList = [⟨2, by decide⟩, ⟨0, by decide⟩, ⟨1, by decide⟩] ∧
    f.weight (Variable.negative ⟨1, by decide⟩) = .ofNats 1 3 ∧ f.weight (Variable.positive ⟨1, by decide⟩) = .one := by
  have hread := @parse_lines linesSource 3 1 (by decide) (by decide)
    [.weight (Variable.negative ⟨1, by decide⟩) 1 3, .comment " weights".toList,
      .support [⟨2, by decide⟩, ⟨0, by decide⟩, ⟨2, by decide⟩], .clause "1 -2 0".toList,
      .weight (Variable.negative ⟨1, by decide⟩) 1 4, .support [⟨1, by decide⟩, ⟨0, by decide⟩]]
    (by decide) ['\n'] (.inr rfl) rfl (congrArg encode (by decide +kernel))
  obtain ⟨f, hparse, -, -, -, hbody, hsupport, hweight⟩ := hread
  exact ⟨f, hparse, hbody, hsupport, hweight _, hweight _⟩

end Formula
end WeightedCnf
