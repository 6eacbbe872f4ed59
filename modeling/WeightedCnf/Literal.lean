import Std.Data.TreeMap
import WeightedCnf.Fault
import WeightedCnf.Text.Decimal
/-!
Propositional variables and literals. A variable is numbered from 1 in files and from 0 inside sets of
variables; a literal is written as the number of its variable, negated when the literal is.
-/

namespace WeightedCnf

abbrev Variable.limit : Nat := 0x10000000

/-- A propositional variable. -/
structure Variable where
  /-- Its place in a set of variables, from 0. -/
  index : Nat
  index_lt : index < Variable.limit
deriving DecidableEq, Repr

namespace Variable

def number (v : Variable) : Nat :=
  v.index + 1

def ofNumber? : Nat → Option Variable
  | 0 => none
  | index + 1 => if h : index < limit then some ⟨index, h⟩ else none

def ofNumber (number : Int) : Except Fault Variable :=
  match ofNumber? number.toNat with
  | some v => .ok v
  | none => .error (.noSuchVariable number)

def first (count : Nat) : Except Fault (List Variable) :=
  if h : count ≤ limit then
    .ok ((List.finRange count).map fun i => ⟨i.val, Nat.lt_of_lt_of_le i.isLt h⟩)
  else .error (.noSuchVariable (limit + 1))

end Variable

/-- A variable or its negation. -/
structure Literal where
  var : Variable
  /-- False for the negation. -/
  positive : Bool
deriving DecidableEq, Repr

def Variable.positive (v : Variable) : Literal := ⟨v, true⟩

def Variable.negative (v : Variable) : Literal := ⟨v, false⟩

namespace Literal

def negate (l : Literal) : Literal :=
  ⟨l.var, !l.positive⟩

instance : Neg Literal := ⟨negate⟩

def toInt (l : Literal) : Int :=
  if l.positive then l.var.number else -(l.var.number : Int)

def ofInt? (n : Int) : Option Literal :=
  (Variable.ofNumber? n.natAbs).map fun v => ⟨v, 0 < n⟩

def ofInt (n : Int) : Except Fault Literal :=
  match ofInt? n with
  | some l => .ok l
  | none => .error (.noSuchVariable n)

def text (l : Literal) : List Char :=
  Text.Decimal.ofInt l.toInt

/-- Orders literals by variable, the negation last. -/
def code (l : Literal) : Nat :=
  2 * l.var.index + if l.positive then 0 else 1

theorem code_injective {l k : Literal} (h : l.code = k.code) : l = k := by
  obtain ⟨⟨i, hi⟩, p⟩ := l
  obtain ⟨⟨j, hj⟩, q⟩ := k
  have hij : i = j := by
    cases p <;> cases q <;> simp [code] at h <;> omega
  subst hij
  cases p <;> cases q <;> simp [code] at h ⊢

instance : Ord Literal := ⟨compareOn code⟩

instance : Std.TransOrd Literal :=
  inferInstanceAs (Std.TransCmp (compareOn code))

instance : Std.LawfulEqOrd Literal where
  compare_self {l} := @Std.ReflCmp.compare_self _ (compareOn code) _ l
  eq_of_compare {l k} h :=
    code_injective (@Std.LawfulEqCmp.eq_of_compare _ compare _ l.code k.code h)

end Literal

end WeightedCnf
