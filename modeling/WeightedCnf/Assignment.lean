import WeightedCnf.Cnf.Basic
import WeightedCnf.Formula.Support
import WeightedCnf.Text.Decimal
/-!
Assignments of truth values to the first variables, and projections onto some of them. Assignments are
enumerated as binary numbers, the first variable being the lowest digit.
-/

namespace WeightedCnf

/-- A choice among the first variables. -/
structure Projection where
  /-- The number of variables that can be chosen. -/
  size : Nat
  /-- Digit `i` is one when the variable of index `i` is chosen. -/
  marks : Nat
deriving DecidableEq, Repr

namespace Projection

def none (size : Nat) : Projection :=
  ⟨size, 0⟩

def all (size : Nat) : Projection :=
  ⟨size, 1 <<< size - 1⟩

def contains (p : Projection) (index : Nat) : Bool :=
  p.marks.testBit index

def insert (p : Projection) (v : Variable) : Except Fault Projection :=
  if v.index < p.size then .ok ⟨p.size, p.marks ||| 1 <<< v.index⟩
  else .error (.indexOutOfRange v.index p.size)

def ofList (size : Nat) (vs : List Variable) : Except Fault Projection :=
  vs.foldlM insert (none size)

end Projection

/-- Truth values of the first variables. -/
structure Assignment where
  /-- The value of each variable, from the first on. -/
  values : List Bool
deriving DecidableEq, Repr

namespace Assignment

instance : Ord Assignment := ⟨compareOn values⟩

instance : Std.TransOrd Assignment :=
  inferInstanceAs (Std.TransCmp (compareOn values))

instance : Std.LawfulEqOrd Assignment where
  compare_self {a} := @Std.ReflCmp.compare_self _ (compareOn values) _ a
  eq_of_compare {a b} h := by
    obtain ⟨x⟩ := a
    obtain ⟨y⟩ := b
    exact congrArg mk (@Std.LawfulEqCmp.eq_of_compare _ compare _ x y h)

def size (a : Assignment) : Nat :=
  a.values.length

/-- The assignment that makes every variable false. -/
def first (size : Nat) : Assignment :=
  ⟨List.replicate size false⟩

/-- The value of a variable, false for one beyond the last. -/
def var (a : Assignment) (v : Variable) : Bool :=
  a.values.getD v.index false

def literal (a : Assignment) (l : Literal) : Bool :=
  a.var l.var == l.positive

def set (a : Assignment) (v : Variable) (value : Bool) : Except Fault Assignment :=
  if v.index < a.size then .ok ⟨a.values.set v.index value⟩
  else .error (.indexOutOfRange v.index a.size)

/-- Adds one to a binary number, the lowest digit first, and tells whether the result fits. -/
def increment : List Bool → Bool × List Bool
  | [] => (false, [])
  | false :: digits => (true, true :: digits)
  | true :: digits =>
    let (fits, digits) := increment digits
    (fits, false :: digits)

/-- The assignment after this one, and whether there is one; after the last one comes the first. -/
def next (a : Assignment) : Bool × Assignment :=
  let (fits, values) := increment a.values
  (fits, ⟨values⟩)

def satisfiesClause (a : Assignment) (clause : Clause) : Bool :=
  clause.any a.literal

def satisfies (a : Assignment) (clauses : List Clause) : Bool :=
  clauses.all a.satisfiesClause

/-- Keeps the values at the places of the digits one of `marks` and makes the others false. -/
def keep : (values : List Bool) → (marks : Nat) → List Bool
  | [], _ => []
  | value :: values, marks => (value && marks % 2 == 1) :: keep values (marks / 2)

/-- Makes the variables that are not chosen false. -/
def restrict (a : Assignment) (p : Projection) : Assignment :=
  ⟨keep a.values p.marks⟩

def trueNumbers (a : Assignment) : List Nat :=
  (a.values.zipIdx 1).filterMap fun (value, number) => if value then some number else Option.none

def text (a : Assignment) : List Char :=
  '\x7b' :: [',', ' '].intercalate (a.trueNumbers.map Text.Decimal.digits) ++ ['\x7d']

/-- The number whose binary digits are the values. -/
def toNat (a : Assignment) : Nat :=
  a.values.foldr (fun value n => 2 * n + value.toNat) 0

end Assignment

end WeightedCnf
