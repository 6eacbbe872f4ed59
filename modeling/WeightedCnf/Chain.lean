import WeightedCnf.Literal
/-!
Chains: clauses over a list of literals with a prescribed number of models. The literals are read as the
binary digits of a number, the first one being the lowest, and the clauses hold exactly for the largest
numbers, as many as prescribed.
-/

namespace WeightedCnf

abbrev Clause := List Literal

namespace Chain

/-- Goes on with the binary digits of `count` above its lowest one: a digit one widens every clause by its
literal, a digit zero demands its literal. -/
def extend (clauses : List Clause) : List Literal → (count : Nat) → List Clause
  | [], _ => clauses
  | l :: ls, count =>
    if count % 2 = 1 then extend (clauses.map (· ++ [l])) ls (count / 2)
    else extend (clauses ++ [[l]]) ls (count / 2)

/-- Passes the zeros below the lowest digit one of `count`, whose literals are free, and demands the literal
of that digit. -/
def begin : List Literal → (count : Nat) → List Clause
  | [], _ => []
  | l :: ls, count =>
    if count % 2 = 1 then extend [[l]] ls (count / 2) else begin ls (count / 2)

/-- Clauses over `literals` with exactly `count` models. -/
def clauses (literals : List Literal) (count : Nat) : Except Fault (List Clause) :=
  if count = 0 then
    match literals with
    | [] => .error .unsatisfiableChain
    | l :: _ => .ok [[l], [-l]]
  else if count = 1 <<< literals.length then .ok []
  else if 1 <<< literals.length < count then .error (.tooManyModels count literals.length)
  else .ok (begin literals count)

end Chain

end WeightedCnf
