import WeightedCnf.Proofs.Outcomes

/-! Loops. The body of a loop gives a value to go on with or a result to stop with. A loop whose rounds count something
down comes to an end, and what unrolls it comes to the same end, if it has enough fuel. -/
namespace WeightedCnf
variable {ε σ α β : Type}

/-- A loop comes to this end after this many rounds. -/
inductive Loops (body : α → EStateM ε σ (α ⊕ β)) : (rounds : Nat) → α → σ → EStateM.Result ε σ β → Prop
  | stop {a : α} {b : β} {s s' : σ} (h : body a s = .ok (.inr b) s') : Loops body 1 a s (.ok b s')
  | error {a : α} {e : ε} {s s' : σ} (h : body a s = .error e s') : Loops body 1 a s (.error e s')
  | step {a a' : α} {s s' : σ} {rounds : Nat} {ending : EStateM.Result ε σ β} (h : body a s = .ok (.inl a') s')
    (hrest : Loops body rounds a' s' ending) : Loops body (rounds + 1) a s ending

/-- A loop comes to this end after at most this many rounds. -/
def LoopsWithin (body : α → EStateM ε σ (α ⊕ β)) (most : Nat) (a : α) (s : σ) (ending : EStateM.Result ε σ β) : Prop :=
  ∃ rounds ≤ most, Loops body rounds a s ending

/-- Each round after which a loop goes on counts down. -/
def Descends (body : α → EStateM ε σ (α ⊕ β)) (measure : α → σ → Nat) : Prop :=
  ∀ a s a' s', body a s = .ok (.inl a') s' → measure a' s' < measure a s

variable {body : α → EStateM ε σ (α ⊕ β)} {measure : α → σ → Nat} {a : α} {s : σ}

/-- With enough fuel, what unrolls a loop that counts down does what the loop does. -/
theorem Descends.loopsWithin {f : (fuel : Nat) → α → EStateM ε σ β} {fuel : Nat} (h : Descends body measure)
    (hunroll : ∀ fuel a, f (fuel + 1) a = body a >>= Sum.elim (f fuel) pure) (hfuel : measure a s < fuel) :
    LoopsWithin body (measure a s + 1) a s (f fuel a s) := by
  induction fuel generalizing a s with
  | zero => exact absurd hfuel (Nat.not_lt_zero _)
  | succ fuel ih =>
    rw [hunroll]
    cases hbody : body a s with
    | error e s' =>
      rw [run_bind_of_error hbody]
      exact ⟨1, Nat.le_add_left 1 _, .error hbody⟩
    | ok next s' =>
      rw [run_bind_of_ok hbody]
      cases next with
      | inr b => exact ⟨1, Nat.le_add_left 1 _, .stop hbody⟩
      | inl a' =>
        have hless := h a s a' s' hbody
        obtain ⟨rounds, hrounds, hloops⟩ := ih (a := a') (s := s') (by omega)
        exact ⟨rounds + 1, by omega, .step hbody hloops⟩

/-- What goes on as a loop that counts down, without fuel, does what the loop does. -/
theorem Descends.loopsWithin_fix {f : α → EStateM ε σ β} (h : Descends body measure)
    (hunroll : ∀ a, f a = body a >>= Sum.elim f pure) (a : α) (s : σ) :
    LoopsWithin body (measure a s + 1) a s (f a s) :=
  h.loopsWithin (f := fun _ => f) (fun _ => hunroll) (Nat.lt_succ_self _)

end WeightedCnf
