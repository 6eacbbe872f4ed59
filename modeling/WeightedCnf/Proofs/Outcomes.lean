import Mathlib.Data.List.Induction
import WeightedCnf.Event

/-! When computations that can fail give a result. -/
namespace WeightedCnf
variable {ε δ α β : Type}

theorem ok_bind (a : α) (f : α → Except ε β) : (Except.ok a >>= f) = f a := rfl

theorem bind_eq_ok {x : Except ε α} {f : α → Except ε β} {b : β} :
    x >>= f = .ok b ↔ ∃ a, x = .ok a ∧ f a = .ok b := by
  cases x with
  | ok a => exact ⟨fun h => ⟨a, rfl, h⟩, fun ⟨_, ha, h⟩ => by cases ha; exact h⟩
  | error e => exact ⟨(nomatch ·), fun ⟨_, ha, _⟩ => nomatch ha⟩

theorem bind_eq_error {x : Except ε α} {f : α → Except ε β} {e : ε} :
    x >>= f = .error e ↔ x = .error e ∨ ∃ a, x = .ok a ∧ f a = .error e := by
  cases x with
  | ok a =>
    refine ⟨fun h => .inr ⟨a, rfl, h⟩, ?_⟩
    rintro (h | ⟨_, ha, h⟩)
    · cases h
    · cases ha
      exact h
  | error e' =>
    refine ⟨fun h => .inl (congrArg Except.error (Except.error.inj h)), ?_⟩
    rintro (h | ⟨_, ha, _⟩)
    · exact congrArg Except.error (Except.error.inj h)
    · cases ha

theorem mapError_eq_ok {x : Except ε α} {f : ε → δ} {a : α} : x.mapError f = .ok a ↔ x = .ok a := by
  cases x with
  | ok b => exact ⟨fun h => by cases h; rfl, fun h => by cases h; rfl⟩
  | error e => exact ⟨(nomatch ·), (nomatch ·)⟩

theorem run_bind_of_ok {σ : Type} {x : EStateM ε σ α} {f : α → EStateM ε σ β} {a : α} {s s' : σ}
    (h : x s = .ok a s') : (x >>= f) s = f a s' := by
  change EStateM.bind x f s = _
  rw [EStateM.bind, h]

theorem run_bind_of_error {σ : Type} {x : EStateM ε σ α} {f : α → EStateM ε σ β} {e : ε} {s s' : σ}
    (h : x s = .error e s') : (x >>= f) s = .error e s' := by
  change EStateM.bind x f s = _
  rw [EStateM.bind, h]

theorem run_bind_congr {σ : Type} {x : EStateM ε σ α} {f g : α → EStateM ε σ β} {s : σ}
    (h : ∀ a s', x s = .ok a s' → f a s' = g a s') : (x >>= f) s = (x >>= g) s := by
  cases hx : x s with
  | ok a s' => rw [run_bind_of_ok hx, run_bind_of_ok hx, h a s' hx]
  | error e s' => rw [run_bind_of_error hx, run_bind_of_error hx]

theorem run_bind_eq_ok {σ : Type} {x : EStateM ε σ α} {f : α → EStateM ε σ β} {b : β} {s s' : σ} :
    (x >>= f) s = .ok b s' ↔ ∃ a s₁, x s = .ok a s₁ ∧ f a s₁ = .ok b s' := by
  constructor
  · intro h
    change EStateM.bind x f s = _ at h
    unfold EStateM.bind at h
    cases hx : x s with
    | ok a s₁ => exact ⟨a, s₁, rfl, by rwa [hx] at h⟩
    | error e s₁ =>
      rw [hx] at h
      cases h
  · rintro ⟨a, s₁, ha, hb⟩
    rw [run_bind_of_ok ha, hb]

/-- Whether a computation gives a result with this property. -/
def gives {σ : Type} (P : α → σ → Prop) [∀ a s, Decidable (P a s)] : EStateM.Result ε σ α → Bool
  | .ok a s => decide (P a s)
  | .error _ _ => false

theorem exists_of_gives {σ : Type} {P : α → σ → Prop} [∀ a s, Decidable (P a s)] {x : EStateM.Result ε σ α}
    (h : gives P x = true) : ∃ a s, x = .ok a s ∧ P a s := by
  cases x with
  | ok a s => exact ⟨a, s, rfl, of_decide_eq_true h⟩
  | error e s => cases h

def failsWith {σ : Type} [DecidableEq ε] (e : ε) : EStateM.Result ε σ α → Bool
  | .ok _ _ => false
  | .error e' _ => decide (e' = e)

theorem exists_of_failsWith {σ : Type} [DecidableEq ε] {e : ε} {x : EStateM.Result ε σ α}
    (h : failsWith e x = true) : ∃ s, x = .error e s := by
  cases x with
  | ok a s => cases h
  | error e' s => exact ⟨s, of_decide_eq_true h ▸ rfl⟩

namespace Logged
variable {x : Logged ε α} {f : α → Logged ε β} {a : α} {b : β} {log log' : Log}

theorem bind_eq_ok : (x >>= f) log = .ok b log' ↔
    ∃ a log₁, x log = .ok a log₁ ∧ f a log₁ = .ok b log' := run_bind_eq_ok

private theorem pure_eq_ok {c : α} : (pure a : Logged ε α) log = .ok c log' ↔ a = c ∧ log = log' := by
  change EStateM.Result.ok a log = _ ↔ _
  rw [EStateM.Result.ok.injEq]

theorem lift_eq_ok {x : Except ε α} : Logged.lift x log = .ok a log' ↔ x = .ok a ∧ log = log' := by
  cases x with
  | ok c => rw [lift, pure_eq_ok, Except.ok.injEq]
  | error e => exact ⟨(nomatch ·), fun ⟨h, _⟩ => nomatch h⟩

theorem mapError_eq_ok {g : ε → δ} : Logged.mapError g x log = .ok a log' ↔ x log = .ok a log' := by
  change EStateM.adaptExcept g x log = _ ↔ _
  unfold EStateM.adaptExcept
  cases x log with
  | ok c log₁ => simp
  | error e log₁ => simp

section Fold
variable {σ : Type} {step : σ → α → Logged ε σ} {xs : List α} {s s' : σ}

private theorem foldlM_concat_eq_ok {done : List α} : (done ++ [a]).foldlM step s log = .ok s' log' ↔
    ∃ s₁ log₁, done.foldlM step s log = .ok s₁ log₁ ∧ step s₁ a log₁ = .ok s' log' := by
  rw [List.foldlM_append, bind_eq_ok]
  simp only [List.foldlM_cons, List.foldlM_nil, bind_pure]

/-- What every step preserves holds at the end of a run. The first argument of the property is the list of
those that were dealt with. -/
theorem foldlM_induction (P : List α → σ → Log → Prop)
    (hstep : ∀ {done a s s' log log'}, done ++ [a] <+: xs → P done s log → step s a log = .ok s' log' →
      P (done ++ [a]) s' log')
    (hstart : P [] s log) (h : xs.foldlM step s log = .ok s' log') : P xs s' log' := by
  have hdone : ∀ done, done <+: xs → ∀ s' log', done.foldlM step s log = .ok s' log' → P done s' log' := by
    intro done
    induction done using List.reverseRecOn with
    | nil =>
      intro _ s' log' h
      obtain ⟨rfl, rfl⟩ := pure_eq_ok.mp h
      exact hstart
    | append_singleton done a ih =>
      intro hxs s' log' h
      obtain ⟨s₁, log₁, hrun, ha⟩ := foldlM_concat_eq_ok.mp h
      exact hstep hxs (ih ((List.prefix_append done [a]).trans hxs) s₁ log₁ hrun) ha
  exact hdone xs List.prefix_rfl s' log' h

/-- A run in which every step succeeds does so. -/
theorem exists_foldlM (P : List α → σ → Log → Prop)
    (hstep : ∀ {done a s log}, done ++ [a] <+: xs → P done s log →
      ∃ s' log', step s a log = .ok s' log' ∧ P (done ++ [a]) s' log')
    (hstart : P [] s log) : ∃ s' log', xs.foldlM step s log = .ok s' log' ∧ P xs s' log' := by
  have hdone : ∀ done, done <+: xs → ∃ s' log', done.foldlM step s log = .ok s' log' ∧ P done s' log' := by
    intro done
    induction done using List.reverseRecOn with
    | nil => exact fun _ => ⟨s, log, rfl, hstart⟩
    | append_singleton done a ih =>
      intro hxs
      obtain ⟨s₁, log₁, hrun, hs₁⟩ := ih ((List.prefix_append done [a]).trans hxs)
      obtain ⟨s', log', ha, hs'⟩ := hstep hxs hs₁
      exact ⟨s', log', foldlM_concat_eq_ok.mpr ⟨s₁, log₁, hrun, ha⟩, hs'⟩
  exact hdone xs List.prefix_rfl

end Fold

end Logged
end WeightedCnf
