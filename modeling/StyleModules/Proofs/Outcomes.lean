import StyleModules.Text.Basic

/-!
Computations that may fail.

* A sequence of two steps goes on with what the first one gives (`bind_of_ok`), or ends with its
  failure (`bind_of_error`); if the sequence succeeds, both steps have done so (`bind_ok`).
* What a computation gives can be told from what is shown of it (`ok_of_toOption`,
  `exists_ok_of_map`), and so can its failure (`error_of_map`).
-/

namespace StyleModules

section Steps

variable {ε σ α β : Type} {x : EStateM ε σ α} {f : α → EStateM ε σ β} {s s' : σ}

theorem bind_of_ok {a : α} (h : x s = .ok a s') : (x >>= f) s = f a s' := by
  change EStateM.bind x f s = _
  rw [EStateM.bind, h]

theorem bind_of_error {e : ε} (h : x s = .error e s') : (x >>= f) s = .error e s' := by
  change EStateM.bind x f s = _
  rw [EStateM.bind, h]

theorem bind_ok {b : β} (h : (x >>= f) s = .ok b s') :
    ∃ a middle, x s = .ok a middle ∧ f a middle = .ok b s' := by
  cases hx : x s with
  | ok a middle =>
    rw [bind_of_ok hx] at h
    exact ⟨a, middle, rfl, h⟩
  | error e middle =>
    rw [bind_of_error hx] at h
    cases h

end Steps

section Results

variable {ε α β : Type} {x : Except ε α} {f : α → β}

theorem exists_ok_of_map {b : β} (h : x.toOption.map f = some b) : ∃ a, x = .ok a ∧ f a = b := by
  cases x with
  | error e => cases h
  | ok a => exact ⟨a, rfl, Option.some.inj h⟩

theorem ok_of_toOption {a : α} (h : x.toOption = some a) : x = .ok a := by
  cases x with
  | error e => cases h
  | ok b => exact congrArg Except.ok (Option.some.inj h)

theorem error_of_map {e : ε} (h : x.map f = .error e) : x = .error e := by
  cases x with
  | error e' => cases h; rfl
  | ok a => cases h

end Results

end StyleModules
