import Mathlib.Tactic.Common

set_option autoImplicit false

/-! # Computations that may fail

`Attempts E x P` is about one computation in `Except`: it returns as `P` says, or it fails with an
error that `E` allows. An error that `E` does not allow does not happen.
-/

variable {ε ε' α β : Type}

/-- `x` returns as `P` says or fails as `E` says. -/
def Attempts (E : ε → Prop) (x : Except ε α) (P : α → Prop) : Prop :=
  match x with
  | .ok a => P a
  | .error e => E e

namespace Attempts

variable {E : ε → Prop} {P Q : α → Prop} {R : β → Prop} {x : Except ε α}

theorem ok {a : α} (h : P a) : Attempts E (.ok a) P := h

theorem pure {a : α} (h : P a) : Attempts E (pure a) P := h

theorem error {e : ε} (h : E e) : Attempts E (.error e : Except ε α) P := h

theorem of_ok {a : α} (h : Attempts E x P) (hx : x = .ok a) : P a := by
  subst hx
  exact h

theorem of_error {e : ε} (h : Attempts E x P) (hx : x = .error e) : E e := by
  subst hx
  exact h

theorem bind {k : α → Except ε β} (h : Attempts E x P) (hk : ∀ a, P a → Attempts E (k a) R) :
    Attempts E (x >>= k) R := by
  cases x with
  | ok a => exact hk a h
  | error e => exact h

theorem mono (h : Attempts E x P) (hPQ : ∀ a, P a → Q a) : Attempts E x Q := by
  cases x with
  | ok a => exact hPQ a h
  | error e => exact h

/-- A computation whose errors are translated. -/
theorem mapError {y : Except ε' α} {f : ε' → ε} (hf : ∀ e, E (f e))
    (h : ∀ a, y = .ok a → P a) : Attempts E (y.mapError f) P := by
  cases y with
  | ok a => exact h a rfl
  | error e => exact hf e

theorem ite {c : Prop} [Decidable c] {y : Except ε α} (hx : c → Attempts E x P)
    (hy : ¬ c → Attempts E y P) : Attempts E (if c then x else y) P := by
  split
  · exact hx ‹_›
  · exact hy ‹_›

/-- A loop that reads from a list, one result for each element. -/
theorem mapM {f : β → Except ε α} {l : List β} {S : β → α → Prop}
    (h : ∀ b ∈ l, Attempts E (f b) (S b)) :
    Attempts E (l.mapM f) fun as => List.Forall₂ S l as := by
  induction l with
  | nil =>
      rw [List.mapM_nil]
      exact .pure .nil
  | cons b l ih =>
      obtain ⟨hb, hl⟩ := List.forall_mem_cons.mp h
      rw [List.mapM_cons]
      exact .bind hb fun a ha => .bind (ih hl) fun as has => .pure (.cons ha has)

/-- A loop over a list with an invariant about what has been done. -/
theorem foldlM {f : α → β → Except ε α} {l : List β} {a : α} (J : List β → α → Prop)
    (ha : J [] a) (h : ∀ done b rest, l = done ++ b :: rest → ∀ a, J done a →
      Attempts E (f a b) (J (done ++ [b]))) : Attempts E (l.foldlM f a) (J l) := by
  -- the part of the list that is done grows at the front
  suffices hgen : ∀ (rest done : List β) (a : α), l = done ++ rest → J done a →
      Attempts E (rest.foldlM f a) (J l) from hgen l [] a rfl ha
  intro rest
  induction rest with
  | nil =>
      intro done a hl hJ
      rw [List.append_nil] at hl
      exact .pure (hl ▸ hJ)
  | cons b rest ih =>
      intro done a hl hJ
      rw [List.foldlM_cons]
      refine .bind (h done b rest hl a hJ) fun a' ha' => ih (done ++ [b]) a' ?_ ha'
      rw [hl, List.append_assoc, List.singleton_append]

end Attempts
