import Mathlib.Tactic.Common

set_option autoImplicit false

/-! # Loops that run until nothing changes

`untilStable` repeats a pass until it reports no change. Where every pass that changes something
lowers a measure, a bound above the measure is never reached and the loop ends in a state the
pass does not change.
-/

namespace Fixpoint

variable {σ α : Type*}

/-- `while changed { … }`, for at most the given number of rounds. -/
def untilStable (pass : σ → σ × Bool) : ℕ → σ → σ
  | 0, s => s
  | rounds + 1, s => if (pass s).2 then untilStable pass rounds (pass s).1 else (pass s).1

/-- A pass over a list of positions, each of which may update the state. -/
def sweep (update : α → σ → Option σ) (l : List α) (s : σ) : σ × Bool :=
  l.foldl (fun acc a =>
    match update a acc.1 with
    | some s' => (s', true)
    | none => acc) (s, false)

/-- The loop `while changed { … }` without a bound: from the first state it ends in the second. -/
inductive Loops (pass : σ → σ × Bool) : σ → σ → Prop
  | stop {s : σ} (h : (pass s).2 = false) : Loops pass s (pass s).1
  | again {s r : σ} (h : (pass s).2 = true) (hr : Loops pass (pass s).1 r) : Loops pass s r

section Rules

variable {I : σ → Prop} {μ : σ → ℕ}

/-- What a sweep does: nothing where no position has an update, and otherwise it lowers the
measure. -/
theorem sweep_spec {update : α → σ → Option σ} {l : List α}
    (hI : ∀ a ∈ l, ∀ s s', I s → update a s = some s' → I s')
    (hμ : ∀ a ∈ l, ∀ s s', I s → update a s = some s' → μ s' < μ s) {s : σ} (h : I s) :
    I (sweep update l s).1 ∧
      ((sweep update l s).2 = true → μ (sweep update l s).1 < μ s) ∧
      ((sweep update l s).2 = false → (sweep update l s).1 = s ∧ ∀ a ∈ l, update a s = none) := by
  -- the invariant of the loop, with the positions visited so far
  have hloop : ∀ (rest done : List α) (acc : σ × Bool), (∀ a ∈ rest, a ∈ l) → I acc.1 →
      (acc.2 = true → μ acc.1 < μ s) →
      (acc.2 = false → acc.1 = s ∧ ∀ a ∈ done, update a s = none) →
      let r := rest.foldl (fun acc a =>
        match update a acc.1 with
        | some s' => (s', true)
        | none => acc) acc
      I r.1 ∧ (r.2 = true → μ r.1 < μ s) ∧
        (r.2 = false → r.1 = s ∧ ∀ a ∈ done ++ rest, update a s = none) := by
    intro rest
    induction rest with
    | nil =>
        intro done acc _ h₁ h₂ h₃
        simpa using ⟨h₁, h₂, h₃⟩
    | cons a rest ih =>
        intro done acc hl h₁ h₂ h₃
        have ha := hl a List.mem_cons_self
        have hl' : ∀ b ∈ rest, b ∈ l := fun b hb => hl b (List.mem_cons_of_mem a hb)
        rw [List.foldl_cons, ← List.singleton_append, ← List.append_assoc]
        cases hu : update a acc.1 with
        | some s' =>
            refine ih (done ++ [a]) (s', true) hl' (hI a ha _ _ h₁ hu) (fun _ => ?_) (by simp)
            have hlt := hμ a ha _ _ h₁ hu
            cases hc : acc.2 with
            | true => exact Nat.lt_trans hlt (h₂ hc)
            | false => exact (h₃ hc).1 ▸ hlt
        | none =>
            refine ih (done ++ [a]) acc hl' h₁ h₂ fun hc => ⟨(h₃ hc).1, fun b hb => ?_⟩
            rcases List.mem_append.mp hb with hb | hb
            · exact (h₃ hc).2 b hb
            · rw [List.mem_singleton.mp hb, ← (h₃ hc).1, hu]
  exact hloop l [] (s, false) (fun _ => id) h (by simp) fun _ => ⟨rfl, by simp⟩

/-- **The loop ends in a stable state.** -/
theorem untilStable_sweep {update : α → σ → Option σ} {l : List α}
    (hI : ∀ a ∈ l, ∀ s s', I s → update a s = some s' → I s')
    (hμ : ∀ a ∈ l, ∀ s s', I s → update a s = some s' → μ s' < μ s) {rounds : ℕ} {s : σ}
    (h : I s) (hrounds : μ s < rounds) :
    I (untilStable (sweep update l) rounds s) ∧
      ∀ a ∈ l, update a (untilStable (sweep update l) rounds s) = none := by
  induction rounds generalizing s with
  | zero => omega
  | succ rounds ih =>
      obtain ⟨h₁, h₂, h₃⟩ := sweep_spec hI hμ h
      unfold untilStable
      split_ifs with hc
      · exact ih h₁ (by have := h₂ hc; omega)
      · obtain ⟨hs, hnone⟩ := h₃ (by simpa using hc)
        rw [hs]
        exact ⟨h, hnone⟩

/-- With more rounds than the measure, the bounded loop is the loop. -/
theorem loops_untilStable {update : α → σ → Option σ} {l : List α}
    (hI : ∀ a ∈ l, ∀ s s', I s → update a s = some s' → I s')
    (hμ : ∀ a ∈ l, ∀ s s', I s → update a s = some s' → μ s' < μ s) {rounds : ℕ} {s : σ}
    (h : I s) (hrounds : μ s < rounds) :
    Loops (sweep update l) s (untilStable (sweep update l) rounds s) := by
  induction rounds generalizing s with
  | zero => omega
  | succ rounds ih =>
      obtain ⟨h₁, h₂, -⟩ := sweep_spec hI hμ h
      unfold untilStable
      split_ifs with hc
      · exact .again hc (ih h₁ (by have := h₂ hc; omega))
      · exact .stop (by simpa using hc)

end Rules

end Fixpoint
