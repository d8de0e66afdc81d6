import Clir.Lib.Ensures

set_option autoImplicit false

/-! # Runs that take certain draws

A statement about the runs in which every draw has a property needs to know which draws a run has
taken. `Takes x` says that these are the front of the stream, and `Under A x s Q` is the judgement
about the runs whose draws all satisfy `A`.
-/

namespace Cmd

variable {σ α β : Type}

/-- The command takes its draws from the front of the stream. -/
def Takes (x : Cmd σ α) : Prop :=
  ∀ w a w', x w = .ok a w' → ∃ used, w.draws = used ++ w'.draws

/-- Where `x` returns from `s` after draws that all satisfy `A`, it returns as `Q` says. -/
structure Under (A : ℕ → Prop) (x : Cmd σ α) (s : σ) (Q : α → σ → Prop) : Prop where
  returns : ∀ used rest a s', x ⟨used ++ rest, s⟩ = .ok a ⟨rest, s'⟩ → (∀ d ∈ used, A d) → Q a s'

/-! ## The draws that are taken -/

section Takes

variable {x : Cmd σ α} {k : α → Cmd σ β}

theorem Takes.pure (a : α) : Takes (pure a : Cmd σ α) := by
  intro w b w' h
  obtain ⟨-, rfl⟩ := EStateM.Result.ok.inj h
  exact ⟨[], rfl⟩

theorem Takes.panicWith (message : String) : Takes (panicWith message : Cmd σ α) :=
  fun _ _ _ h => by cases h

theorem Takes.bind (hx : Takes x) (hk : ∀ a, Takes (k a)) : Takes (x >>= k) := by
  intro w b w' h
  obtain ⟨a, w₁, hxa, hka⟩ := bind_eq_ok.mp h
  obtain ⟨used, hused⟩ := hx w a w₁ hxa
  obtain ⟨used', hused'⟩ := hk a w₁ b w' hka
  exact ⟨used ++ used', by rw [hused, hused', List.append_assoc]⟩

theorem Takes.ite {c : Prop} [Decidable c] {y : Cmd σ α} (hx : Takes x) (hy : Takes y) :
    Takes (if c then x else y) := by
  split
  · exact hx
  · exact hy

theorem Takes.mem : Takes (mem : Cmd σ σ) := by
  intro w a w' h
  obtain ⟨-, rfl⟩ := EStateM.Result.ok.inj h
  exact ⟨[], rfl⟩

theorem Takes.update (f : σ → σ) : Takes (update f) := by
  intro w a w' h
  obtain ⟨-, rfl⟩ := EStateM.Result.ok.inj h
  exact ⟨[], rfl⟩

theorem Takes.draw : Takes (draw : Cmd σ ℕ) := by
  rintro ⟨draws, s⟩ a w' h
  cases draws with
  | nil => cases h
  | cons d ds =>
      obtain ⟨-, rfl⟩ := EStateM.Result.ok.inj h
      exact ⟨[d], rfl⟩

theorem Takes.genRange (lo hi : ℕ) : Takes (genRange lo hi : Cmd σ ℕ) :=
  Takes.ite (Takes.draw.bind fun _ => .pure _) (.panicWith _)

theorem Takes.mapM {f : α → Cmd σ β} (h : ∀ a, Takes (f a)) (l : List α) : Takes (l.mapM f) := by
  induction l with
  | nil => exact .pure []
  | cons a l ih =>
      rw [List.mapM_cons]
      exact (h a).bind fun b => ih.bind fun bs => .pure (b :: bs)

end Takes

/-! ## The judgement -/

section Rules

variable {A : ℕ → Prop} {x : Cmd σ α} {k : α → Cmd σ β} {s : σ} {P : α → σ → Prop}
  {Q : β → σ → Prop}

/-- What the judgement says of a run. -/
theorem Under.of_ok (h : Under A x s P) {used : List ℕ} {a : α} {w w' : World σ}
    (hs : w.mem = s) (hx : x w = .ok a w') (hused : w.draws = used ++ w'.draws)
    (hA : ∀ d ∈ used, A d) : P a w'.mem := by
  subst hs
  refine h.returns used w'.draws a w'.mem ?_ hA
  rw [← hused]
  exact hx

theorem Under.of_ensures {I : Halt → σ → Prop} (h : Ensures I x s P) : Under A x s P :=
  ⟨fun _ _ _ _ hx _ => h.of_ok (w := ⟨_, s⟩) hx⟩

theorem Under.pure {a : α} (h : P a s) : Under A (pure a) s P := .of_ensures (I := fun _ _ => True)
  (Ensures.pure h)

theorem Under.mono {P' : α → σ → Prop} (h : Under A x s P) (hP : ∀ a s', P a s' → P' a s') :
    Under A x s P' :=
  ⟨fun used rest a s' hx hA => hP a s' (h.returns used rest a s' hx hA)⟩

theorem Under.bind (hx : Under A x s P) (htx : Takes x) (htk : ∀ a, Takes (k a))
    (hk : ∀ a s', P a s' → Under A (k a) s' Q) : Under A (x >>= k) s Q := by
  refine ⟨fun used rest b s' h hA => ?_⟩
  obtain ⟨a, w₁, hxa, hka⟩ := bind_eq_ok.mp h
  obtain ⟨used₁, hused₁⟩ := htx _ _ _ hxa
  obtain ⟨used₂, hused₂⟩ := htk a _ _ _ hka
  have hsplit : used = used₁ ++ used₂ := by
    have heq : used ++ rest = (used₁ ++ used₂) ++ rest := by
      rw [List.append_assoc]
      exact hused₂ ▸ hused₁
    exact List.append_cancel_right heq
  have hA₁ : ∀ d ∈ used₁, A d := fun d hd => hA d (hsplit ▸ List.mem_append_left _ hd)
  have hA₂ : ∀ d ∈ used₂, A d := fun d hd => hA d (hsplit ▸ List.mem_append_right _ hd)
  exact (hk a _ (hx.of_ok rfl hxa hused₁ hA₁)).of_ok rfl hka hused₂ hA₂

theorem Under.ite {c : Prop} [Decidable c] {y : Cmd σ α} (hx : c → Under A x s P)
    (hy : ¬ c → Under A y s P) : Under A (if c then x else y) s P := by
  split
  · exact hx ‹_›
  · exact hy ‹_›

theorem Under.genRange {P : ℕ → σ → Prop} {lo hi : ℕ}
    (hP : ∀ d, A d → P (lo + d % (hi - lo)) s) : Under A (genRange lo hi) s P := by
  refine ⟨fun used rest n s' h hA => ?_⟩
  unfold Cmd.genRange at h
  split_ifs at h
  · obtain ⟨d, w₁, hd, hret⟩ := bind_eq_ok.mp h
    obtain ⟨rfl, rfl⟩ := EStateM.Result.ok.inj hret
    cases hl : used ++ rest with
    | nil =>
        rw [hl] at hd
        cases hd
    | cons e l =>
        rw [hl] at hd
        obtain ⟨rfl, hw⟩ := EStateM.Result.ok.inj hd
        obtain ⟨rfl, rfl⟩ := World.mk.inj hw
        obtain rfl : used = [e] := List.append_cancel_right hl
        exact hP e (hA e List.mem_cons_self)
  · cases h

/-- A loop that computes a function of each element and changes nothing. -/
theorem Under.mapM_eq {f : α → Cmd σ β} {g : α → β} (ht : ∀ a, Takes (f a)) (l : List α)
    (h : ∀ a ∈ l, Under A (f a) s fun b s' => s' = s ∧ b = g a) :
    Under A (l.mapM f) s fun bs s' => s' = s ∧ bs = l.map g := by
  induction l with
  | nil => exact .pure ⟨rfl, rfl⟩
  | cons a l ih =>
      rw [List.mapM_cons]
      refine (h a List.mem_cons_self).bind (ht a)
        (fun b => (Takes.mapM ht l).bind fun bs => .pure (b :: bs)) ?_
      rintro b _ ⟨rfl, rfl⟩
      refine (ih fun a ha => h a (List.mem_cons_of_mem _ ha)).bind (.mapM ht l)
        (fun bs => .pure (g a :: bs)) ?_
      rintro bs _ ⟨rfl, rfl⟩
      exact .pure ⟨rfl, rfl⟩

end Rules

end Cmd
