import Mathlib.Data.List.Basic
import Mathlib.Tactic.Common

set_option autoImplicit false

/-! # Commands that draw, update a memory, and may stop

A command runs on a memory and a stream of draws. It returns, or it stops: with a panic, or
because the stream has run dry. A stopped run keeps the memory it had reached. The stream is
a finite list, so the runs on all streams pass through every moment of a computation that
draws, and a property of all stopping points is a property of all those moments.

`Runs x w Q E` is the judgement about one run: if `x` returns from `w` then `Q` holds of the
result and the world, and if it stops then `E` holds of the reason and the world. The rules
are equivalences, so that `simp` can execute a command symbolically, and loops have an
invariant rule.
-/

/-- Why a run stops before it returns. -/
inductive Halt
  | panic (message : String)
  | starved
  deriving DecidableEq, Repr

/-- The memory, and the draws still to come. -/
structure World (σ : Type) where
  draws : List ℕ
  mem : σ

/-- Commands over a memory of type `σ`. -/
abbrev Cmd (σ α : Type) : Type := EStateM Halt (World σ) α

namespace Cmd

variable {σ α β : Type}

/-- Stop with a message. -/
def panicWith (message : String) : Cmd σ α := throw (.panic message)

/-- The memory as it is. -/
def mem : Cmd σ σ := do
  return (← get).mem

/-- Change the memory. -/
def update (f : σ → σ) : Cmd σ Unit :=
  modify fun w => { w with mem := f w.mem }

/-- The next draw. -/
def draw : Cmd σ ℕ := do
  let w ← get
  match w.draws with
  | [] => throw .starved
  | d :: ds =>
      set { w with draws := ds }
      return d

/-- A number from `lo` up to but not including `hi`; an empty range is a panic. -/
def genRange (lo hi : ℕ) : Cmd σ ℕ := do
  if lo < hi then
    let d ← draw
    return lo + d % (hi - lo)
  else
    panicWith "cannot sample empty range"

/-- The value of an option that must be there. -/
def unwrap (o : Option α) : Cmd σ α :=
  match o with
  | some a => return a
  | none => panicWith "called Option::unwrap() on a None value"

/-- An element of a list, if there is one. -/
def choose (l : List α) : Cmd σ (Option α) := do
  if l.isEmpty then
    return none
  else
    let i ← genRange 0 l.length
    return l[i]?

/-- Run a command on a memory of its own, and return what it leaves there. -/
def onMem {τ : Type} (start : τ) (x : Cmd τ α) : Cmd σ (α × τ) := fun w =>
  match x ⟨w.draws, start⟩ with
  | .ok a w' => .ok (a, w'.mem) ⟨w'.draws, w.mem⟩
  | .error e w' => .error e ⟨w'.draws, w.mem⟩

/-! ## The judgement and its rules -/

/-- The run of `x` from `w` returns with `Q` or stops with `E`. -/
def Runs (x : Cmd σ α) (w : World σ) (Q : α → World σ → Prop) (E : Halt → World σ → Prop) :
    Prop :=
  match x w with
  | .ok a w' => Q a w'
  | .error e w' => E e w'

section Rules

variable {Q : α → World σ → Prop} {E : Halt → World σ → Prop} {w : World σ}

theorem Runs.of_ok {x : Cmd σ α} {a : α} {w' : World σ} (h : Runs x w Q E)
    (hx : x w = .ok a w') : Q a w' := by
  simpa [Runs, hx] using h

theorem Runs.of_error {x : Cmd σ α} {e : Halt} {w' : World σ} (h : Runs x w Q E)
    (hx : x w = .error e w') : E e w' := by
  simpa [Runs, hx] using h

/-- A sequence that returns has returned twice. -/
theorem bind_eq_ok {x : Cmd σ β} {k : β → Cmd σ α} {a : α} {w' : World σ} :
    (x >>= k) w = .ok a w' ↔ ∃ b w₁, x w = .ok b w₁ ∧ k b w₁ = .ok a w' := by
  change EStateM.bind x k w = .ok a w' ↔ _
  unfold EStateM.bind
  cases x w with
  | ok b w₁ => simp
  | error e w₁ => simp

/-- Whether a run returns, with a result and a world that pass a check. -/
def returnsWith (x : Cmd σ α) (w : World σ) (check : α → World σ → Bool) : Bool :=
  match x w with
  | .ok a w' => check a w'
  | .error _ _ => false

/-- Whether a run returns. -/
def returns (x : Cmd σ α) (w : World σ) : Bool := returnsWith x w fun _ _ => true

theorem exists_of_returnsWith {x : Cmd σ α} {check : α → World σ → Bool}
    (h : returnsWith x w check = true) : ∃ a w', x w = .ok a w' ∧ check a w' = true := by
  unfold returnsWith at h
  cases hx : x w with
  | ok a w' =>
      rw [hx] at h
      exact ⟨a, w', rfl, h⟩
  | error e w' =>
      rw [hx] at h
      cases h

theorem exists_of_returns {x : Cmd σ α} (h : returns x w = true) : ∃ a w', x w = .ok a w' := by
  obtain ⟨a, w', hx, -⟩ := exists_of_returnsWith h
  exact ⟨a, w', hx⟩

theorem Runs.exists_ok {x : Cmd σ α} (h : Runs x w Q fun _ _ => False) :
    ∃ a w', x w = .ok a w' ∧ Q a w' := by
  unfold Runs at h
  cases hx : x w with
  | ok a w' => exact ⟨a, w', rfl, by simpa [hx] using h⟩
  | error e w' => simp [hx] at h

theorem Runs.mono {x : Cmd σ α} {Q' : α → World σ → Prop} {E' : Halt → World σ → Prop}
    (h : Runs x w Q E) (hQ : ∀ a w', Q a w' → Q' a w') (hE : ∀ e w', E e w' → E' e w') :
    Runs x w Q' E' := by
  unfold Runs at h ⊢
  cases hx : x w with
  | ok a w' => exact hQ a w' (by simpa [hx] using h)
  | error e w' => exact hE e w' (by simpa [hx] using h)

/-- Weaken what holds on return. -/
theorem Runs.weaken {x : Cmd σ α} {Q' : α → World σ → Prop} (h : Runs x w Q E)
    (hQ : ∀ a w', Q a w' → Q' a w') : Runs x w Q' E :=
  h.mono hQ fun _ _ he => he

theorem Runs.and {x : Cmd σ α} {Q' : α → World σ → Prop} {E' : Halt → World σ → Prop}
    (h : Runs x w Q E) (h' : Runs x w Q' E') :
    Runs x w (fun a w' => Q a w' ∧ Q' a w') (fun e w' => E e w' ∧ E' e w') := by
  unfold Runs at h h' ⊢
  cases hx : x w with
  | ok a w' => exact ⟨by simpa [hx] using h, by simpa [hx] using h'⟩
  | error e w' => exact ⟨by simpa [hx] using h, by simpa [hx] using h'⟩

@[simp] theorem runs_pure (a : α) : Runs (pure a : Cmd σ α) w Q E ↔ Q a w := Iff.rfl

@[simp] theorem runs_panicWith (m : String) :
    Runs (panicWith m : Cmd σ α) w Q E ↔ E (.panic m) w := Iff.rfl

@[simp] theorem runs_bind (x : Cmd σ β) (k : β → Cmd σ α) :
    Runs (x >>= k) w Q E ↔ Runs x w (fun b w' => Runs (k b) w' Q E) E := by
  change (match EStateM.bind x k w with
    | .ok a w' => Q a w'
    | .error e w' => E e w') ↔ _
  unfold EStateM.bind Runs
  cases x w <;> rfl

@[simp] theorem runs_mem {Q : σ → World σ → Prop} :
    Runs (mem : Cmd σ σ) w Q E ↔ Q w.mem w := Iff.rfl

@[simp] theorem runs_update {Q : Unit → World σ → Prop} (f : σ → σ) :
    Runs (update f) w Q E ↔ Q () { w with mem := f w.mem } := Iff.rfl

/-- Sequential composition through a middle assertion. -/
theorem Runs.bind {x : Cmd σ β} {k : β → Cmd σ α} {P : β → World σ → Prop}
    (hx : Runs x w P E) (hk : ∀ b w', P b w' → Runs (k b) w' Q E) : Runs (x >>= k) w Q E :=
  (runs_bind x k).mpr (hx.mono hk fun _ _ h => h)

/-- Loops, with an invariant on the elements still to come. -/
theorem Runs.forM {f : β → Cmd σ PUnit} {I : List β → World σ → Prop} {l : List β}
    (h : I l w) (hstep : ∀ b rest w', I (b :: rest) w' → Runs (f b) w' (fun _ => I rest) E) :
    Runs (l.forM f) w (fun _ => I []) E := by
  induction l generalizing w with
  | nil => exact h
  | cons b rest ih =>
      change Runs (f b >>= fun _ => rest.forM f) w (fun _ => I []) E
      exact Runs.bind (hstep b rest w h) fun _ w' h' => ih h'

theorem runs_draw {Q : ℕ → World σ → Prop} :
    Runs (draw : Cmd σ ℕ) w Q E ↔
      match w.draws with
      | [] => E .starved w
      | d :: ds => Q d { w with draws := ds } := by
  unfold draw
  rw [runs_bind]
  change Runs (match w.draws with
    | [] => throw .starved
    | d :: ds => do
        set { w with draws := ds }
        return d) w Q E ↔ _
  cases w.draws <;> exact Iff.rfl

@[simp] theorem runs_unwrap_some (a : α) : Runs (unwrap (some a) : Cmd σ α) w Q E ↔ Q a w :=
  Iff.rfl

/-- A draw from a nonempty range gives a number of the range and changes only the stream. -/
theorem runs_genRange {Q : ℕ → World σ → Prop} {lo hi : ℕ} (h : lo < hi)
    (hstarved : w.draws = [] → E .starved w)
    (hQ : ∀ d ds n, w.draws = d :: ds → lo ≤ n → n < hi → Q n { w with draws := ds }) :
    Runs (genRange lo hi) w Q E := by
  unfold genRange
  rw [if_pos h, runs_bind, runs_draw]
  cases hd : w.draws with
  | nil => exact hstarved hd
  | cons d ds =>
      have hmod : d % (hi - lo) < hi - lo := Nat.mod_lt _ (by omega)
      exact hQ d ds _ hd (Nat.le_add_right _ _) (by omega)

end Rules

/-! ## Budgets -/

/-- `x` ends as `Q` says after at most `c` draws, and stops early only when the stream has fewer
than `c` draws; what it leaves behind then satisfies `I`. -/
def Spends (c : ℕ) (I : World σ → Prop) (x : Cmd σ α) (w : World σ) (Q : α → World σ → Prop) :
    Prop :=
  Runs x w (fun a w' => Q a w' ∧ w.draws.length ≤ w'.draws.length + c)
    fun e w' => e = .starved ∧ w.draws.length < c ∧ I w'

section Budget

variable {c d : ℕ} {I : World σ → Prop} {w : World σ} {Q : α → World σ → Prop}

theorem Spends.mono {x : Cmd σ α} {Q' : α → World σ → Prop} (h : Spends c I x w Q)
    (hQ : ∀ a w', Q a w' → Q' a w') : Spends c I x w Q' :=
  h.weaken fun a w' ⟨ha, hle⟩ => ⟨hQ a w' ha, hle⟩

theorem Spends.more {x : Cmd σ α} (h : Spends c I x w Q) (hc : c ≤ d) : Spends d I x w Q :=
  Runs.mono h (fun _ _ ⟨ha, hle⟩ => ⟨ha, by omega⟩) fun _ _ ⟨he, hlt, hI⟩ => ⟨he, by omega, hI⟩

theorem Spends.pure {a : α} (h : Q a w) : Spends 0 I (pure a) w Q := ⟨h, Nat.le_refl _⟩

theorem Spends.bind {x : Cmd σ β} {k : β → Cmd σ α} {P : β → World σ → Prop}
    (hx : Spends c I x w P) (hk : ∀ b w', P b w' → Spends d I (k b) w' Q) :
    Spends (c + d) I (x >>= k) w Q := by
  refine (runs_bind x k).mpr (Runs.mono hx ?_ ?_)
  · rintro b w' ⟨hb, hle⟩
    refine Runs.mono (hk b w' hb) ?_ ?_
    · rintro a w'' ⟨ha, hle'⟩
      exact ⟨ha, by omega⟩
    · rintro e w'' ⟨he, hlt, hI⟩
      exact ⟨he, by omega, hI⟩
  · rintro e w' ⟨he, hlt, hI⟩
    exact ⟨he, by omega, hI⟩

/-- A command that draws nothing and always ends. -/
theorem Spends.of_runs {x : Cmd σ α}
    (h : Runs x w (fun a w' => Q a w' ∧ w'.draws = w.draws) fun _ _ => False) :
    Spends 0 I x w Q :=
  Runs.mono h (fun _ _ ⟨ha, hd⟩ => ⟨ha, by rw [hd]; exact Nat.le_refl _⟩) fun _ _ he => he.elim

theorem Spends.genRange {Q : ℕ → World σ → Prop} {lo hi : ℕ} (h : lo < hi) (hI : I w)
    (hQ : ∀ n ds, lo ≤ n → n < hi → Q n { w with draws := ds }) :
    Spends 1 I (genRange lo hi) w Q := by
  refine runs_genRange h ?_ ?_
  · intro hd
    exact ⟨rfl, by simp [hd], hI⟩
  · intro d ds n hd hlo hhi
    exact ⟨hQ n ds hlo hhi, by simp [hd]⟩

/-- With enough draws the command ends. -/
theorem Spends.exists_ok {x : Cmd σ α} (h : Spends c I x w Q) (hc : c ≤ w.draws.length) :
    ∃ a w', x w = .ok a w' ∧ Q a w' := by
  refine Runs.exists_ok (Runs.mono h (fun _ _ => And.left) ?_)
  rintro e w' ⟨-, hlt, -⟩
  omega

/-- The world a command leaves behind, however it ends. -/
def after (x : Cmd σ α) (w : World σ) : World σ :=
  match x w with
  | .ok _ w' => w'
  | .error _ w' => w'

theorem after_eq_of_ok {x : Cmd σ α} {w w' : World σ} {a : α} (h : x w = .ok a w') :
    after x w = w' := by
  unfold Cmd.after
  rw [h]

theorem Spends.after {x : Cmd σ α} (h : Spends c I x w Q) (hQ : ∀ a w', Q a w' → I w') :
    I (after x w) := by
  unfold Spends Runs at h
  unfold Cmd.after
  cases hx : x w with
  | ok a w' =>
      rw [hx] at h
      exact hQ a w' h.1
  | error e w' =>
      rw [hx] at h
      exact h.2.2

end Budget

end Cmd
