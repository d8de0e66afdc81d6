import Clir.Lib.Command

set_option autoImplicit false

/-! # Runs on every stream of draws

`Ensures I x s Q` is about all runs of a command from one memory: whatever the draws, the command
returns with `Q` of its result and memory, or it stops, starved or with a panic, with `I` of the
reason and of the memory it leaves. An invariant of all moments goes into `I`, and a result about
completed runs into `Q`. The draws themselves do not appear, so a command that only draws is a
choice.
-/

namespace Cmd

variable {σ α β : Type}

/-- From `s`, on every stream, `x` returns as `Q` says or stops as `I` says. -/
structure Ensures (I : Halt → σ → Prop) (x : Cmd σ α) (s : σ) (Q : α → σ → Prop) : Prop where
  runs : ∀ draws, Runs x ⟨draws, s⟩ (fun a w => Q a w.mem) fun e w => I e w.mem

section Rules

variable {I : Halt → σ → Prop} {s : σ} {Q : α → σ → Prop}

theorem Ensures.of_ok {x : Cmd σ α} {w w' : World σ} {a : α} (h : Ensures I x w.mem Q)
    (hx : x w = .ok a w') : Q a w'.mem :=
  Runs.of_ok (h.runs w.draws) hx

theorem Ensures.of_error {x : Cmd σ α} {w w' : World σ} {e : Halt} (h : Ensures I x w.mem Q)
    (hx : x w = .error e w') : I e w'.mem :=
  Runs.of_error (h.runs w.draws) hx

/-- What a command leaves behind, however it ends. -/
theorem Ensures.after {J : σ → Prop} {x : Cmd σ α} {w : World σ}
    (h : Ensures (fun _ => J) x w.mem Q) (hQ : ∀ a s', Q a s' → J s') : J (after x w).mem := by
  have hw := h.runs w.draws
  unfold Runs at hw
  unfold Cmd.after
  cases hx : x w with
  | ok a w' =>
      rw [hx] at hw
      exact hQ a _ hw
  | error e w' =>
      rw [hx] at hw
      exact hw

theorem Ensures.mono {x : Cmd σ α} {Q' : α → σ → Prop} (h : Ensures I x s Q)
    (hQ : ∀ a s', Q a s' → Q' a s') : Ensures I x s Q' :=
  ⟨fun draws => (h.runs draws).weaken fun a w => hQ a w.mem⟩

/-- Weaken what holds where the command stops. -/
theorem Ensures.weaken {x : Cmd σ α} {J : Halt → σ → Prop} (h : Ensures I x s Q)
    (hI : ∀ e s', I e s' → J e s') : Ensures J x s Q :=
  ⟨fun draws => Runs.mono (h.runs draws) (fun _ _ => id) fun e w => hI e w.mem⟩

/-- Two judgements about the same runs. -/
theorem Ensures.and {x : Cmd σ α} {J : Halt → σ → Prop} {Q' : α → σ → Prop} (h : Ensures I x s Q)
    (h' : Ensures J x s Q') : Ensures I x s fun a s' => Q a s' ∧ Q' a s' :=
  ⟨fun draws => Runs.mono ((h.runs draws).and (h'.runs draws)) (fun _ _ => id) fun _ _ => And.left⟩

/-- A stop of the command is one of its own runs. -/
theorem Ensures.traced {x : Cmd σ α} (h : Ensures I x s Q) :
    Ensures (fun e s' => I e s' ∧ ∃ draws draws', x ⟨draws, s⟩ = .error e ⟨draws', s'⟩) x s Q := by
  refine ⟨fun draws => ?_⟩
  have hrun := h.runs draws
  unfold Runs at hrun ⊢
  cases hx : x ⟨draws, s⟩ with
  | ok a w =>
      rw [hx] at hrun
      exact hrun
  | error e w =>
      rw [hx] at hrun
      exact ⟨hrun, draws, w.draws, hx⟩

theorem Ensures.pure {a : α} (h : Q a s) : Ensures I (pure a) s Q := ⟨fun _ => h⟩

theorem Ensures.panicWith {m : String} (h : I (.panic m) s) :
    Ensures I (panicWith m : Cmd σ α) s Q := ⟨fun _ => h⟩

theorem Ensures.bind {x : Cmd σ β} {k : β → Cmd σ α} {P : β → σ → Prop}
    (hx : Ensures I x s P) (hk : ∀ b s', P b s' → Ensures I (k b) s' Q) :
    Ensures I (x >>= k) s Q :=
  ⟨fun draws => (hx.runs draws).bind fun b w hb => (hk b w.mem hb).runs w.draws⟩

/-- A command that only chooses, and what is done with its choice. -/
theorem Ensures.pick {x : Cmd σ β} {k : β → Cmd σ α} {P : β → Prop}
    (hx : Ensures I x s fun b s' => s' = s ∧ P b) (hk : ∀ b, P b → Ensures I (k b) s Q) :
    Ensures I (x >>= k) s Q := by
  refine hx.bind ?_
  rintro b s' ⟨rfl, hb⟩
  exact hk b hb

theorem Ensures.mem {Q : σ → σ → Prop} (h : Q s s) : Ensures I (mem : Cmd σ σ) s Q :=
  ⟨fun _ => h⟩

theorem Ensures.update {Q : Unit → σ → Prop} {f : σ → σ} (h : Q () (f s)) :
    Ensures I (update f) s Q := ⟨fun _ => h⟩

theorem Ensures.ite {c : Prop} [Decidable c] {x y : Cmd σ α} (hx : c → Ensures I x s Q)
    (hy : ¬ c → Ensures I y s Q) : Ensures I (if c then x else y) s Q := by
  split
  · exact hx ‹_›
  · exact hy ‹_›

/-! ## Choices -/

/-- A draw. From an empty range it is a panic. -/
theorem Ensures.genRange {Q : ℕ → σ → Prop} {lo hi : ℕ} (hI : I .starved s)
    (hempty : hi ≤ lo → ∀ m, I (.panic m) s) (hQ : ∀ n, lo ≤ n → n < hi → Q n s) :
    Ensures I (genRange lo hi) s Q := by
  refine ⟨fun draws => ?_⟩
  by_cases h : lo < hi
  · exact runs_genRange h (fun _ => hI) fun _ _ n _ hlo hhi => hQ n hlo hhi
  · unfold Cmd.genRange
    rw [if_neg h]
    exact hempty (Nat.le_of_not_lt h) _

theorem Ensures.unwrap {o : Option α} (hI : o = none → ∀ m, I (.panic m) s)
    (hQ : ∀ a, o = some a → Q a s) : Ensures I (unwrap o) s Q := by
  cases o with
  | none => exact Ensures.panicWith (hI rfl _)
  | some a => exact Ensures.pure (hQ a rfl)

theorem Ensures.choose {l : List α} {Q : Option α → σ → Prop} (hI : I .starved s)
    (hnil : l = [] → Q none s) (hQ : ∀ a ∈ l, Q (some a) s) : Ensures I (choose l) s Q := by
  unfold Cmd.choose
  refine Ensures.ite (fun h => Ensures.pure (hnil (List.isEmpty_iff.mp h))) fun h => ?_
  have hne : l ≠ [] := fun e => h (List.isEmpty_iff.mpr e)
  have hlen : 0 < l.length := List.length_pos_of_ne_nil hne
  refine Ensures.pick (Ensures.genRange (Q := fun n s' => s' = s ∧ n < l.length) hI
    (fun hle => absurd hlen (Nat.not_lt.mpr hle)) fun n _ hn => ⟨rfl, hn⟩) fun i hi => ?_
  rw [List.getElem?_eq_getElem hi]
  exact Ensures.pure (hQ _ (List.getElem_mem hi))

/-- An element that must be there. -/
theorem Ensures.chooseUnwrap {l : List α} (hI : I .starved s)
    (hnil : l = [] → ∀ m, I (.panic m) s) (hQ : ∀ a ∈ l, Q a s) :
    Ensures I (do Cmd.unwrap (← Cmd.choose l)) s Q := by
  refine Ensures.pick (P := fun o => (o = none → l = []) ∧ ∀ a, o = some a → a ∈ l) ?_
    fun o ho => ?_
  · exact Ensures.choose hI (fun h => ⟨rfl, fun _ => h, by simp⟩) fun a ha => ⟨rfl, by simp,
      fun b hb => Option.some.inj hb ▸ ha⟩
  · exact Ensures.unwrap (fun h => hnil (ho.1 h)) fun a ha => hQ a (ho.2 a ha)

/-! ## Loops -/

theorem Ensures.forM {f : β → Cmd σ PUnit} {P : List β → σ → Prop} {l : List β} (h : P l s)
    (hstep : ∀ b rest s', P (b :: rest) s' → Ensures I (f b) s' fun _ => P rest) :
    Ensures I (l.forM f) s fun _ => P [] :=
  ⟨fun _ => Runs.forM (I := fun rest w => P rest w.mem) h fun b rest w hw =>
    (hstep b rest w.mem hw).runs _⟩

/-- A loop that collects results: each is related to its element, and the invariant is kept. -/
theorem Ensures.mapM {f : β → Cmd σ α} {P : σ → Prop} {R : β → α → Prop} {l : List β} (h : P s)
    (hstep : ∀ b ∈ l, ∀ s', P s' → Ensures I (f b) s' fun a s'' => P s'' ∧ R b a) :
    Ensures I (l.mapM f) s fun as s' => P s' ∧ List.Forall₂ R l as := by
  induction l generalizing s with
  | nil => exact Ensures.pure ⟨h, .nil⟩
  | cons b rest ih =>
      rw [List.mapM_cons]
      refine Ensures.bind (hstep b (by simp) s h) ?_
      rintro a s' ⟨hs', ha⟩
      refine Ensures.bind (ih hs' fun c hc => hstep c (List.mem_cons_of_mem b hc)) ?_
      rintro as s'' ⟨hs'', has⟩
      exact Ensures.pure ⟨hs'', .cons ha has⟩

/-- A loop that carries a value, with an invariant that knows the rest of the list. -/
theorem Ensures.foldlM_rest {f : α → β → Cmd σ α} {P : List β → α → σ → Prop} {l : List β} {a : α}
    (h : P l a s) (hstep : ∀ a b rest s', P (b :: rest) a s' → Ensures I (f a b) s' (P rest)) :
    Ensures I (l.foldlM f a) s (P []) := by
  induction l generalizing a s with
  | nil => exact Ensures.pure h
  | cons b rest ih =>
      rw [List.foldlM_cons]
      exact Ensures.bind (hstep a b rest s h) fun a' s' h' => ih h'

/-- A command on a memory of its own. -/
theorem Ensures.onMem {τ : Type} {start : τ} {x : Cmd τ α} {J : Halt → τ → Prop}
    {P : α → τ → Prop} {Q : α × τ → σ → Prop} (hx : Ensures J x start P)
    (hI : ∀ e t, J e t → I e s) (hQ : ∀ a t, P a t → Q (a, t) s) :
    Ensures I (onMem start x) s Q := by
  refine ⟨fun draws => ?_⟩
  have hrun := hx.runs draws
  unfold Runs at hrun ⊢
  unfold Cmd.onMem
  cases hw : x ⟨draws, start⟩ with
  | ok a w =>
      rw [hw] at hrun
      exact hQ a w.mem hrun
  | error e w =>
      rw [hw] at hrun
      exact hI e w.mem hrun

end Rules

/-! ## Invariants

Where a command is long and most of its parts do not touch what an invariant is about, the parts
are checked one by one, without following the memory through them.
-/

/-- Where `J` holds before the command, it holds after it. -/
def Preserves (J : σ → Prop) (x : Cmd σ α) : Prop :=
  ∀ s, J s → Ensures (fun _ _ => True) x s fun _ => J

section Preserves

variable {J : σ → Prop} {x : Cmd σ α}

/-- A command that only chooses. -/
theorem Preserves.of_mem_eq {P : σ → α → Prop}
    (h : ∀ s, Ensures (fun _ _ => True) x s fun a s' => s' = s ∧ P s a) : Preserves J x :=
  fun s hs => (h s).mono fun _ _ h' => h'.1 ▸ hs

theorem Preserves.pure (a : α) : Preserves J (pure a : Cmd σ α) := fun _ hs => Ensures.pure hs

theorem Preserves.panicWith (m : String) : Preserves J (panicWith m : Cmd σ α) :=
  fun _ _ => Ensures.panicWith trivial

theorem Preserves.bind {k : α → Cmd σ β} (hx : Preserves J x) (hk : ∀ a, Preserves J (k a)) :
    Preserves J (x >>= k) := fun s hs => (hx s hs).bind fun a s' hs' => hk a s' hs'

theorem Preserves.ite {c : Prop} [Decidable c] {y : Cmd σ α} (hx : Preserves J x)
    (hy : Preserves J y) : Preserves J (if c then x else y) := fun s hs =>
  Ensures.ite (fun _ => hx s hs) fun _ => hy s hs

theorem Preserves.genRange (lo hi : ℕ) : Preserves J (genRange lo hi : Cmd σ ℕ) := fun _ hs =>
  Ensures.genRange trivial (fun _ _ => trivial) fun _ _ _ => hs

theorem Preserves.unwrap (o : Option α) : Preserves J (unwrap o : Cmd σ α) := fun _ hs =>
  Ensures.unwrap (fun _ _ => trivial) fun _ _ => hs

theorem Preserves.choose (l : List α) : Preserves J (choose l : Cmd σ (Option α)) := fun _ hs =>
  Ensures.choose trivial (fun _ => hs) fun _ _ => hs

/-- A choice from a list that must not be empty. -/
theorem Preserves.chooseUnwrap {l : List α} {k : α → Cmd σ β} (h : ∀ a ∈ l, Preserves J (k a)) :
    Preserves J (Cmd.choose l >>= fun o => Cmd.unwrap o >>= k) := by
  intro s hs
  rw [← bind_assoc]
  refine Ensures.bind (Ensures.chooseUnwrap (Q := fun a s' => a ∈ l ∧ J s') trivial
    (fun _ _ => trivial) fun a ha => ⟨ha, hs⟩) ?_
  rintro a s' ⟨ha, hs'⟩
  exact h a ha s' hs'

theorem Preserves.forM_of_mem {f : β → Cmd σ PUnit} {l : List β} (h : ∀ b ∈ l, Preserves J (f b)) :
    Preserves J (l.forM f) := by
  intro s hs
  refine (Ensures.forM (P := fun rest s => rest ⊆ l ∧ J s) ⟨List.Subset.refl l, hs⟩ ?_).mono
    fun _ _ h' => h'.2
  rintro b rest s' ⟨hsub, hs'⟩
  obtain ⟨hb, hrest⟩ := List.cons_subset.mp hsub
  exact (h b hb s' hs').mono fun _ _ hs'' => ⟨hrest, hs''⟩

theorem Preserves.forM {f : β → Cmd σ PUnit} (h : ∀ b, Preserves J (f b)) (l : List β) :
    Preserves J (l.forM f) :=
  .forM_of_mem fun b _ => h b

theorem Preserves.mapM {f : β → Cmd σ α} (h : ∀ b, Preserves J (f b)) (l : List β) :
    Preserves J (l.mapM f) := by
  induction l with
  | nil => exact .pure []
  | cons b l ih =>
      rw [List.mapM_cons]
      exact (h b).bind fun a => ih.bind fun as => .pure (a :: as)

end Preserves

end Cmd
