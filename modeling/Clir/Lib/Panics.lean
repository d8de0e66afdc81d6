import Clir.Lib.Ensures

set_option autoImplicit false

/-! # Commands that do not panic

`Safe x s` says that no stream of draws makes the command `x` panic from the memory `s`. To reason
about the parts of a command one has to go from a run of a part to a run of the whole. This works
for *fair* commands: what they take from the stream says nothing about what is left of it, and they
return on some stream unless they panic on one. All commands that are made from draws by sequencing
are fair.
-/

namespace Cmd

variable {σ α β : Type}

/-- No stream of draws makes the command panic. -/
def Safe (x : Cmd σ α) (s : σ) : Prop := ∀ draws m w, x ⟨draws, s⟩ ≠ .error (.panic m) w

/-- On some stream of draws the command returns `a` and leaves `s'`. -/
def Leads (x : Cmd σ α) (s : σ) (a : α) (s' : σ) : Prop :=
  ∃ draws rest, x ⟨draws, s⟩ = .ok a ⟨rest, s'⟩

/-- A command that can be followed by any draws, and that returns on some stream if it is safe. -/
structure Fair (x : Cmd σ α) : Prop where
  followed : ∀ {s a s'}, Leads x s a s' → ∀ rest, ∃ draws, x ⟨draws, s⟩ = .ok a ⟨rest, s'⟩
  live : ∀ {s}, Safe x s → ∃ a s', Leads x s a s'

section Rules

variable {x : Cmd σ α} {k k' : α → Cmd σ β} {s s' : σ} {a : α} {b : β}

/-- The end of the draws is the only reason to stop. -/
abbrev Dry (e : Halt) (_ : σ) : Prop := e = .starved

/-- A sequence that stops has stopped in one of its parts. -/
theorem bind_eq_error {x : Cmd σ α} {k : α → Cmd σ β} {w w' : World σ} {e : Halt} :
    (x >>= k) w = .error e w' ↔
      x w = .error e w' ∨ ∃ a w₁, x w = .ok a w₁ ∧ k a w₁ = .error e w' := by
  change EStateM.bind x k w = .error e w' ↔ _
  unfold EStateM.bind
  cases x w with
  | ok b w₁ => simp
  | error e w₁ => simp

theorem Safe.of_bind (h : Safe (x >>= k) s) : Safe x s := by
  intro draws m w hx
  refine h draws m w ?_
  change EStateM.bind x k _ = _
  rw [EStateM.bind, hx]

theorem leads_bind (hx : Fair x) :
    Leads (x >>= k) s b s' ↔ ∃ a s₁, Leads x s a s₁ ∧ Leads (k a) s₁ b s' := by
  constructor
  · rintro ⟨draws, rest, h⟩
    obtain ⟨a, w₁, hxa, hka⟩ := bind_eq_ok.mp h
    exact ⟨a, w₁.mem, ⟨draws, w₁.draws, hxa⟩, w₁.draws, rest, hka⟩
  · rintro ⟨a, s₁, hxa, draws₁, rest, hka⟩
    obtain ⟨draws, h⟩ := hx.followed hxa draws₁
    exact ⟨draws, rest, bind_eq_ok.mpr ⟨a, _, h, hka⟩⟩

/-- The rest of a safe command is safe wherever the start of it leads. -/
theorem Safe.rest (hx : Fair x) (h : Safe (x >>= k) s) (ha : Leads x s a s') : Safe (k a) s' := by
  intro draws m w hk
  obtain ⟨draws₀, hxa⟩ := hx.followed ha draws
  refine h draws₀ m w ?_
  change EStateM.bind x k _ = _
  rw [EStateM.bind, hxa]
  exact hk

theorem Safe.bind (hx : Safe x s) (hk : ∀ a s', Leads x s a s' → Safe (k a) s') :
    Safe (x >>= k) s := by
  intro draws m w h
  change EStateM.bind x k _ = _ at h
  unfold EStateM.bind at h
  cases hxa : x ⟨draws, s⟩ with
  | ok a w₁ =>
      rw [hxa] at h
      exact hk a w₁.mem ⟨draws, w₁.draws, hxa⟩ w₁.draws m w h
  | error e w₁ =>
      rw [hxa] at h
      obtain ⟨rfl, -⟩ := EStateM.Result.error.inj h
      exact hx draws m w₁ hxa

/-- Exchange the rest of a command for a safer one. -/
theorem Safe.bind_mono (hx : Fair x) (h : Safe (x >>= k) s)
    (hk : ∀ a s', Safe (k a) s' → Safe (k' a) s') : Safe (x >>= k') s :=
  h.of_bind.bind fun a s' ha => hk a s' (h.rest hx ha)

theorem safe_pure (a : α) : Safe (pure a : Cmd σ α) s := fun _ _ _ h => by cases h

theorem not_safe_panicWith {message : String} : ¬ Safe (panicWith message : Cmd σ α) s :=
  fun h => h [] message _ rfl

theorem Safe.of_ensures {Q : α → σ → Prop} (h : Ensures Dry x s Q) :
    Safe x s := fun draws _ _ hx => by cases h.of_error (w := ⟨draws, s⟩) hx

/-- What a command returns, it leads to. -/
theorem ensures_leads (x : Cmd σ α) (s : σ) : Ensures (fun _ _ => True) x s (Leads x s) := by
  refine ⟨fun draws => ?_⟩
  unfold Runs
  cases hw : x ⟨draws, s⟩ with
  | ok a w => exact ⟨draws, w.draws, hw⟩
  | error e w => trivial

theorem Ensures.of_leads {I : Halt → σ → Prop} {Q : α → σ → Prop} (h : Ensures I x s Q)
    (ha : Leads x s a s') : Q a s' := by
  obtain ⟨draws, rest, hx⟩ := ha
  exact h.of_ok (w := ⟨draws, s⟩) hx

/-- A command that never stops leads somewhere. -/
theorem Ensures.exists_leads {Q : α → σ → Prop} (h : Ensures (fun _ _ => False) x s Q) :
    ∃ a s', Leads x s a s' := by
  obtain ⟨a, w, hx, -⟩ := (h.runs []).exists_ok
  exact ⟨a, w.mem, [], w.draws, hx⟩

theorem Leads.map (h : Leads x s a s') (g : α → β) :
    Leads (x >>= fun a => pure (g a)) s (g a) s' := by
  obtain ⟨draws, rest, hx⟩ := h
  exact ⟨draws, rest, bind_eq_ok.mpr ⟨a, _, hx, rfl⟩⟩

/-! ## Fair commands -/

theorem Fair.pure (a : α) : Fair (pure a : Cmd σ α) where
  followed := by
    rintro s b s' ⟨draws, rest, h⟩ rest'
    obtain ⟨rfl, hw⟩ := EStateM.Result.ok.inj h
    obtain ⟨-, rfl⟩ := World.mk.inj hw
    exact ⟨rest', rfl⟩
  live _ := ⟨a, _, [], [], rfl⟩

theorem Fair.panicWith (message : String) : Fair (panicWith message : Cmd σ α) where
  followed := by
    rintro s b s' ⟨draws, rest, h⟩
    cases h
  live h := absurd h not_safe_panicWith

theorem Fair.bind (hx : Fair x) (hk : ∀ a, Fair (k a)) : Fair (x >>= k) where
  followed := by
    intro s b s' h rest
    obtain ⟨a, s₁, ha, hb⟩ := (leads_bind hx).mp h
    obtain ⟨draws₁, hka⟩ := (hk a).followed hb rest
    obtain ⟨draws, hxa⟩ := hx.followed ha draws₁
    exact ⟨draws, bind_eq_ok.mpr ⟨a, _, hxa, hka⟩⟩
  live := by
    intro s h
    obtain ⟨a, s₁, ha⟩ := hx.live h.of_bind
    obtain ⟨b, s', hb⟩ := (hk a).live (h.rest hx ha)
    exact ⟨b, s', (leads_bind hx).mpr ⟨a, s₁, ha, hb⟩⟩

theorem Fair.ite {c : Prop} [Decidable c] {y : Cmd σ α} (hx : Fair x) (hy : Fair y) :
    Fair (if c then x else y) := by
  split
  · exact hx
  · exact hy

theorem Fair.mem : Fair (mem : Cmd σ σ) where
  followed := by
    rintro s b s' ⟨draws, rest, h⟩ rest'
    obtain ⟨rfl, hw⟩ := EStateM.Result.ok.inj h
    obtain ⟨-, rfl⟩ := World.mk.inj hw
    exact ⟨rest', rfl⟩
  live _ := ⟨_, _, [], [], rfl⟩

theorem Fair.update (f : σ → σ) : Fair (update f) where
  followed := by
    rintro s b s' ⟨draws, rest, h⟩ rest'
    obtain ⟨-, hw⟩ := EStateM.Result.ok.inj h
    obtain ⟨-, rfl⟩ := World.mk.inj hw
    exact ⟨rest', rfl⟩
  live _ := ⟨_, _, [], [], rfl⟩

theorem Fair.draw : Fair (draw : Cmd σ ℕ) where
  followed := by
    rintro s n s' ⟨draws, rest, h⟩ rest'
    cases draws with
    | nil => cases h
    | cons d ds =>
        obtain ⟨rfl, hw⟩ := EStateM.Result.ok.inj h
        obtain ⟨-, rfl⟩ := World.mk.inj hw
        exact ⟨d :: rest', rfl⟩
  live _ := ⟨0, _, [0], [], rfl⟩

theorem Fair.genRange (lo hi : ℕ) : Fair (genRange lo hi : Cmd σ ℕ) :=
  Fair.ite (Fair.draw.bind fun _ => .pure _) (.panicWith _)

theorem Fair.unwrap (o : Option α) : Fair (unwrap o : Cmd σ α) := by
  cases o with
  | none => exact .panicWith _
  | some a => exact .pure a

theorem Fair.choose (l : List α) : Fair (choose l : Cmd σ (Option α)) :=
  Fair.ite (.pure _) ((Fair.genRange _ _).bind fun _ => .pure _)

/-! ## Choices -/

theorem safe_choose (l : List α) : Safe (choose l) s :=
  .of_ensures (Ensures.choose (Q := fun _ _ => True) rfl (fun _ => trivial) fun _ _ => trivial)

theorem leads_choose {l : List α} {o : Option α} (hne : l ≠ []) :
    Leads (choose l) s o s' ↔ s' = s ∧ ∃ a ∈ l, o = some a := by
  constructor
  · intro h
    exact (Ensures.choose (I := fun _ _ => True) (Q := fun o s' => s' = s ∧ ∃ a ∈ l, o = some a)
      trivial (fun hnil => absurd hnil hne) fun a ha => ⟨rfl, a, ha, rfl⟩).of_leads h
  · rintro ⟨rfl, a, ha, rfl⟩
    obtain ⟨i, hi, rfl⟩ := List.getElem_of_mem ha
    refine ⟨[i], [], ?_⟩
    unfold Cmd.choose Cmd.genRange
    rw [if_neg fun h => hne (List.isEmpty_iff.mp h), if_pos (List.length_pos_of_ne_nil hne)]
    have hmod : 0 + i % (l.length - 0) = i := by
      rw [Nat.sub_zero, Nat.zero_add, Nat.mod_eq_of_lt hi]
    change EStateM.Result.ok l[0 + i % (l.length - 0)]? _ = _
    rw [hmod, List.getElem?_eq_getElem hi]

/-- An element that must be there can be any. -/
theorem safe_chooseUnwrap {l : List α} : Safe (do Cmd.unwrap (← Cmd.choose l)) s ↔ l ≠ [] := by
  constructor
  · rintro h rfl
    have hrest := h.rest (Fair.choose []) (a := none) ⟨[], [], rfl⟩
    exact not_safe_panicWith hrest
  · intro hne
    refine (safe_choose l).bind fun o s' ho => ?_
    obtain ⟨rfl, a, -, rfl⟩ := (leads_choose hne).mp ho
    exact safe_pure a

theorem leads_chooseUnwrap {l : List α} (hne : l ≠ []) :
    Leads (do Cmd.unwrap (← Cmd.choose l)) s a s' ↔ s' = s ∧ a ∈ l := by
  rw [leads_bind (Fair.choose l)]
  constructor
  · rintro ⟨o, s₁, ho, draws, rest, h⟩
    obtain ⟨rfl, c, hc, rfl⟩ := (leads_choose hne).mp ho
    obtain ⟨rfl, hw⟩ := EStateM.Result.ok.inj h
    obtain ⟨-, rfl⟩ := World.mk.inj hw
    exact ⟨rfl, hc⟩
  · rintro ⟨rfl, ha⟩
    exact ⟨some a, s', (leads_choose hne).mpr ⟨rfl, a, ha, rfl⟩, [], [], rfl⟩

end Rules

end Cmd
