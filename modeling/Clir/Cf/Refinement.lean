import Clir.Cf.Kinds

set_option autoImplicit false

/-! # Block replacement refines graph substitution

The calls that replace a block, one after the other: a construct function appends the construct,
`update_predecessor` and `update_successor` put it in the place of the block. None of them can
panic, and the edges that come out are those of `Graph.Subst`.
-/

namespace Clir

open Cmd Cursor Graph

section Updates

variable {δ : Type} {w : World (State δ)} {E : Halt → World (State δ) → Prop}
  {f₀ : Function} {L : Placed} {R first last : Block} {t : Terminator Block}

theorem Placed.Ok.last_fst (hL : L.Ok first last) : last ∈ L.map Prod.fst :=
  List.mem_map.mpr ⟨_, hL.last_mem, rfl⟩

/-- `update_predecessor` after a construct was appended. -/
theorem updatePredecessor_appended (h₀ : f₀.BranchesOk) (hL : L.Ok first last)
    (hA : Appended f₀ w.mem.func L) (hR : R ∈ f₀.layout.blocks) :
    Runs (updatePredecessor first R) w
      (fun _ w' => Redirected f₀ w'.mem.func L R first ∧ Quiet w w') E := by
  have hne : first ≠ R := fun e => hA.notMem_of_mem hR (e ▸ hL.first_mem)
  refine (updatePredecessor_spec hne (hA.brif_ne h₀ hL)).weaken ?_
  rintro _ w' ⟨hedit, hterm, hquiet⟩
  exact ⟨hA.redirected hedit hterm, hquiet⟩

/-- The replaced block still has the branch it had, up to the renaming, and so it can be
replaced. -/
theorem Redirected.replaceable {f₂ : Function} (h : Redirected f₀ f₂ L R first)
    (h₀ : f₀.BranchesOk) (hfirst : f₀.dfg.blocks.len ≤ first) (hR : R ∈ f₀.layout.blocks)
    (hRL : R ∉ L.map Prod.fst) (hone : (f₀.layout.insts R).length = 1)
    (ht : f₀.terminator R = some t) : Replaceable f₂ R (t.rename R first) where
  mem := by
    rw [h.blocks]
    exact List.mem_append_left _ hR
  one := (h.length_old R hRL).trans hone
  terminator := by rw [h.terminator_old R hRL, ht, Option.map_some]
  -- the renaming could only merge both arms if one of them were the new block
  brif v x y hxy := by
    cases t with
    | brif v' x' y' =>
        obtain ⟨-, rfl, rfl⟩ : v' = v ∧ redirect R first x' = x ∧ redirect R first y' = y := by
          simpa [Terminator.rename, Terminator.map] using hxy
        have hx : x' ≠ first := Nat.ne_of_lt
          (lt_of_lt_of_le (h₀.made R _ ht x' (by simp [Terminator.targets])) hfirst)
        have hy : y' ≠ first := Nat.ne_of_lt
          (lt_of_lt_of_le (h₀.made R _ ht y' (by simp [Terminator.targets])) hfirst)
        have hne := h₀.brif R v' x' y' ht
        by_cases hxR : x' = R
        · have hyR : y' ≠ R := fun e => hne (hxR.trans e.symm)
          rw [hxR, redirect_self, redirect_of_ne hyR]
          exact hy.symm
        · rw [redirect_of_ne hxR]
          by_cases hyR : y' = R
          · rw [hyR, redirect_self]
            exact hx
          · rwa [redirect_of_ne hyR]
    | jump d => simp [Terminator.rename, Terminator.map] at hxy
    | brTable v' d cs => simp [Terminator.rename, Terminator.map] at hxy
  table hkind := by
    have hnew : first ∉ t.targets := fun hm =>
      Nat.not_lt.mpr hfirst (h₀.made R t ht first hm)
    rw [Terminator.rename_dedup_length hnew]
    rw [Terminator.isTable_iff, Terminator.rename_kind, ← Terminator.isTable_iff] at hkind
    exact h₀.table R t ht hkind

/-- `update_successor` after `update_predecessor`. -/
theorem updateSuccessor_redirected (h₀ : f₀.BranchesOk) (hL : L.Ok first last)
    (hfresh : ∀ b ∈ L.map Prod.fst, f₀.dfg.blocks.len ≤ b) (hnodup : (L.map Prod.fst).Nodup)
    (hA : Redirected f₀ w.mem.func L R first) (hR : R ∈ f₀.layout.blocks)
    (hone : (f₀.layout.insts R).length = 1) (ht : f₀.terminator R = some t) :
    Runs (updateSuccessor last R) w
      (fun _ w' => Substituted f₀ w'.mem.func L R first last t ∧ Quiet w w') E := by
  have hout : ∀ b ∈ L.map Prod.fst, b ∉ f₀.layout.blocks := fun b hb hm =>
    Nat.not_lt.mpr (hfresh b hb) (f₀.blocks_lt b hm)
  have hRL : R ∉ L.map Prod.fst := fun hm => hout R hm hR
  have hlast := hL.last_fst
  have hrep := hA.replaceable h₀ (hfresh first hL.first_mem) hR hRL hone ht
  have hmem : last ∈ w.mem.func.layout.blocks := by
    rw [hA.blocks]
    exact List.mem_append_right _ hlast
  have hempty : w.mem.func.layout.insts last = [] := by
    have := hA.length_new _ hL.last_mem
    exact List.length_eq_zero_iff.mp (by simpa using this)
  have hne : last ≠ R := fun e => hRL (e ▸ hlast)
  refine (updateSuccessor_spec hrep hmem hne hempty hA.tables).weaken ?_
  rintro _ w' ⟨⟨s, hmoved, hkind, harg, htargets⟩, hquiet⟩
  exact ⟨hA.substituted hL hout hR hnodup ht hmoved hkind harg htargets, hquiet⟩

end Updates

/-! ## The refinement theorem -/

/-- The block is empty, or it ends in a jump, a conditional branch with two different arms or a
table with at least three destinations, and what the branch names exists. -/
def Function.EndsWell (f : Function) (b : Block) : Prop :=
  match (f.layout.lastInst b).map f.instData with
  | none => True
  | some (.jump c) => c.block < f.dfg.blocks.len
  | some (.brif _ c d) =>
      c.block ≠ d.block ∧ c.block < f.dfg.blocks.len ∧ d.block < f.dfg.blocks.len
  | some (.branchTable _ k) =>
      k < f.dfg.jumpTables.len ∧
        3 ≤ ((f.dfg.jumpTables.get k).allBranches.map BlockCall.block).dedup.length ∧
        ∀ c ∈ (f.dfg.jumpTables.get k).allBranches, c.block < f.dfg.blocks.len
  | some _ => False

instance (f : Function) (b : Block) : Decidable (f.EndsWell b) := by
  unfold Function.EndsWell
  split <;> infer_instance

theorem Function.EndsWell.terminator {f : Function} {b : Block} {t : Terminator Block}
    (h : f.EndsWell b) (ht : f.terminator b = some t) :
    (∀ v x y, t = .brif v x y → x ≠ y) ∧ (t.isTable → 3 ≤ t.targets.dedup.length) ∧
      ∀ x ∈ t.targets, x < f.dfg.blocks.len := by
  obtain ⟨i, t', hi, hbr, rfl⟩ := exists_of_terminator ht
  rw [EndsWell, hi, Option.map_some] at h
  cases hdata : f.instData i <;> rw [hdata] at h hbr <;>
    simp only [branchOf, Option.some.injEq, reduceCtorEq] at hbr <;> subst hbr
  case jump c => simpa [Terminator.map, Terminator.targets, Terminator.isTable] using h
  case brif v c d =>
    simpa [Terminator.map, Terminator.targets, Terminator.isTable] using h
  case branchTable v k =>
    obtain ⟨-, hlen, hmade⟩ := h
    refine ⟨by simp [Terminator.map], fun _ => hlen, ?_⟩
    rw [Terminator.targets_map]
    intro x hx
    obtain ⟨c, hc, rfl⟩ := List.mem_map.mp hx
    exact hmade c hc

theorem Function.branchesOk_of_endsWell {f : Function}
    (h : ∀ b ∈ f.layout.blocks, f.EndsWell b) : f.BranchesOk := by
  have hlast : ∀ b i, f.layout.lastInst b = some i → f.EndsWell b := fun b i hi =>
    h b (Layout.mem_blocks_of_mem_insts (List.mem_of_mem_getLast? hi))
  have hterm : ∀ b t, f.terminator b = some t → f.EndsWell b := fun b t ht =>
    (exists_of_terminator ht).elim fun i ⟨_, hi, _⟩ => hlast b i hi
  refine ⟨?_, ?_, ?_, ?_⟩
  · intro b k hk
    obtain ⟨i, v, hi, hdata⟩ := tableOf_eq_some.mp hk
    have := hlast b i hi
    rw [EndsWell, hi, Option.map_some, hdata] at this
    exact this.1
  · intro b v x y ht
    exact ((hterm b _ ht).terminator ht).1 v x y rfl
  · intro b t ht
    exact ((hterm b t ht).terminator ht).2.1
  · intro b t ht
    exact ((hterm b t ht).terminator ht).2.2

/-- A block with an instruction that ends well has a branch. -/
theorem Function.EndsWell.exists_terminator {f : Function} {b : Block} (h : f.EndsWell b)
    (hone : (f.layout.insts b).length = 1) : ∃ t, f.terminator b = some t := by
  obtain ⟨i, hi⟩ := List.length_eq_one_iff.mp hone
  have hlast : f.layout.lastInst b = some i := by simp [Layout.lastInst, hi]
  rw [EndsWell, hlast, Option.map_some] at h
  rw [terminator_of_lastInst hlast]
  cases hdata : f.instData i <;> rw [hdata] at h
  case jump | brif | branchTable => exact ⟨_, rfl⟩
  all_goals exact h.elim

theorem Appended.new_edge_iff {f₀ f : Function} {L : Placed} (h : Appended f₀ f L) {u v : Block} :
    L.Edge u v ↔ u ∉ f₀.layout.blocks ∧ f.Edge u v := by
  rw [h.edge_iff]
  constructor
  · rintro ⟨t, hp, hv⟩
    exact ⟨fun hm => h.notMem_of_mem hm (List.mem_map.mpr ⟨_, hp, rfl⟩), .inl ⟨t, hp, hv⟩⟩
  · rintro ⟨hu, he | he⟩
    · exact he
    · exact absurd he.mem_blocks hu

theorem Substituted.no_edge_to {f₀ f : Function} {L : Placed} {R first last : Block}
    {t : Terminator Block} (h : Substituted f₀ f L R first last t) (hL : L.Ok first last)
    (hR : R ∈ f₀.layout.blocks) (hRL : R ∉ L.map Prod.fst) (ht : f₀.terminator R = some t)
    (u : Block) : ¬ f.Edge u R := by
  rw [h.edge_iff hL hR ht]
  rintro (⟨s, hp, hv⟩ | ⟨a, b, -, -, hb⟩)
  · exact hRL (hL.closed u s hp R hv)
  · by_cases hbR : b = R
    · rw [hbR, redirect_self] at hb
      exact hRL (hb ▸ hL.first_mem)
    · exact hbR ((redirect_of_ne hbR).symm.trans hb)

/-- **Replacing a block refines graph substitution.** A construct `k` is appended and put in the
place of `R`: no call panics, `R` is gone from the layout and from every branch, and the edges are
those of the old graph with the construct substituted for `R`. -/
theorem replacement_refines_subst {δ : Type} (k : ConstructKind) (hk : k.Valid)
    (w : World (State δ)) (hw : ∀ b ∈ w.mem.func.layout.blocks, w.mem.func.EndsWell b)
    (R : Block) (hR : R ∈ w.mem.func.layout.blocks)
    (hone : (w.mem.func.layout.insts R).length = 1) :
    ∃ c w₁ first last w₂ w₃,
      k.make w = .ok c w₁ ∧ c.getFirstBlock w₁ = .ok first w₁ ∧
      c.getLastBlock w₁ = .ok last w₁ ∧ w₁.mem.func.layout.insts last = [] ∧
      updatePredecessor first R w₁ = .ok () w₂ ∧ updateSuccessor last R w₂ = .ok () w₃ ∧
      R ∉ w₃.mem.func.layout.blocks ∧ (∀ u, ¬ w₃.mem.func.Edge u R) ∧
      ∀ u v, w₃.mem.func.Edge u v ↔
        Subst w.mem.func.Edge (fun a b => a ∉ w.mem.func.layout.blocks ∧ w₁.mem.func.Edge a b)
          R first last u v := by
  have h₀ := Function.branchesOk_of_endsWell hw
  obtain ⟨t, ht⟩ := (hw R hR).exists_terminator hone
  -- the three calls, in the order of the source
  obtain ⟨c, w₁, hmake, rfl, hA, -⟩ := (k.make_spec hk h₀.tables (w := w)).exists_ok
  have hL := k.placed_ok hk w.mem.func.dfg.blocks.len w.mem.func.dfg.values.len
  obtain ⟨⟨⟩, w₂, hpred, hRd, -⟩ := (updatePredecessor_appended h₀ hL hA hR).exists_ok
  have hfresh : ∀ b ∈ (k.placed w.mem.func.dfg.blocks.len w.mem.func.dfg.values.len).map Prod.fst,
      w.mem.func.dfg.blocks.len ≤ b := by
    intro b hb
    obtain ⟨p, hp, rfl⟩ := List.mem_map.mp hb
    exact hA.fresh p hp
  obtain ⟨⟨⟩, w₃, hsucc, hS, -⟩ :=
    (updateSuccessor_redirected h₀ hL hfresh hA.nodup hRd hR hone ht).exists_ok
  refine ⟨_, w₁, _, _, w₂, w₃, hmake, ?_, ?_, ?_, hpred, hsucc, ?_, ?_, ?_⟩
  · exact ConstructKind.getFirstBlock_eq hk _
  · exact ConstructKind.getLastBlock_eq hk _
  · have := hA.length _ hL.last_mem
    exact List.length_eq_zero_iff.mp (by simpa using this)
  · rw [hS.blocks, List.mem_append, not_or]
    exact ⟨w.mem.func.layout.blocks_nodup.not_mem_erase, hA.notMem_of_mem hR⟩
  · exact hS.no_edge_to hL hR (hA.notMem_of_mem hR) ht
  · intro u v
    rw [hS.edge_iff hL hR ht]
    simp only [Subst, hA.new_edge_iff]

/-- A loop between an entry block `0` and an end block `1`. -/
def loopWorld : World (State Unit) :=
  match (do
      let entryBlock ← makeBlock
      let endBlock ← makeBlock
      Cursor.new
      insertBlock entryBlock
      insertBlock endBlock
      let _ ← whileBlocks
      gotoBottom entryBlock
      insJump 2
      gotoBottom 4
      insJump endBlock : M Unit Unit) ⟨[], Function.new (.user 0 0) ⟨[], []⟩, .nowhere, ()⟩ with
  | .ok _ w => w
  | .error _ w => w

/-- The head of the loop, which its own body branches to, replaced by a switch. -/
theorem replacement_refines_subst_loopHead :
    ∃ c w₁ first last w₂ w₃,
      (ConstructKind.switch 2).make loopWorld = .ok c w₁ ∧ c.getFirstBlock w₁ = .ok first w₁ ∧
      c.getLastBlock w₁ = .ok last w₁ ∧ w₁.mem.func.layout.insts last = [] ∧
      updatePredecessor first 2 w₁ = .ok () w₂ ∧ updateSuccessor last 2 w₂ = .ok () w₃ ∧
      2 ∉ w₃.mem.func.layout.blocks ∧ (∀ u, ¬ w₃.mem.func.Edge u 2) ∧
      ∀ u v, w₃.mem.func.Edge u v ↔
        Subst loopWorld.mem.func.Edge
          (fun a b => a ∉ loopWorld.mem.func.layout.blocks ∧ w₁.mem.func.Edge a b)
          2 first last u v :=
  replacement_refines_subst (.switch 2) trivial loopWorld (by decide +kernel) 2
    (by decide +kernel) (by decide +kernel)

end Clir
