import Mathlib.Logic.Relation
import Mathlib.Logic.Function.Basic
import Mathlib.Data.Set.Basic
import Mathlib.Data.List.MinMax
import Mathlib.Tactic.Common

set_option autoImplicit false

/-! # Flow graphs: walks, dominance, reducibility

A directed graph is a relation `E` on an arbitrary type. This file has what a proof about
control flow needs of it: walks with the nodes they visit, dominance from a root, and a rank
criterion for reducibility.
-/

namespace Graph

open Relation

variable {α : Type*}

/-! ## Walks and dominance -/

/-- A walk from `a`, with the nodes it visits, the last one first. -/
inductive Walk (E : α → α → Prop) (a : α) : α → List α → Prop
  | start : Walk E a a [a]
  | step {b c : α} {p : List α} : Walk E a b p → E b c → Walk E a c (c :: p)

/-- `d` dominates `x`: every walk from the root `r` to `x` visits `d`. -/
def Dominates (E : α → α → Prop) (r d x : α) : Prop :=
  ∀ p, Walk E r x p → d ∈ p

/-- `d` dominates `x` and is another node. -/
def StrictlyDominates (E : α → α → Prop) (r d x : α) : Prop :=
  Dominates E r d x ∧ d ≠ x

/-- A cycle: a walk of at least one edge that ends where it starts. -/
def Cycle (E : α → α → Prop) (p : List α) : Prop :=
  ∃ a, Walk E a a p ∧ 2 ≤ p.length

/-- Every cycle has a node that dominates the whole cycle. -/
def Reducible (E : α → α → Prop) (r : α) : Prop :=
  ∀ p, Cycle E p → ∃ h ∈ p, ∀ x ∈ p, Dominates E r h x

section Walks

variable {E : α → α → Prop} {r a b c d x : α} {p q : List α}

theorem Walk.last_mem (h : Walk E a b p) : b ∈ p := by
  cases h <;> simp

theorem Walk.first_mem (h : Walk E a b p) : a ∈ p := by
  induction h with
  | start => simp
  | step _ _ ih => exact List.mem_cons_of_mem _ ih

theorem exists_walk_of_reach (h : ReflTransGen E a b) : ∃ p, Walk E a b p := by
  induction h with
  | refl => exact ⟨_, .start⟩
  | tail _ he ih =>
      obtain ⟨p, hp⟩ := ih
      exact ⟨_, .step hp he⟩

theorem Walk.reach (h : Walk E a b p) : ReflTransGen E a b := by
  induction h with
  | start => exact .refl
  | step _ he ih => exact ih.tail he

/-- Any two nodes of a walk, the first no later than the second, are joined inside it. Stated
for the two ends: from the start to any node, and from any node to the end. -/
theorem Walk.split (h : Walk E a b p) (hx : x ∈ p) :
    ReflTransGen (fun u v => E u v ∧ u ∈ p ∧ v ∈ p) a x ∧
      ReflTransGen (fun u v => E u v ∧ u ∈ p ∧ v ∈ p) x b := by
  induction h generalizing x with
  | start =>
      obtain rfl : x = a := by simpa using hx
      exact ⟨.refl, .refl⟩
  | @step b c p hw he ih =>
      have widen : ∀ u v, (E u v ∧ u ∈ p ∧ v ∈ p) → (E u v ∧ u ∈ c :: p ∧ v ∈ c :: p) :=
        fun u v ⟨h₁, h₂, h₃⟩ => ⟨h₁, List.mem_cons_of_mem _ h₂, List.mem_cons_of_mem _ h₃⟩
      have last : E b c ∧ b ∈ c :: p ∧ c ∈ c :: p :=
        ⟨he, List.mem_cons_of_mem _ hw.last_mem, List.mem_cons_self⟩
      rcases List.mem_cons.mp hx with rfl | hx
      · exact ⟨.tail (.mono widen _ _ (ih hw.last_mem).1) last, .refl⟩
      · exact ⟨.mono widen _ _ (ih hx).1, .tail (.mono widen _ _ (ih hx).2) last⟩

theorem Dominates.refl (E : α → α → Prop) (r x : α) : Dominates E r x x :=
  fun _ hp => hp.last_mem

/-- A dominator of `c` other than `c` dominates every predecessor of `c`. -/
theorem Dominates.pred (h : Dominates E r d c) (hne : d ≠ c) (he : E b c) :
    Dominates E r d b := by
  intro p hp
  exact (List.mem_cons.mp (h _ (.step hp he))).resolve_left hne

/-- **Sets closed under "my predecessors have it" are sets of dominators.** If `S r` holds at
most `r`, and every element of `S c` other than `c` is in `S b` for each edge `b → c` that can be
reached, then `S x` consists of dominators of `x`. -/
theorem dominates_of_postfixed (S : α → Set α) (hroot : S r ⊆ {r})
    (hstep : ∀ b c, c ≠ r → ReflTransGen E r b → E b c → S c ⊆ insert c (S b)) (hd : d ∈ S x) :
    Dominates E r d x := by
  intro p hp
  induction hp generalizing d with
  | start => exact List.mem_singleton.mpr (hroot hd)
  | @step b c p hw he ih =>
      by_cases hc : c = r
      · subst hc
        obtain rfl : d = c := hroot hd
        exact List.mem_cons_self
      · rcases hstep b c hc hw.reach he hd with rfl | hd
        · exact List.mem_cons_self
        · exact List.mem_cons_of_mem _ (ih hd)

end Walks

/-! ## A rank criterion for reducibility -/

section Reducible

variable {E : α → α → Prop} {r : α}

private theorem dominates_of_min_rank (rk : α → ℕ)
    (hrk : ∀ u v, E u v → rk u < rk v ∨ Dominates E r v u) {p : List α} {h x : α}
    (hmin : ∀ y ∈ p, rk h ≤ rk y)
    (hx : ReflTransGen (fun u v => E u v ∧ u ∈ p ∧ v ∈ p) x h) : Dominates E r h x := by
  induction hx using ReflTransGen.head_induction_on with
  | refl => exact Dominates.refl E r h
  | @head u v huv _ ih =>
      obtain ⟨he, hu, -⟩ := huv
      by_cases hv : h = v
      · -- an edge into the lowest node cannot go up, so it is a back edge
        subst hv
        exact (hrk u h he).resolve_left (not_lt.mpr (hmin u hu))
      · exact ih.pred hv he

/-- **Ranked graphs are reducible.** If every edge goes up in rank or leads to a dominator of
its source, the lowest node of a cycle dominates the cycle. -/
theorem reducible_of_rank (rk : α → ℕ)
    (hrk : ∀ u v, E u v → rk u < rk v ∨ Dominates E r v u) : Reducible E r := by
  rintro p ⟨a, hp, -⟩
  obtain ⟨h, hh⟩ : ∃ h, h ∈ p.argmin rk := by
    refine Option.isSome_iff_exists.mp (Option.isSome_iff_ne_none.mpr ?_)
    exact fun hnone => List.ne_nil_of_mem hp.first_mem (List.argmin_eq_none.mp hnone)
  have hmem : h ∈ p := List.argmin_mem hh
  refine ⟨h, hmem, fun x hx => ?_⟩
  refine dominates_of_min_rank rk hrk (fun y hy => List.le_of_mem_argmin hy hh) ?_
  exact (hp.split hx).2.trans (hp.split hmem).1

end Reducible

end Graph
