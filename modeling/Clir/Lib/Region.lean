import Clir.Lib.Graph
import Mathlib.Order.CompletePartialOrder
import Mathlib.Tactic.Ring
import Mathlib.Tactic.Linarith

set_option autoImplicit false

/-! # Replacing a node by a region

A *region* is a graph with one entry `f` and one exit `l`. Substituting it for a node `R`
sends the edges into `R` to `f` and lets the edges out of `R` start at `l`; an edge `R → R`
becomes `l → f`. The substitution keeps what makes a graph a good control flow graph
(`FlowGraph`): every node lies between the root and the exit, and a rank witnesses that the
graph is reducible.
-/

namespace Graph

open Relation Classical

variable {α : Type*}

/-- A region on the nodes `N`, entered at `f` and left at `l`. Its edges go up in rank, except
that an edge may lead back to the entry. -/
structure Region (H : α → α → Prop) (N : Set α) (f l : α) : Prop where
  first_mem : f ∈ N
  last_mem : l ∈ N
  edge_mem : ∀ u v, H u v → u ∈ N ∧ v ∈ N
  reach : ∀ x ∈ N, ReflTransGen H f x
  coreach : ∀ x ∈ N, ReflTransGen H x l
  ranked : ∃ (rk : α → ℕ) (K : ℕ), (∀ x ∈ N, rk x < K) ∧
    ∀ u v, H u v → rk u < rk v ∨ v = f

/-- Two measures make a region: one that edges not leading back to the entry increase and that
some predecessor of every other node lowers, and one that some successor lowers. -/
theorem Region.of_measures {H : α → α → Prop} {N : Set α} {f l : α} (rk co : α → ℕ) (K : ℕ)
    (first_mem : f ∈ N) (last_mem : l ∈ N) (edge_mem : ∀ u v, H u v → u ∈ N ∧ v ∈ N)
    (bound : ∀ x ∈ N, rk x < K) (up : ∀ u v, H u v → rk u < rk v ∨ v = f)
    (pred : ∀ x ∈ N, x ≠ f → ∃ y, H y x ∧ rk y < rk x)
    (succ : ∀ x ∈ N, x ≠ l → ∃ y, H x y ∧ co y < co x) : Region H N f l where
  first_mem := first_mem
  last_mem := last_mem
  edge_mem := edge_mem
  ranked := ⟨rk, K, bound, up⟩
  -- back along the predecessors, which have lower ranks
  reach x hx := by
    induction hn : rk x using Nat.strong_induction_on generalizing x with
    | h n ih =>
        by_cases hxf : x = f
        · rw [hxf]
        · obtain ⟨y, hyx, hlt⟩ := pred x hx hxf
          exact (ih (rk y) (hn ▸ hlt) y (edge_mem y x hyx).1 rfl).tail hyx
  -- and on along the successors that the other measure picks
  coreach x hx := by
    induction hn : co x using Nat.strong_induction_on generalizing x with
    | h n ih =>
        by_cases hxl : x = l
        · rw [hxl]
        · obtain ⟨y, hxy, hlt⟩ := succ x hx hxl
          exact (ih (co y) (hn ▸ hlt) y (edge_mem x y hxy).2 rfl).head hxy

/-- A control flow graph on the nodes `V` with root `r` and exit `t`. -/
structure FlowGraph (E : α → α → Prop) (V : Set α) (r t : α) : Prop where
  root_mem : r ∈ V
  exit_mem : t ∈ V
  edge_mem : ∀ u v, E u v → u ∈ V ∧ v ∈ V
  no_pred : ∀ u, ¬ E u r
  no_succ : ∀ v, ¬ E t v
  reach : ∀ x ∈ V, ReflTransGen E r x
  coreach : ∀ x ∈ V, ReflTransGen E x t
  ranked : ∃ rk : α → ℕ, ∀ u v, E u v → rk u < rk v ∨ Dominates E r v u

theorem FlowGraph.reducible {E : α → α → Prop} {V : Set α} {r t : α}
    (h : FlowGraph E V r t) : Reducible E r := by
  obtain ⟨rk, hrk⟩ := h.ranked
  exact reducible_of_rank rk hrk

theorem FlowGraph.congr {E F : α → α → Prop} {V W : Set α} {r t : α}
    (h : FlowGraph E V r t) (hE : ∀ u v, E u v ↔ F u v) (hV : ∀ x, x ∈ V ↔ x ∈ W) :
    FlowGraph F W r t := by
  obtain rfl : E = F := funext₂ fun u v => propext (hE u v)
  obtain rfl : V = W := Set.ext hV
  exact h

section Substitution

variable [DecidableEq α]

/-- `R` becomes `a`, every other node stays. -/
def redirect (R a : α) : α → α := Function.update id R a

@[simp] theorem redirect_self (R a : α) : redirect R a R = a := by
  simp [redirect]

theorem redirect_of_ne {R a x : α} (h : x ≠ R) : redirect R a x = x := by
  simp [redirect, h]

/-- The graph `E` with the node `R` replaced by the region `H` from `f` to `l`. -/
def Subst (E H : α → α → Prop) (R f l u v : α) : Prop :=
  H u v ∨ ∃ a b, E a b ∧ redirect R l a = u ∧ redirect R f b = v

variable {E H : α → α → Prop} {V N : Set α} {r t R f l : α}

theorem Subst.region {u v : α} (h : H u v) : Subst E H R f l u v := .inl h

theorem Subst.edge {a b : α} (h : E a b) :
    Subst E H R f l (redirect R l a) (redirect R f b) := .inr ⟨a, b, h, rfl, rfl⟩

/-- Walks of `E` lift: a visit of `R` becomes a crossing of the region. -/
theorem Subst.reach_of_reach (hreg : ReflTransGen H f l) {a b : α}
    (h : ReflTransGen E a b) :
    ReflTransGen (Subst E H R f l) (redirect R f a) (redirect R l b) := by
  have cross : ∀ x, ReflTransGen (Subst E H R f l) (redirect R f x) (redirect R l x) := by
    intro x
    by_cases hx : x = R
    · subst hx
      simpa using ReflTransGen.mono (fun _ _ => Subst.region) _ _ hreg
    · rw [redirect_of_ne hx, redirect_of_ne hx]
  induction h with
  | refl => exact cross a
  | tail _ he ih => exact (ih.tail (Subst.edge he)).trans (cross _)

/-- The node of `E` that a node of the new graph stands for. -/
private noncomputable def collapse (N : Set α) (R x : α) : α := if x ∈ N then R else x

private theorem collapse_redirect (hN : Disjoint N V) {a m : α} (ha : a ∈ V) (hm : m ∈ N) :
    collapse N R (redirect R m a) = a := by
  by_cases h : a = R
  · subst h
    simp [collapse, hm]
  · have : a ∉ N := fun haN => Set.disjoint_left.mp hN haN ha
    simp [collapse, redirect_of_ne h, this]

/-- Walks of the new graph project: nodes other than `R` are visited by both, and where the
projection visits `R` the walk itself has entered the region, which it can do only at `f`. -/
private theorem walk_collapse (hE : ∀ u v, E u v → u ∈ V ∧ v ∈ V) (hN : Disjoint N V)
    (hH : Region H N f l) (hr : r ∈ V) (hrR : r ≠ R) {x : α} {p : List α}
    (h : Walk (Subst E H R f l) r x p) :
    ∃ q, Walk E r (collapse N R x) q ∧ (∀ y ∈ q, y ≠ R → y ∈ p) ∧ (R ∈ q → f ∈ p) := by
  induction h with
  | start =>
      have : r ∉ N := fun hrN => Set.disjoint_left.mp hN hrN hr
      refine ⟨[r], ?_, fun y hy _ => hy, fun hR => ?_⟩
      · rw [collapse, if_neg this]
        exact .start
      · exact absurd (List.mem_singleton.mp hR).symm hrR
  | @step b c p _ he ih =>
      obtain ⟨q, hq, hmem, hfirst⟩ := ih
      rcases he with he | ⟨a, b', he, rfl, rfl⟩
      · -- an edge of the region projects to standing still at `R`
        obtain ⟨hb, hc⟩ := hH.edge_mem _ _ he
        refine ⟨q, ?_, fun y hy hne => List.mem_cons_of_mem _ (hmem y hy hne),
          fun hR => List.mem_cons_of_mem _ (hfirst hR)⟩
        rw [collapse, if_pos hb] at hq
        rwa [collapse, if_pos hc]
      · obtain ⟨ha, hb'⟩ := hE a b' he
        rw [collapse_redirect hN ha hH.last_mem] at hq
        refine ⟨b' :: q, ?_, ?_, ?_⟩
        · rw [collapse_redirect hN hb' hH.first_mem]
          exact .step hq he
        · intro y hy hne
          rcases List.mem_cons.mp hy with rfl | hy
          · rw [redirect_of_ne hne]
            exact List.mem_cons_self
          · exact List.mem_cons_of_mem _ (hmem y hy hne)
        · intro hR
          rcases List.mem_cons.mp hR with rfl | hR
          · rw [redirect_self]
            exact List.mem_cons_self
          · exact List.mem_cons_of_mem _ (hfirst hR)

private theorem subst_dominates_of_ne (hG : FlowGraph E V r t) (hN : Disjoint N V)
    (hH : Region H N f l) (hrR : r ≠ R) {d x : α} (hd : d ≠ R)
    (h : Dominates E r d (collapse N R x)) : Dominates (Subst E H R f l) r d x := by
  intro p hp
  obtain ⟨q, hq, hmem, -⟩ := walk_collapse hG.edge_mem hN hH hG.root_mem hrR hp
  exact hmem d (h q hq) hd

private theorem subst_dominates_first (hG : FlowGraph E V r t) (hN : Disjoint N V)
    (hH : Region H N f l) (hrR : r ≠ R) {x : α}
    (h : Dominates E r R (collapse N R x)) : Dominates (Subst E H R f l) r f x := by
  intro p hp
  obtain ⟨q, hq, -, hfirst⟩ := walk_collapse hG.edge_mem hN hH hG.root_mem hrR hp
  exact hfirst (h q hq)

/-- The rank of the new graph: the old ranks are spread out by the height `K` of the region,
and the region's own ranks fill the gap above `R`. -/
private noncomputable def substRank (N : Set α) (R : α) (rk rkH : α → ℕ) (K : ℕ) (x : α) : ℕ :=
  if x ∈ N then rk R * K + rkH x else rk x * K

omit [DecidableEq α] in
private theorem substRank_bounds (rk : α → ℕ) {rkH : α → ℕ} {K : ℕ}
    (hK : ∀ x ∈ N, rkH x < K) (hK0 : 0 < K) (x : α) :
    rk (collapse N R x) * K ≤ substRank N R rk rkH K x ∧
      substRank N R rk rkH K x < (rk (collapse N R x) + 1) * K := by
  by_cases hx : x ∈ N
  · have := hK x hx
    simp only [substRank, collapse, if_pos hx, Nat.add_mul]
    omega
  · simp only [substRank, collapse, if_neg hx, Nat.add_mul]
    omega

private theorem subst_ranked (hG : FlowGraph E V r t) (hN : Disjoint N V)
    (hH : Region H N f l) (hrR : r ≠ R) :
    ∃ rk : α → ℕ, ∀ u v, Subst E H R f l u v →
      rk u < rk v ∨ Dominates (Subst E H R f l) r v u := by
  obtain ⟨rk, hrk⟩ := hG.ranked
  obtain ⟨rkH, K, hK, hrkH⟩ := hH.ranked
  have hK0 : 0 < K := (Nat.zero_le _).trans_lt (hK f hH.first_mem)
  -- each rank of the old graph leaves room for the ranks of the region
  refine ⟨substRank N R rk rkH K, ?_⟩
  rintro u v (he | ⟨a, b, he, rfl, rfl⟩)
  -- an edge of the region: forward, or back to its first node
  · obtain ⟨hu, hv⟩ := hH.edge_mem u v he
    rcases hrkH u v he with h | rfl
    · left
      simp only [substRank, if_pos hu, if_pos hv]
      omega
    · right
      refine subst_dominates_first hG hN hH hrR ?_
      rw [collapse, if_pos hu]
      exact Dominates.refl E r R
  -- an edge of the old graph: forward, or back to a dominator, which stays one
  · obtain ⟨ha, hb⟩ := hG.edge_mem a b he
    have hca := collapse_redirect (R := R) hN ha hH.last_mem
    have hcb := collapse_redirect (R := R) hN hb hH.first_mem
    rcases hrk a b he with h | h
    · left
      have hua := (substRank_bounds (R := R) rk hK hK0 (redirect R l a)).2
      have hvb := (substRank_bounds (R := R) rk hK hK0 (redirect R f b)).1
      rw [hca] at hua
      rw [hcb] at hvb
      calc substRank N R rk rkH K (redirect R l a) < (rk a + 1) * K := hua
        _ ≤ rk b * K := Nat.mul_le_mul_right K h
        _ ≤ substRank N R rk rkH K (redirect R f b) := hvb
    · right
      by_cases hbR : b = R
      · subst hbR
        rw [redirect_self]
        exact subst_dominates_first hG hN hH hrR (by rwa [hca])
      · rw [redirect_of_ne hbR]
        exact subst_dominates_of_ne hG hN hH hrR hbR (by rwa [hca])

/-- **Substitution keeps flow graphs.** Replacing an inner node by a region whose nodes are new
gives a flow graph again, with the same root and the same exit. -/
theorem FlowGraph.subst (hG : FlowGraph E V r t) (hR : R ∈ V) (hrR : r ≠ R) (htR : t ≠ R)
    (hH : Region H N f l) (hN : Disjoint N V) :
    FlowGraph (Subst E H R f l) (V \ {R} ∪ N) r t := by
  have hnotN : ∀ x ∈ V, x ∉ N := fun x hx hxN => Set.disjoint_left.mp hN hxN hx
  have lift : ∀ {a b}, ReflTransGen H a b → ReflTransGen (Subst E H R f l) a b :=
    fun h => ReflTransGen.mono (fun _ _ => Subst.region) _ _ h
  have cross := hH.reach l hH.last_mem
  have mem_out : ∀ a ∈ V, redirect R l a ∈ V \ {R} ∪ N := by
    intro a ha
    by_cases h : a = R
    · exact .inr (by simpa [h] using hH.last_mem)
    · exact .inl (by simpa [redirect_of_ne h] using ⟨ha, h⟩)
  have mem_in : ∀ b ∈ V, redirect R f b ∈ V \ {R} ∪ N := by
    intro b hb
    by_cases h : b = R
    · exact .inr (by simpa [h] using hH.first_mem)
    · exact .inl (by simpa [redirect_of_ne h] using ⟨hb, h⟩)
  have toFirst : ReflTransGen (Subst E H R f l) r f := by
    -- the last edge into `R` becomes an edge into `f`
    rcases ReflTransGen.cases_tail (hG.reach R hR) with h | ⟨c, hrc, hcR⟩
    · exact absurd h.symm hrR
    · have h := Subst.reach_of_reach (R := R) cross hrc
      rw [redirect_of_ne hrR] at h
      exact h.tail (by simpa using Subst.edge (R := R) (f := f) (l := l) (H := H) hcR)
  have fromLast : ReflTransGen (Subst E H R f l) l t := by
    rcases ReflTransGen.cases_head (hG.coreach R hR) with h | ⟨c, hRc, hct⟩
    · exact absurd h.symm htR
    · have h := Subst.reach_of_reach (R := R) cross hct
      rw [redirect_of_ne htR] at h
      exact h.head (by simpa using Subst.edge (R := R) (f := f) (l := l) (H := H) hRc)
  refine ⟨.inl ⟨hG.root_mem, hrR⟩, .inl ⟨hG.exit_mem, htR⟩, ?_, ?_, ?_, ?_, ?_,
    subst_ranked hG hN hH hrR⟩
  · rintro u v (he | ⟨a, b, he, rfl, rfl⟩)
    · exact ⟨.inr (hH.edge_mem u v he).1, .inr (hH.edge_mem u v he).2⟩
    · exact ⟨mem_out a (hG.edge_mem a b he).1, mem_in b (hG.edge_mem a b he).2⟩
  · rintro u (he | ⟨a, b, he, -, hb⟩)
    · exact hnotN r hG.root_mem (hH.edge_mem u r he).2
    · by_cases h : b = R
      · rw [h, redirect_self] at hb
        exact hnotN r hG.root_mem (hb ▸ hH.first_mem)
      · rw [redirect_of_ne h] at hb
        exact hG.no_pred a (hb ▸ he)
  · rintro v (he | ⟨a, b, he, ha, -⟩)
    · exact hnotN t hG.exit_mem (hH.edge_mem t v he).1
    · by_cases h : a = R
      · rw [h, redirect_self] at ha
        exact hnotN t hG.exit_mem (ha ▸ hH.last_mem)
      · rw [redirect_of_ne h] at ha
        exact hG.no_succ b (ha ▸ he)
  · rintro x (⟨hx, hxR⟩ | hx)
    · have h := Subst.reach_of_reach (R := R) cross (hG.reach x hx)
      rwa [redirect_of_ne hrR, redirect_of_ne hxR] at h
    · exact toFirst.trans (lift (hH.reach x hx))
  · rintro x (⟨hx, hxR⟩ | hx)
    · have h := Subst.reach_of_reach (R := R) cross (hG.coreach x hx)
      rwa [redirect_of_ne hxR, redirect_of_ne htR] at h
    · exact (lift (hH.coreach x hx)).trans fromLast

end Substitution

/-! ## The graph a construction starts from -/

/-- Root, one inner node, exit. -/
def Line (r R t u v : α) : Prop := (u = r ∧ v = R) ∨ (u = R ∧ v = t)

theorem FlowGraph.line {r R t : α} (hrR : r ≠ R) (hRt : R ≠ t) (hrt : r ≠ t) :
    FlowGraph (Line r R t) {r, R, t} r t := by
  have first : Line r R t r R := .inl ⟨rfl, rfl⟩
  have second : Line r R t R t := .inr ⟨rfl, rfl⟩
  refine ⟨by simp, by simp, ?_, ?_, ?_, ?_, ?_, ?_⟩
  · rintro u v (⟨rfl, rfl⟩ | ⟨rfl, rfl⟩) <;> simp
  · rintro u (⟨-, h⟩ | ⟨-, h⟩)
    · exact hrR h
    · exact hrt h
  · rintro v (⟨h, -⟩ | ⟨h, -⟩)
    · exact hrt h.symm
    · exact hRt h.symm
  · rintro x (rfl | rfl | rfl)
    · exact .refl
    · exact .single first
    · exact (ReflTransGen.single first).tail second
  · rintro x (rfl | rfl | rfl)
    · exact (ReflTransGen.single first).tail second
    · exact .single second
    · exact .refl
  · refine ⟨fun x => if x = r then 0 else if x = R then 1 else 2, ?_⟩
    rintro u v (⟨rfl, rfl⟩ | ⟨rfl, rfl⟩)
    · simp [hrR.symm]
    · simp [hrR.symm, hrt.symm, hRt.symm]

end Graph
