import Mathlib.Algebra.Group.Nat.Defs
import Mathlib.Data.List.Flatten
import Mathlib.Data.List.Perm.Basic
import Mathlib.Tactic.Common

set_option autoImplicit false

/-! # Trees, their orders and their size

A node of a tree has a value and any number of children. The post-order of a tree lists its nodes,
each with the whole tree below it. A child comes before its parent (`pair_sublist_postOrder`), and
the children of all nodes are all nodes but the root, each once (`children_perm_postOrder`). The
pre-order lists the same nodes. A tree with one or two children at every node above its last level
has at least one node a level and fewer than `2 ^ (levels + 1)` nodes.
-/

/-- A node with its children. -/
inductive RoseTree (α : Type)
  | node (value : α) (children : List (RoseTree α))

namespace RoseTree

open scoped List

variable {α : Type}

def value : RoseTree α → α
  | node a _ => a

def children : RoseTree α → List (RoseTree α)
  | node _ cs => cs

/-- Add a child after the others. -/
def addChild (t c : RoseTree α) : RoseTree α := node t.value (t.children ++ [c])

mutual

/-- The nodes of a tree, every one after its children. -/
def postOrder : RoseTree α → List (RoseTree α)
  | node a cs => postOrderAll cs ++ [node a cs]

/-- The nodes of some trees, one tree after the other. -/
def postOrderAll : List (RoseTree α) → List (RoseTree α)
  | [] => []
  | t :: ts => postOrder t ++ postOrderAll ts

end

theorem postOrderAll_eq_flatMap (ts : List (RoseTree α)) :
    postOrderAll ts = ts.flatMap postOrder := by
  induction ts with
  | nil => rfl
  | cons t ts ih => rw [postOrderAll, ih, List.flatMap_cons]

theorem postOrder_eq (t : RoseTree α) : t.postOrder = t.children.flatMap postOrder ++ [t] := by
  cases t with
  | node a cs => rw [postOrder, postOrderAll_eq_flatMap, children]

@[simp] theorem dropLast_postOrder (t : RoseTree α) :
    t.postOrder.dropLast = t.children.flatMap postOrder := by
  rw [postOrder_eq, List.dropLast_concat]

/-- What holds of a node if it holds of its children holds of all trees. -/
theorem induction_children {P : RoseTree α → Prop} (h : ∀ t, (∀ c ∈ t.children, P c) → P t)
    (t : RoseTree α) : P t :=
  @RoseTree.rec α P (fun cs => ∀ c ∈ cs, P c) (fun a cs ih => h (node a cs) ih)
    (fun _ hc => absurd hc List.not_mem_nil)
    (fun _ _ iht ihts => List.forall_mem_cons.mpr ⟨iht, ihts⟩) t

theorem mem_postOrder_self (t : RoseTree α) : t ∈ t.postOrder := by
  rw [postOrder_eq]
  exact List.mem_append_right _ (List.mem_singleton_self t)

/-- **A child comes before its parent.** -/
theorem pair_sublist_postOrder (t : RoseTree α) :
    ∀ p ∈ t.postOrder, ∀ c ∈ p.children, [c, p].Sublist t.postOrder := by
  induction t using induction_children with
  | h t ih =>
      intro p hp c hc
      rw [postOrder_eq] at hp ⊢
      rcases List.mem_append.mp hp with hp | hp
      · obtain ⟨d, hd, hpd⟩ := List.mem_flatMap.mp hp
        have hd' : (postOrder d).Sublist (t.children.flatMap postOrder) := by
          simpa using (List.singleton_sublist.mpr hd).flatMap postOrder
        exact (ih d hd p hpd c hc).trans (hd'.trans (List.sublist_append_left _ _))
      · obtain rfl := List.mem_singleton.mp hp
        have hmem : c ∈ p.children.flatMap postOrder :=
          List.mem_flatMap.mpr ⟨c, hc, mem_postOrder_self c⟩
        exact (List.singleton_sublist.mpr hmem).append (List.Sublist.refl [p])

/-- **Every node but the root is the child of one node.** -/
theorem children_perm_postOrder (t : RoseTree α) :
    (t.postOrder.flatMap children).Perm (t.children.flatMap postOrder) := by
  induction t using induction_children with
  | h t ih =>
      rw [postOrder_eq, List.flatMap_append, List.flatMap_assoc, List.flatMap_singleton]
      calc (t.children.flatMap fun c => c.postOrder.flatMap children) ++ t.children
        _ ~ (t.children.flatMap fun c => c.children.flatMap postOrder) ++
            t.children.flatMap fun c => [c] := by
          rw [List.flatMap_singleton']
          exact (List.Perm.flatMap_left _ ih).append_right _
        _ ~ t.children.flatMap fun c => c.children.flatMap postOrder ++ [c] :=
          List.flatMap_append_perm _ _ _
        _ = t.children.flatMap postOrder := by simp only [← postOrder_eq]

mutual

/-- The nodes of a tree, every one before its children. -/
def preOrder : RoseTree α → List (RoseTree α)
  | node a cs => node a cs :: preOrderAll cs

/-- The nodes of some trees, one tree after the other. -/
def preOrderAll : List (RoseTree α) → List (RoseTree α)
  | [] => []
  | t :: ts => preOrder t ++ preOrderAll ts

end

theorem preOrderAll_eq_flatMap (ts : List (RoseTree α)) :
    preOrderAll ts = ts.flatMap preOrder := by
  induction ts with
  | nil => rfl
  | cons t ts ih => rw [preOrderAll, ih, List.flatMap_cons]

theorem preOrder_eq (t : RoseTree α) : t.preOrder = t :: t.children.flatMap preOrder := by
  cases t with
  | node a cs => rw [preOrder, preOrderAll_eq_flatMap, children]

/-- **Both orders list the same nodes.** -/
theorem preOrder_perm_postOrder (t : RoseTree α) : t.preOrder.Perm t.postOrder := by
  induction t using induction_children with
  | h t ih =>
      rw [preOrder_eq, postOrder_eq]
      calc t :: t.children.flatMap preOrder
        _ ~ t :: t.children.flatMap postOrder := (List.Perm.flatMap_left _ ih).cons t
        _ ~ t.children.flatMap postOrder ++ [t] := (List.perm_append_singleton _ _).symm

/-- All leaves are `levels` below the root, and every node above them has one or two children. -/
def Binary : ℕ → RoseTree α → Prop
  | 0, t => t.children = []
  | levels + 1, t => (t.children.length = 1 ∨ t.children.length = 2) ∧
      ∀ c ∈ t.children, c.Binary levels

mutual

/-- The number of levels below the root. -/
def height : RoseTree α → ℕ
  | node _ cs => heightAll cs

/-- The number of levels of some trees. -/
def heightAll : List (RoseTree α) → ℕ
  | [] => 0
  | t :: ts => max (height t + 1) (heightAll ts)

end

theorem height_lt_heightAll {t : RoseTree α} {ts : List (RoseTree α)} (h : t ∈ ts) :
    t.height < heightAll ts := by
  induction ts with
  | nil => cases h
  | cons t' ts ih =>
      rw [heightAll]
      rcases List.mem_cons.mp h with rfl | h
      · omega
      · have := ih h
        omega

theorem height_lt_of_mem_children {t c : RoseTree α} (h : c ∈ t.children) :
    c.height < t.height := by
  cases t with
  | node a cs =>
      rw [height]
      exact height_lt_heightAll h

/-- A node is no higher than the root. -/
theorem height_le_of_mem_postOrder (t : RoseTree α) : ∀ n ∈ t.postOrder, n.height ≤ t.height := by
  induction t using induction_children with
  | h t ih =>
      intro n hn
      rw [postOrder_eq] at hn
      rcases List.mem_append.mp hn with hn | hn
      · obtain ⟨c, hc, hn⟩ := List.mem_flatMap.mp hn
        exact Nat.le_trans (ih c hc n hn) (Nat.le_of_lt (height_lt_of_mem_children hc))
      · obtain rfl := List.mem_singleton.mp hn
        exact Nat.le_refl _

theorem heightAll_le {ts : List (RoseTree α)} {n : ℕ} (h : ∀ t ∈ ts, t.height < n) :
    heightAll ts ≤ n := by
  induction ts with
  | nil => exact Nat.zero_le _
  | cons t ts ih =>
      obtain ⟨ht, hts⟩ := List.forall_mem_cons.mp h
      rw [heightAll]
      have := ih hts
      omega

theorem Binary.height_le {levels : ℕ} {t : RoseTree α} (h : t.Binary levels) :
    t.height ≤ levels := by
  induction levels generalizing t with
  | zero =>
      cases t with
      | node a cs =>
          obtain rfl : cs = [] := h
          exact Nat.le_refl 0
  | succ levels ih =>
      cases t with
      | node a cs =>
          rw [height]
          exact heightAll_le fun c hc => Nat.lt_succ_of_le (ih (h.2 c hc))

/-- The lists that are put together have at most `n` elements each. -/
theorem length_flatMap_le {f : RoseTree α → List (RoseTree α)} {ts : List (RoseTree α)} {n : ℕ}
    (h : ∀ t ∈ ts, (f t).length ≤ n) : (ts.flatMap f).length ≤ ts.length * n := by
  induction ts with
  | nil => simp
  | cons t ts ih =>
      obtain ⟨ht, hts⟩ := List.forall_mem_cons.mp h
      have hrest := ih hts
      rw [List.flatMap_cons, List.length_append, List.length_cons, Nat.succ_mul]
      omega

/-- **The size of such a tree.** -/
theorem Binary.length_le {levels : ℕ} {t : RoseTree α} (h : t.Binary levels) :
    levels ≤ (t.children.flatMap preOrder).length ∧
      (t.children.flatMap preOrder).length + 2 ≤ 2 ^ (levels + 1) := by
  induction levels generalizing t with
  | zero =>
      have hnil : t.children = [] := h
      rw [hnil]
      simp
  | succ levels ih =>
      obtain ⟨hlen, hbelow⟩ := h
      have hpre : ∀ c : RoseTree α,
          (preOrder c).length = (c.children.flatMap preOrder).length + 1 :=
        fun c => by rw [preOrder_eq, List.length_cons]
      constructor
      · -- one child is enough for the lower bound
        obtain ⟨c, hc⟩ : ∃ c, c ∈ t.children := by
          refine List.exists_mem_of_length_pos ?_
          omega
        have hsub : (preOrder c).Sublist (t.children.flatMap preOrder) := by
          simpa using (List.singleton_sublist.mpr hc).flatMap preOrder
        have hle := hsub.length_le
        have hc' := (ih (hbelow c hc)).1
        rw [hpre] at hle
        omega
      · have hupper : (t.children.flatMap preOrder).length ≤
            t.children.length * (2 ^ (levels + 1) - 1) := by
          refine length_flatMap_le fun c hc => ?_
          have hc' := (ih (hbelow c hc)).2
          rw [hpre]
          omega
        have hpos : 0 < 2 ^ (levels + 1) := Nat.two_pow_pos _
        have hdouble : 2 ^ (levels + 1 + 1) = 2 * 2 ^ (levels + 1) := by
          rw [Nat.pow_succ, Nat.mul_comm]
        have htwo : t.children.length * (2 ^ (levels + 1) - 1) ≤ 2 * (2 ^ (levels + 1) - 1) :=
          Nat.mul_le_mul_right _ (by omega)
        omega

end RoseTree
