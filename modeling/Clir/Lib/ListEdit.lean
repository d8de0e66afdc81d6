import Mathlib.Algebra.Group.Nat.Defs
import Mathlib.Data.List.Nodup
import Mathlib.Data.List.Sort
import Mathlib.Tactic.Common

set_option autoImplicit false

/-! # Editing lists at an element

Insertion before and after the first occurrence of an element, the element that follows another
one, and duplicate-free sorted lists kept by insertion.
-/

namespace ListEdit

variable {α : Type} [DecidableEq α]

/-- `i` placed in front of the first `x`. -/
def insertBefore (x i : α) : List α → List α
  | [] => []
  | a :: l => if a = x then i :: a :: l else a :: insertBefore x i l

/-- `i` placed behind the first `x`. -/
def insertAfter (x i : α) : List α → List α
  | [] => []
  | a :: l => if a = x then a :: i :: l else a :: insertAfter x i l

/-- The element behind the first `x`. -/
def next (x : α) : List α → Option α
  | [] => none
  | a :: l => if a = x then l.head? else next x l

variable {x i : α} {l pre post : List α}

theorem insertBefore_eq (h : x ∉ pre) :
    insertBefore x i (pre ++ x :: post) = pre ++ i :: x :: post := by
  induction pre with
  | nil => simp [insertBefore]
  | cons a t ih =>
      have ha : a ≠ x := fun e => h (by simp [e])
      simp only [List.cons_append, insertBefore, if_neg ha]
      rw [ih fun ht => h (List.mem_cons_of_mem a ht)]

theorem insertAfter_eq (h : x ∉ pre) :
    insertAfter x i (pre ++ x :: post) = pre ++ x :: i :: post := by
  induction pre with
  | nil => simp [insertAfter]
  | cons a t ih =>
      have ha : a ≠ x := fun e => h (by simp [e])
      simp only [List.cons_append, insertAfter, if_neg ha]
      rw [ih fun ht => h (List.mem_cons_of_mem a ht)]

theorem next_eq (h : x ∉ pre) : next x (pre ++ x :: post) = post.head? := by
  induction pre with
  | nil => simp [next]
  | cons a t ih =>
      have ha : a ≠ x := fun e => h (by simp [e])
      simp only [List.cons_append, next, if_neg ha]
      exact ih fun ht => h (List.mem_cons_of_mem a ht)

theorem mem_of_next {y : α} (h : next x l = some y) : y ∈ l := by
  induction l with
  | nil => cases h
  | cons a l ih =>
      unfold next at h
      split at h
      · exact List.mem_cons_of_mem a (List.mem_of_mem_head? h)
      · exact List.mem_cons_of_mem a (ih h)

omit [DecidableEq α] in
/-- A list without duplicates splits in one way around an element. -/
theorem split_unique {pre post p q : List α} {i : α} (hnodup : (pre ++ i :: post).Nodup)
    (h : pre ++ i :: post = p ++ i :: q) : pre = p ∧ post = q := by
  induction pre generalizing p with
  | nil =>
      cases p with
      | nil => exact ⟨rfl, List.tail_eq_of_cons_eq h⟩
      | cons a p =>
          obtain ⟨rfl, rfl⟩ := List.cons.inj h
          simp at hnodup
  | cons a pre ih =>
      cases p with
      | nil =>
          obtain ⟨rfl, -⟩ := List.cons.inj h
          simp at hnodup
      | cons a' p =>
          obtain ⟨rfl, hrest⟩ := List.cons.inj h
          obtain ⟨rfl, hpost⟩ := ih (List.nodup_cons.mp hnodup).2 hrest
          exact ⟨rfl, hpost⟩

omit [DecidableEq α] in
/-- An element of a list with `i` inserted is an element of the list without it, and what stood in
front of it there still does. -/
theorem exists_split_of_insert {p q : List α} (h : pre ++ i :: post = p ++ x :: q) (hne : x ≠ i) :
    ∃ p' q', pre ++ post = p' ++ x :: q' ∧ p' ⊆ p := by
  induction pre generalizing p with
  | nil =>
      cases p with
      | nil => exact absurd (List.cons.inj h).1.symm hne
      | cons a t =>
          obtain ⟨-, rfl⟩ := List.cons.inj h
          exact ⟨t, q, rfl, List.subset_cons_self a t⟩
  | cons a t ih =>
      cases p with
      | nil =>
          obtain ⟨rfl, -⟩ := List.cons.inj h
          exact ⟨[], t ++ post, rfl, List.nil_subset _⟩
      | cons c s =>
          obtain ⟨rfl, hrest⟩ := List.cons.inj h
          obtain ⟨p', q', heq, hsub⟩ := ih hrest
          exact ⟨a :: p', q', by simp [heq], List.cons_subset_cons a hsub⟩

theorem insertBefore_perm (h : x ∈ l) : (insertBefore x i l).Perm (i :: l) := by
  obtain ⟨pre, post, rfl, hx⟩ := List.eq_append_cons_of_mem h
  rw [insertBefore_eq hx]
  exact List.perm_middle

theorem insertAfter_perm (h : x ∈ l) : (insertAfter x i l).Perm (i :: l) := by
  obtain ⟨pre, post, rfl, hx⟩ := List.eq_append_cons_of_mem h
  rw [insertAfter_eq hx, List.append_cons pre x (i :: post), List.append_cons pre x post]
  exact List.perm_middle

/-! ## Collections ordered by a key -/

/-- A list whose keys increase: an ordered set when the key is the element, an ordered map when
it is a component. -/
structure Ordered {β : Type} (key : β → ℕ) where
  toList : List β
  sorted : toList.Pairwise fun a b => key a < key b

namespace Ordered

variable {β : Type} {key : β → ℕ}

def empty : Ordered key := ⟨[], List.Pairwise.nil⟩

/-- Put `a` in its place, over an element of the same key. -/
def insertList (key : β → ℕ) (a : β) : List β → List β
  | [] => [a]
  | b :: l =>
      if key a < key b then a :: b :: l
      else if key a = key b then a :: l
      else b :: insertList key a l

theorem mem_insertList {a x : β} {l : List β} (hl : l.Pairwise fun a b => key a < key b) :
    x ∈ insertList key a l ↔ x = a ∨ (x ∈ l ∧ key x ≠ key a) := by
  induction l with
  | nil => simp [insertList]
  | cons b l ih =>
      obtain ⟨hb, hl⟩ := List.pairwise_cons.mp hl
      have above : key a ≤ key b → ∀ y ∈ l, key y ≠ key a := fun h y hy => by
        have := hb y hy
        omega
      unfold insertList
      split_ifs with h₁ h₂
      · have := above h₁.le
        have : key b ≠ key a := by omega
        aesop
      · have := above h₂.le
        aesop
      · have : key b ≠ key a := by omega
        rw [List.mem_cons, ih hl, List.mem_cons]
        aesop

theorem insertList_sorted {a : β} {l : List β} (hl : l.Pairwise fun a b => key a < key b) :
    (insertList key a l).Pairwise fun a b => key a < key b := by
  induction l with
  | nil => simp [insertList]
  | cons b l ih =>
      obtain ⟨hb, hl⟩ := List.pairwise_cons.mp hl
      unfold insertList
      split_ifs with h₁ h₂
      · refine List.pairwise_cons.mpr ⟨fun y hy => ?_, List.pairwise_cons.mpr ⟨hb, hl⟩⟩
        rcases List.mem_cons.mp hy with rfl | hy
        · exact h₁
        · exact h₁.trans (hb y hy)
      · exact List.pairwise_cons.mpr ⟨fun y hy => h₂ ▸ hb y hy, hl⟩
      · refine List.pairwise_cons.mpr ⟨fun y hy => ?_, ih hl⟩
        rcases (mem_insertList hl).mp hy with rfl | ⟨hy, -⟩
        · omega
        · exact hb y hy

def insert (s : Ordered key) (a : β) : Ordered key :=
  ⟨insertList key a s.toList, insertList_sorted s.sorted⟩

theorem mem_insert {s : Ordered key} {a x : β} :
    x ∈ (s.insert a).toList ↔ x = a ∨ (x ∈ s.toList ∧ key x ≠ key a) :=
  mem_insertList s.sorted

theorem nodup (s : Ordered key) : s.toList.Nodup :=
  s.sorted.imp fun h e => by
    rw [e] at h
    exact lt_irrefl _ h

/-- There is one order for given elements. -/
theorem toList_eq {s t : Ordered key} (h : ∀ x, x ∈ s.toList ↔ x ∈ t.toList) :
    s.toList = t.toList := by
  have hperm : s.toList.Perm t.toList := (List.perm_ext_iff_of_nodup s.nodup t.nodup).mpr h
  refine hperm.eq_of_pairwise (fun a b _ _ hab hba => ?_) s.sorted t.sorted
  exact absurd hab (Nat.lt_asymm hba)

end Ordered

/-! ## Lists related element by element -/

section Related

variable {α β : Type*} {R : α → β → Prop} {l : List α} {l' : List β}

theorem exists_of_mem_left (h : List.Forall₂ R l l') {a : α} (ha : a ∈ l) :
    ∃ b ∈ l', R a b := by
  induction h with
  | nil => exact absurd ha List.not_mem_nil
  | cons hab _ ih =>
      rcases List.mem_cons.mp ha with rfl | ha
      · exact ⟨_, List.mem_cons_self, hab⟩
      · obtain ⟨b, hb, hR⟩ := ih ha
        exact ⟨b, List.mem_cons_of_mem _ hb, hR⟩

theorem exists_of_mem_right (h : List.Forall₂ R l l') {b : β} (hb : b ∈ l') :
    ∃ a ∈ l, R a b :=
  exists_of_mem_left h.flip hb

theorem exists_forall₂ (h : ∀ a ∈ l, ∃ b, R a b) : ∃ l', List.Forall₂ R l l' := by
  induction l with
  | nil => exact ⟨[], .nil⟩
  | cons a l ih =>
      obtain ⟨ha, hl⟩ := List.forall_mem_cons.mp h
      obtain ⟨b, hb⟩ := ha
      obtain ⟨l', hl'⟩ := ih hl
      exact ⟨b :: l', .cons hb hl'⟩

theorem imp_of_mem {R' : α → β → Prop} (h : List.Forall₂ R l l')
    (himp : ∀ a ∈ l, ∀ b ∈ l', R a b → R' a b) : List.Forall₂ R' l l' := by
  induction h with
  | nil => exact .nil
  | @cons a b l l' hab _ ih =>
      refine .cons (himp a List.mem_cons_self b List.mem_cons_self hab) (ih fun x hx y hy => ?_)
      exact himp x (List.mem_cons_of_mem a hx) y (List.mem_cons_of_mem b hy)

end Related

theorem perm_flatMap_of_forall₂ {α β γ : Type} {f : α → List γ} {g : β → List γ} {l : List α}
    {l' : List β} (h : List.Forall₂ (fun a b => (g b).Perm (f a)) l l') :
    (l'.flatMap g).Perm (l.flatMap f) := by
  induction h with
  | nil => exact .nil
  | cons hab _ ih =>
      rw [List.flatMap_cons, List.flatMap_cons]
      exact hab.append ih

theorem map_eq_of_forall₂ {α β γ : Type} {f : α → γ} {g : β → γ} {l : List α} {l' : List β}
    (h : List.Forall₂ (fun a b => g b = f a) l l') : l'.map g = l.map f := by
  induction h with
  | nil => rfl
  | cons hab _ ih => rw [List.map_cons, List.map_cons, hab, ih]

/-- A list inserted element by element. -/
theorem mem_foldl_insert {l acc : List α} {x : α} :
    x ∈ l.foldl (fun acc a => acc.insert a) acc ↔ x ∈ acc ∨ x ∈ l := by
  induction l generalizing acc with
  | nil => simp
  | cons a l ih =>
      rw [List.foldl_cons, ih, List.mem_insert_iff, List.mem_cons, or_comm (a := x = a), or_assoc]

/-! ## Indices -/

theorem filterMap_range_getElem? {α : Type} (l : List α) :
    (List.range l.length).filterMap (l[·]?) = l := by
  induction l with
  | nil => rfl
  | cons a l ih =>
      have hhead : (a :: l)[0]? = some a := rfl
      rw [List.length_cons, List.range_succ_eq_map, List.filterMap_cons_some hhead,
        List.filterMap_map]
      exact congrArg (a :: ·) ih

/-- In a list without duplicates, what comes first has the smaller index. -/
theorem idxOf_lt_of_sublist {α : Type} [DecidableEq α] {x y : α} {l : List α} (hl : l.Nodup)
    (h : [x, y].Sublist l) : l.idxOf x < l.idxOf y := by
  induction l with
  | nil => cases h
  | cons z l ih =>
      obtain ⟨hz, hl⟩ := List.nodup_cons.mp hl
      cases h with
      | cons _ h =>
          have hx : z ≠ x := fun heq => hz (heq ▸ h.subset (by simp))
          have hy : z ≠ y := fun heq => hz (heq ▸ h.subset (by simp))
          rw [List.idxOf_cons_ne _ hx, List.idxOf_cons_ne _ hy]
          exact Nat.succ_lt_succ (ih hl h)
      | cons_cons _ h =>
          have hy : x ≠ y := fun heq => hz (heq ▸ h.subset (by simp))
          rw [List.idxOf_cons_self, List.idxOf_cons_ne _ hy]
          exact Nat.succ_pos _

theorem idxOf_lt_of_mem_before {x y : α} {before after : List α}
    (hl : (before ++ x :: after).Nodup) (hy : y ∈ before) :
    (before ++ x :: after).idxOf y < (before ++ x :: after).idxOf x :=
  idxOf_lt_of_sublist hl (.append (List.singleton_sublist.mpr hy) (by simp))

theorem idxOf_lt_of_mem_after {x y : α} {before after : List α}
    (hl : (before ++ x :: after).Nodup) (hy : y ∈ after) :
    (before ++ x :: after).idxOf x < (before ++ x :: after).idxOf y :=
  idxOf_lt_of_sublist hl (.trans (.cons_cons x (List.singleton_sublist.mpr hy))
    (List.sublist_append_right before _))

theorem exists_of_three_le_length {α : Type} {l : List α} (h : 3 ≤ l.length) :
    ∃ a b c rest, l = a :: b :: c :: rest := by
  rcases l with _ | ⟨a, _ | ⟨b, _ | ⟨c, rest⟩⟩⟩
  · simp at h
  · simp at h
  · simp at h
  · exact ⟨a, b, c, rest, rfl⟩

/-- An element is found by a key that no other one has. -/
theorem find?_eq_some_of_nodup {α β : Type} [DecidableEq β] {key : α → β} {l : List α} {a : α}
    (hl : (l.map key).Nodup) (ha : a ∈ l) : l.find? (fun x => key x = key a) = some a := by
  cases hfind : l.find? (fun x => key x = key a) with
  | none => exact absurd (List.find?_eq_none.mp hfind a ha) (by simp)
  | some x =>
      have hkey : key x = key a := by simpa using List.find?_some hfind
      rw [List.inj_on_of_nodup_map hl (List.mem_of_find?_eq_some hfind) ha hkey]

/-! ## Numbers that are distinct -/

/-- Whether the numbers are distinct, and none is a bit of `seen`. -/
def apart : ℕ → List ℕ → Bool
  | _, [] => true
  | seen, n :: l => !seen.testBit n && apart (seen ||| 2 ^ n) l

theorem nodup_of_apart {seen : ℕ} {l : List ℕ} (h : apart seen l = true) :
    l.Nodup ∧ ∀ n ∈ l, seen.testBit n = false := by
  induction l generalizing seen with
  | nil => simp
  | cons n l ih =>
      rw [apart, Bool.and_eq_true, Bool.not_eq_true'] at h
      obtain ⟨hn, hl⟩ := h
      obtain ⟨hnodup, hseen⟩ := ih hl
      have hrest : ∀ m ∈ l, seen.testBit m = false ∧ m ≠ n := by
        intro m hm
        have hm' := hseen m hm
        rw [Nat.testBit_or, Nat.testBit_two_pow, Bool.or_eq_false_iff] at hm'
        exact ⟨hm'.1, fun h => by simp [h] at hm'⟩
      refine ⟨List.nodup_cons.mpr ⟨fun hm => (hrest n hm).2 rfl, hnodup⟩, ?_⟩
      exact List.forall_mem_cons.mpr ⟨hn, fun m hm => (hrest m hm).1⟩

end ListEdit
