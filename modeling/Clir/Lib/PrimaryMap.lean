import Mathlib.Logic.Function.Basic
import Mathlib.Tactic.Common

set_option autoImplicit false

/-! # Primary maps

A primary map hands out its keys: `push` stores a new entry under the next key. Keys are never
removed, so the keys are the numbers below `len`.
-/

structure PrimaryMap (α : Type) where
  len : ℕ
  get : ℕ → α

namespace PrimaryMap

variable {α : Type}

def empty [Inhabited α] : PrimaryMap α := ⟨0, fun _ => default⟩

/-- Store `a` under the next key. -/
def push (m : PrimaryMap α) (a : α) : PrimaryMap α :=
  ⟨m.len + 1, Function.update m.get m.len a⟩

/-- Overwrite the entry of a key. -/
def set (m : PrimaryMap α) (k : ℕ) (a : α) : PrimaryMap α :=
  ⟨m.len, Function.update m.get k a⟩

/-- The entry of a key that has been handed out. -/
def get? (m : PrimaryMap α) (k : ℕ) : Option α := if k < m.len then some (m.get k) else none

@[simp] theorem push_len (m : PrimaryMap α) (a : α) : (m.push a).len = m.len + 1 := rfl

@[simp] theorem set_len (m : PrimaryMap α) (k : ℕ) (a : α) : (m.set k a).len = m.len := rfl

@[simp] theorem push_get_self (m : PrimaryMap α) (a : α) : (m.push a).get m.len = a := by
  simp [push]

theorem push_get_of_ne (m : PrimaryMap α) (a : α) {k : ℕ} (h : k ≠ m.len) :
    (m.push a).get k = m.get k := by
  simp [push, h]

theorem push_get_of_lt (m : PrimaryMap α) (a : α) {k : ℕ} (h : k < m.len) :
    (m.push a).get k = m.get k :=
  push_get_of_ne m a (Nat.ne_of_lt h)

@[simp] theorem set_get_self (m : PrimaryMap α) (k : ℕ) (a : α) : (m.set k a).get k = a := by
  simp [set]

theorem set_get_of_ne (m : PrimaryMap α) (a : α) {j k : ℕ} (h : k ≠ j) :
    (m.set j a).get k = m.get k := by
  simp [set, h]

theorem get?_eq_some {m : PrimaryMap α} {k : ℕ} {a : α} :
    m.get? k = some a ↔ k < m.len ∧ m.get k = a := by
  simp [get?]

@[simp] theorem get?_push_self (m : PrimaryMap α) (a : α) : (m.push a).get? m.len = some a :=
  get?_eq_some.mpr ⟨Nat.lt_succ_self _, push_get_self m a⟩

/-- An entry stays when others are pushed. -/
theorem get?_push_of_eq_some {m : PrimaryMap α} {k : ℕ} {a : α} (b : α) (h : m.get? k = some a) :
    (m.push b).get? k = some a := by
  obtain ⟨hlt, hget⟩ := get?_eq_some.mp h
  exact get?_eq_some.mpr ⟨Nat.lt_succ_of_lt hlt, by rw [push_get_of_lt m b hlt, hget]⟩

end PrimaryMap
