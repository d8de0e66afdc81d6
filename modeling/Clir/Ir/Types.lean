import Mathlib.Algebra.Group.Nat.Defs
import Mathlib.Data.Fin.Basic
import Mathlib.Tactic.Common

set_option autoImplicit false

/-! # CLIF types

The value types of the intermediate language: nine lane types, and vectors of a power of two of
lanes, up to 256. A scalar is a vector of one lane. `invalid` is the controlling type of an
instruction that has none. The transformations are those that instruction typing uses.
-/

namespace Clir

/-- The scalar types, which are also the lane types of vectors. -/
inductive LaneType
  | i8 | i16 | i32 | i64 | i128 | f16 | f32 | f64 | f128
  deriving DecidableEq, Repr

/-- `Type` of the IR, without the dynamic vectors. `lanes lane k` has `2 ^ k` lanes. -/
inductive ClifType
  | invalid
  | lanes (lane : LaneType) (log2Count : Fin 9)
  deriving DecidableEq, Repr

namespace LaneType

/-- `lane_bits` -/
def bits : LaneType → ℕ
  | i8 => 8
  | i16 | f16 => 16
  | i32 | f32 => 32
  | i64 | f64 => 64
  | i128 | f128 => 128

def isInt : LaneType → Bool
  | i8 | i16 | i32 | i64 | i128 => true
  | f16 | f32 | f64 | f128 => false

/-- The integer of the same width. -/
def asInt : LaneType → LaneType
  | i8 => i8
  | i16 | f16 => i16
  | i32 | f32 => i32
  | i64 | f64 => i64
  | i128 | f128 => i128

/-- The lane part of `half_width`. -/
def half : LaneType → Option LaneType
  | i16 => some i8
  | i32 => some i16
  | i64 => some i32
  | i128 => some i64
  | f32 => some f16
  | f64 => some f32
  | f128 => some f64
  | i8 | f16 => none

/-- The lane part of `double_width`. -/
def double : LaneType → Option LaneType
  | i8 => some i16
  | i16 => some i32
  | i32 => some i64
  | i64 => some i128
  | f16 => some f32
  | f32 => some f64
  | f64 => some f128
  | i128 | f128 => none

end LaneType

namespace ClifType

def i8 : ClifType := .lanes .i8 0
def i16 : ClifType := .lanes .i16 0
def i32 : ClifType := .lanes .i32 0
def i64 : ClifType := .lanes .i64 0
def i128 : ClifType := .lanes .i128 0
def f16 : ClifType := .lanes .f16 0
def f32 : ClifType := .lanes .f32 0
def f64 : ClifType := .lanes .f64 0
def f128 : ClifType := .lanes .f128 0
def i8x16 : ClifType := .lanes .i8 4
def i16x8 : ClifType := .lanes .i16 3
def i32x4 : ClifType := .lanes .i32 2
def i64x2 : ClifType := .lanes .i64 1
def f16x8 : ClifType := .lanes .f16 3
def f32x4 : ClifType := .lanes .f32 2
def f64x2 : ClifType := .lanes .f64 1

def isVector : ClifType → Bool
  | invalid => false
  | lanes _ k => k ≠ 0

/-- A scalar integer type. -/
def isInt : ClifType → Bool
  | invalid => false
  | lanes l k => l.isInt && k == 0

/-- Scalar integers of a width in a range. -/
def scalarInt (lo hi : ℕ) : ClifType → Bool
  | invalid => false
  | lanes l k => l.isInt && k == 0 && lo ≤ l.bits && l.bits ≤ hi

/-- Vectors of integers of a width in a range. -/
def vectorInt (lo hi : ℕ) : ClifType → Bool
  | invalid => false
  | lanes l k => l.isInt && k != 0 && lo ≤ l.bits && l.bits ≤ hi

/-- `bytes`: the size of a value in memory. -/
def bytes : ClifType → ℕ
  | invalid => 0
  | lanes l k => (l.bits * 2 ^ k.val + 7) / 8

/-- `lane_of` -/
def laneOf : ClifType → ClifType
  | invalid => invalid
  | lanes l _ => lanes l 0

/-- `as_truthy`: the type of a comparison. -/
def asTruthy (t : ClifType) : ClifType :=
  match t with
  | invalid => i8
  | lanes l k => if t.isVector then lanes l.asInt k else i8

/-- `half_width` -/
def halfWidth : ClifType → Option ClifType
  | invalid => none
  | lanes l k => l.half.map fun l' => lanes l' k

/-- `double_width` -/
def doubleWidth : ClifType → Option ClifType
  | invalid => none
  | lanes l k => l.double.map fun l' => lanes l' k

/-- `by(2)`: twice as many lanes. -/
def byTwo : ClifType → Option ClifType
  | invalid => none
  | lanes l k => if h : k.val + 1 < 9 then some (lanes l ⟨k.val + 1, h⟩) else none

/-- `split_lanes` -/
def splitLanes (t : ClifType) : Option ClifType := t.halfWidth.bind byTwo

/-- `merge_lanes` -/
def mergeLanes (t : ClifType) : Option ClifType :=
  match t.doubleWidth with
  | some (lanes l ⟨k + 1, h⟩) => some (lanes l ⟨k, by omega⟩)
  | _ => none

end ClifType

end Clir
