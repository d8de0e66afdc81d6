import Mathlib.Algebra.Order.Field.Rat
import Mathlib.Tactic.Common

set_option autoImplicit false

/-! # Blocks as JSON

The corpus stores basic blocks as JSON. Two blocks are compared by the `opcode` fields of their
instructions (`compare_instrs`). On blocks whose instructions are objects this is equality of the
lists of these fields (`BlockJson.compareInstrs_eq`), hence an equivalence.
-/

namespace Clir

/-- `serde_json::Number`: an integer, or a finite float. -/
inductive JsonNumber
  | int (n : ℤ)
  | float (x : ℚ)
  deriving DecidableEq, Repr

/-- `serde_json::Value`. An object is a list of fields, and the first field of a key counts. The
source compares maps whatever the order of their fields; here a map is the list of its fields in one
fixed order of the keys, with `opcode` first. -/
inductive JsonValue
  | null
  | bool (b : Bool)
  | number (n : JsonNumber)
  | string (s : String)
  | array (elements : List JsonValue)
  | object (fields : List (String × JsonValue))

/-! ## Equality of JSON values -/

mutual

def JsonValue.decEq : (a b : JsonValue) → Decidable (a = b)
  | .null, .null => isTrue rfl
  | .bool a, .bool b => decidable_of_iff (a = b) (JsonValue.bool.injEq a b ▸ Iff.rfl)
  | .number a, .number b => decidable_of_iff (a = b) (JsonValue.number.injEq a b ▸ Iff.rfl)
  | .string a, .string b => decidable_of_iff (a = b) (JsonValue.string.injEq a b ▸ Iff.rfl)
  | .array as, .array bs =>
      have := JsonValue.decEqList as bs
      decidable_of_iff (as = bs) (JsonValue.array.injEq as bs ▸ Iff.rfl)
  | .object as, .object bs =>
      have := JsonValue.decEqFields as bs
      decidable_of_iff (as = bs) (JsonValue.object.injEq as bs ▸ Iff.rfl)
  | .null, .bool _ | .null, .number _ | .null, .string _ | .null, .array _ | .null, .object _
  | .bool _, .null | .bool _, .number _ | .bool _, .string _ | .bool _, .array _
  | .bool _, .object _ | .number _, .null | .number _, .bool _ | .number _, .string _
  | .number _, .array _ | .number _, .object _ | .string _, .null | .string _, .bool _
  | .string _, .number _ | .string _, .array _ | .string _, .object _ | .array _, .null
  | .array _, .bool _ | .array _, .number _ | .array _, .string _ | .array _, .object _
  | .object _, .null | .object _, .bool _ | .object _, .number _ | .object _, .string _
  | .object _, .array _ => isFalse nofun

def JsonValue.decEqList : (as bs : List JsonValue) → Decidable (as = bs)
  | [], [] => isTrue rfl
  | [], _ :: _ | _ :: _, [] => isFalse nofun
  | a :: as, b :: bs =>
      have := JsonValue.decEq a b
      have := JsonValue.decEqList as bs
      decidable_of_iff (a = b ∧ as = bs) List.cons_eq_cons.symm

def JsonValue.decEqFields : (as bs : List (String × JsonValue)) → Decidable (as = bs)
  | [], [] => isTrue rfl
  | [], _ :: _ | _ :: _, [] => isFalse nofun
  | (k, a) :: as, (l, b) :: bs =>
      have := JsonValue.decEq a b
      have := JsonValue.decEqFields as bs
      decidable_of_iff ((k = l ∧ a = b) ∧ as = bs) (by rw [List.cons_eq_cons, Prod.mk.injEq])

end

instance : DecidableEq JsonValue := JsonValue.decEq

/-! ## Blocks -/

/-- How a call may end without a result: it returns an error or panics. -/
inductive Failure
  | err (e : String)
  | panic (message : String)
  deriving DecidableEq, Repr

/-- `as_object` -/
def JsonValue.asObject : JsonValue → Option (List (String × JsonValue))
  | .object fields => some fields
  | _ => none

/-- `BlockJson` -/
structure BlockJson where
  instrs : List JsonValue
  blockType : List JsonValue
  context : List JsonValue
  deriving DecidableEq

namespace BlockJson

/-- The loop of `compare_instrs`. -/
def compareOpcodes : List (JsonValue × JsonValue) → Except Failure Bool
  | [] => return true
  | (instrSelf, instrOther) :: rest =>
      match instrSelf.asObject, instrOther.asObject with
      | some opcodeSelf, some opcodeOther =>
          if opcodeSelf.lookup "opcode" ≠ opcodeOther.lookup "opcode" then
            return false
          else
            compareOpcodes rest
      | _, _ => throw (.panic "errors when convert json into object.")

/-- `compare_instrs` -/
def compareInstrs (self other : BlockJson) : Except Failure Bool :=
  if self.instrs.length ≠ other.instrs.length then
    return false
  else
    compareOpcodes (self.instrs.zip other.instrs)

/-! ## What is compared -/

/-- The instructions of the block are JSON objects. -/
def ObjectInstrs (b : BlockJson) : Prop := ∀ instr ∈ b.instrs, ∃ fields, instr = .object fields

/-- The field that `compare_instrs` reads of an instruction. -/
def opcodeOf (instr : JsonValue) : Option JsonValue := instr.asObject.bind (·.lookup "opcode")

def opcodes (b : BlockJson) : List (Option JsonValue) := b.instrs.map opcodeOf

theorem compareOpcodes_zip {as bs : List JsonValue} (hlen : as.length = bs.length)
    (ha : ∀ a ∈ as, ∃ fields, a = .object fields) (hb : ∀ b ∈ bs, ∃ fields, b = .object fields) :
    compareOpcodes (as.zip bs) = .ok (decide (as.map opcodeOf = bs.map opcodeOf)) := by
  induction as generalizing bs with
  | nil =>
      obtain rfl : bs = [] := List.eq_nil_of_length_eq_zero hlen.symm
      rfl
  | cons a as ih =>
      cases bs with
      | nil => cases hlen
      | cons b bs =>
          obtain ⟨⟨fa, rfl⟩, has⟩ := List.forall_mem_cons.mp ha
          obtain ⟨⟨fb, rfl⟩, hbs⟩ := List.forall_mem_cons.mp hb
          rw [List.zip_cons_cons, compareOpcodes]
          simp only [JsonValue.asObject, List.map_cons, List.cons_eq_cons]
          split_ifs with hne
          · simp only [opcodeOf, JsonValue.asObject, Option.bind_some, hne, false_and,
              decide_false]
            rfl
          · rw [ih (Nat.succ_inj.mp hlen) has hbs]
            simp only [opcodeOf, JsonValue.asObject, Option.bind_some, not_not.mp hne, true_and]

/-- **`compare_instrs` compares the lists of opcode fields.** -/
theorem compareInstrs_eq {a b : BlockJson} (ha : a.ObjectInstrs) (hb : b.ObjectInstrs) :
    a.compareInstrs b = .ok (decide (a.opcodes = b.opcodes)) := by
  unfold compareInstrs
  split_ifs with hlen
  · have hne : a.opcodes ≠ b.opcodes := fun h =>
      hlen (by simpa [opcodes] using congrArg List.length h)
    rw [decide_eq_false hne]
    rfl
  · exact compareOpcodes_zip (not_not.mp hlen) ha hb

end BlockJson

/-! ## Keys -/

mutual

/-- The keys of all objects in a value. -/
def JsonValue.keys : JsonValue → List String
  | .array elements => JsonValue.keysOfList elements
  | .object fields => JsonValue.keysOfFields fields
  | _ => []

def JsonValue.keysOfList : List JsonValue → List String
  | [] => []
  | v :: rest => v.keys ++ JsonValue.keysOfList rest

def JsonValue.keysOfFields : List (String × JsonValue) → List String
  | [] => []
  | (key, v) :: rest => key :: (v.keys ++ JsonValue.keysOfFields rest)

end

/-- A key that extended JSON gives a meaning to starts with a dollar sign. -/
def plainKey (key : String) : Bool := key.toList.head? ≠ some '$'

/-- No key in the block is one of extended JSON. -/
def BlockJson.Plain (b : BlockJson) : Prop :=
  (JsonValue.keysOfList (b.instrs ++ b.blockType ++ b.context)).all plainKey = true

end Clir
