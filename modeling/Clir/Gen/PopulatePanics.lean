import Clir.Gen.Intersect
import Clir.Gen.Populate
import Clir.Lib.Panics

set_option autoImplicit false

/-! # Panics of instruction selection

An arm depends on the mode only through the lists of types that it draws from, and drawing from a
list panics if the list is absent or empty. There are few ways in which the arms do this
(`DrawsFrom`). An arm that does not panic for one mode therefore does not panic for a mode whose
lists are narrower but not empty.
-/

namespace Clir

open Cmd Cursor

variable {δ : Type}

/-! ## Fair commands -/

theorem fair_func : Fair (func : M δ Function) := Fair.mem.bind fun _ => .pure _

theorem fair_insertInstBefore (i before : Inst) : Fair (insertInstBefore i before : M δ Unit) := by
  refine fair_func.bind fun f => ?_
  split
  · split
    · exact .update _
    · exact .panicWith _
  · exact .panicWith _

theorem fair_appendInst (i : Inst) (b : Block) : Fair (appendInst i b : M δ Unit) := by
  refine fair_func.bind fun f => ?_
  split
  · split
    · exact .update _
    · exact .panicWith _
  · exact .panicWith _

theorem fair_insertInst (i : Inst) : Fair (insertInst i : M δ Unit) := by
  refine (Fair.mem.bind fun _ => .pure _).bind fun p => ?_
  cases p with
  | nowhere | before => exact .panicWith _
  | at_ cur => exact fair_insertInstBefore i cur
  | after b => exact fair_appendInst i b

theorem fair_insTyped (data : InstructionData) (ctrl : ClifType) :
    Fair (insTyped data ctrl : M δ Inst) := by
  unfold insTyped
  cases data.opcode.resultTypes ctrl with
  | none => exact .panicWith _
  | some tys =>
      exact fair_func.bind fun f => (Fair.update _).bind fun _ => (fair_insertInst _).bind fun _ =>
        .pure _

theorem fair_emitTyped (ctrl : ClifType) (data : InstructionData) :
    Fair (emitTyped ctrl data : M δ Value) := by
  refine (fair_insTyped data ctrl).bind fun i => fair_func.bind fun f => ?_
  cases (f.dfg.results i).head? with
  | none => exact .panicWith _
  | some v => exact .pure v

theorem fair_randomStackSlot : Fair (randomStackSlot : M δ StackSlot) :=
  fair_func.bind fun _ => (Fair.choose _).bind fun _ => .unwrap _

theorem fair_randomStackAddr : Fair (randomStackAddr : M δ Value) :=
  fair_randomStackSlot.bind fun _ => fair_emitTyped _ _

theorem fair_selectValue (values : List Value) : Fair (selectValue values : M δ Value) := by
  refine Fair.bind (Fair.ite (.pure _) ((Fair.genRange _ _).bind fun n => ?_)) fun _ => .unwrap _
  exact Fair.ite (Fair.ite (.pure _) ((Fair.genRange _ _).bind fun _ => .pure _))
    ((Fair.genRange _ _).bind fun _ => .pure _)

/-! ## Drawing a type -/

section Draws

variable {s s' : State δ} {α : Type} {types narrow : Option (List OperandType)}
  {k : ClifType → M δ α}

theorem fair_chooseType (types : Option (List OperandType)) :
    Fair (chooseType types : M δ ClifType) :=
  (Fair.unwrap _).bind fun _ => (Fair.choose _).bind fun _ => (Fair.unwrap _).bind fun _ => .pure _

theorem chooseType_some (ts : List OperandType) : (chooseType (some ts) : M δ ClifType) =
    (do unwrap (← choose ts)) >>= fun t => pure t.toCraneliftType := by
  rw [bind_assoc]
  rfl

theorem exists_of_safe_chooseType (h : Safe (chooseType types : M δ ClifType) s) :
    ∃ ts, types = some ts ∧ ts ≠ [] := by
  cases types with
  | none => exact absurd h.of_bind not_safe_panicWith
  | some ts =>
      rw [chooseType_some] at h
      exact ⟨ts, rfl, safe_chooseUnwrap.mp h.of_bind⟩

theorem safe_chooseType {ts : List OperandType} (hne : ts ≠ []) :
    Safe (chooseType (some ts) : M δ ClifType) s := by
  rw [chooseType_some]
  exact (safe_chooseUnwrap.mpr hne).bind fun _ _ _ => safe_pure _

theorem leads_chooseType {ts : List OperandType} (hne : ts ≠ []) {t : ClifType} :
    Leads (chooseType (some ts) : M δ ClifType) s t s' ↔
      s' = s ∧ ∃ o ∈ ts, o.toCraneliftType = t := by
  rw [chooseType_some, leads_bind ((Fair.choose ts).bind fun _ => .unwrap _)]
  constructor
  · rintro ⟨o, s₁, ho, draws, rest, h⟩
    obtain ⟨rfl, hmem⟩ := (leads_chooseUnwrap hne).mp ho
    obtain ⟨rfl, hw⟩ := EStateM.Result.ok.inj h
    obtain ⟨-, rfl⟩ := World.mk.inj hw
    exact ⟨rfl, o, hmem, rfl⟩
  · rintro ⟨rfl, o, ho, rfl⟩
    exact ⟨o, s', (leads_chooseUnwrap hne).mpr ⟨rfl, ho⟩, [], [], rfl⟩

/-- A list that has some of the types of another one, and at least one. -/
structure Narrows (narrow types : Option (List OperandType)) : Prop where
  nonempty : narrow.getD [] ≠ []
  subset : narrow.getD [] ⊆ types.getD []

theorem Narrows.ne_nil (h : Narrows narrow types) : types.getD [] ≠ [] := by
  obtain ⟨o, ho⟩ := List.exists_mem_of_ne_nil _ h.nonempty
  exact List.ne_nil_of_mem (h.subset ho)

theorem exists_of_getD_ne_nil {l : Option (List OperandType)} (h : l.getD [] ≠ []) :
    ∃ ts, l = some ts ∧ ts ≠ [] := by
  cases l with
  | none => exact absurd rfl h
  | some ts => exact ⟨ts, rfl, h⟩

/-- A draw from a narrower list is no less safe. -/
theorem Narrows.safe_bind {k' : ClifType → M δ α} (h : Narrows narrow types)
    (hk : ∀ t s', Safe (k t) s' → Safe (k' t) s') (hs : Safe (chooseType types >>= k) s) :
    Safe (chooseType narrow >>= k') s := by
  obtain ⟨ts, rfl, hne⟩ := exists_of_safe_chooseType hs.of_bind
  obtain ⟨ts', rfl, hne'⟩ := exists_of_getD_ne_nil h.nonempty
  refine (safe_chooseType hne').bind fun t s' ht => hk t s' ?_
  obtain ⟨rfl, o, ho, rfl⟩ := (leads_chooseType hne').mp ht
  exact hs.rest (fair_chooseType _) ((leads_chooseType hne).mpr ⟨rfl, o, h.subset ho, rfl⟩)

end Draws

/-! ## The arms -/

/-- The arm draws types from these lists of its mode, and depends on the mode in no other way. -/
inductive DrawsFrom : (Mode → M δ Selection) → List Slot → Prop
  | nothing (x : M δ Selection) : DrawsFrom (fun _ => x) []
  | draw {arm : ClifType → Mode → M δ Selection} {slots : List Slot} (slot : Slot)
      (h : ∀ t, DrawsFrom (arm t) slots) :
      DrawsFrom (fun m => chooseType (m.types slot) >>= fun t => arm t m) (slot :: slots)
  | behind {β : Type} {x : M δ β} {arm : β → Mode → M δ Selection} {slots : List Slot}
      (hx : Fair x) (h : ∀ a, DrawsFrom (arm a) slots) :
      DrawsFrom (fun m => x >>= fun a => arm a m) slots
  | guarded {arm : Mode → M δ Selection} (h : DrawsFrom arm [.operand]) :
      DrawsFrom (fun m => ifListed m (arm m)) [.operand]

theorem ifListed_of_ne_nil {m : Mode} {ts : List OperandType} (h : m.operandTypes = some ts)
    (hne : ts ≠ []) (arm : M δ Selection) : ifListed m arm = arm := by
  unfold ifListed
  rw [h]
  change (if ts.isEmpty then _ else _) = arm
  rw [if_neg fun hempty => hne (List.isEmpty_iff.mp hempty)]

section DrawsFrom

variable {arm : Mode → M δ Selection} {slots : List Slot} {m x y : Mode} {s : State δ}

/-- The lists that a safe arm draws from are there. -/
theorem DrawsFrom.isSome (h : DrawsFrom arm slots) (hs : Safe (arm y) s) :
    ∀ slot ∈ slots, (y.types slot).isSome := by
  induction h generalizing s with
  | nothing x => exact fun slot hslot => absurd hslot List.not_mem_nil
  | draw slot h ih =>
      obtain ⟨ts, hts, hne⟩ := exists_of_safe_chooseType hs.of_bind
      obtain ⟨o, ho⟩ := List.exists_mem_of_ne_nil ts hne
      -- any type of the list will do to get to what follows the draw
      have hleads : Leads (chooseType (y.types slot)) s o.toCraneliftType s := by
        rw [hts]
        exact (leads_chooseType hne).mpr ⟨rfl, o, ho, rfl⟩
      have hrest := hs.rest (fair_chooseType _) hleads
      exact List.forall_mem_cons.mpr ⟨by rw [hts]; rfl, ih _ hrest⟩
  | behind hx h ih =>
      obtain ⟨a, s', ha⟩ := hx.live hs.of_bind
      have hrest := hs.rest hx ha
      exact ih a hrest
  | guarded h ih =>
      -- the guard itself panics when the list is missing
      refine List.forall_mem_cons.mpr ⟨?_, fun slot hslot => absurd hslot List.not_mem_nil⟩
      change y.operandTypes.isSome
      cases hts : y.operandTypes with
      | none =>
          simp only [ifListed, hts] at hs
          exact absurd hs.of_bind not_safe_panicWith
      | some ts => rfl

/-- **An arm is as safe with narrower lists.** -/
theorem DrawsFrom.safe_of_narrows (h : DrawsFrom arm slots)
    (hn : ∀ slot ∈ slots, Narrows (m.types slot) (x.types slot)) (hs : Safe (arm x) s) :
    Safe (arm m) s := by
  induction h generalizing s with
  | nothing x => exact hs
  | draw slot h ih =>
      obtain ⟨hslot, hrest⟩ := List.forall_mem_cons.mp hn
      exact hslot.safe_bind (fun t s' hs' => ih t hrest hs') hs
  | behind hx h ih => exact hs.bind_mono hx fun a s' hs' => ih a hn hs'
  | guarded h ih =>
      -- both lists are there and not empty, so that both guards let the arm through
      have hoperand := hn .operand (List.mem_singleton_self _)
      obtain ⟨ts', hts', hne'⟩ := exists_of_getD_ne_nil hoperand.nonempty
      obtain ⟨ts, hts, hne⟩ := exists_of_getD_ne_nil hoperand.ne_nil
      change Safe (ifListed x _) s at hs
      change Safe (ifListed m _) s
      rw [ifListed_of_ne_nil hts hne] at hs
      rw [ifListed_of_ne_nil hts' hne']
      exact ih hn hs

end DrawsFrom

/-- The lists that the arm of an opcode draws types from. -/
def Opcode.slots : Opcode → List Slot
  | rotl | rotr | ishl | ushr | sshr | bmask => [.arg0, .arg1]
  | select | selectSpectreGuard => [.arg0, .arg0]
  | atomicCas | load | uload8 | sload8 | istore8 | atomicLoad | store
  | x86Pshufb | x86Pmaddubsw | x86Cvtt2dq
  | swizzle | smin | umin | smax | iadd | imul | smulhi | udiv | sdiv | urem | srem | band | bor
  | bxor | bandNot | borNot | bxorNot | fadd | fsub | fmul | fdiv | fcopysign | fmin | fmax
  | uaddOverflow | saddOverflow | usubOverflow | ssubOverflow | umulOverflow | smulOverflow
  | iaddPairwise | uaddOverflowTrap | umax | avgRound | uaddSat | saddSat | usubSat | ssubSat
  | isub | umulhi | sqmulRoundSat | x86Pmulhrsw | snarrow | uunarrow | unarrow | iconcat | icmp
  | fcmp | shuffle | iaddImm | imulImm | udivImm | sdivImm | uremImm | sremImm | irsubImm | bandImm
  | borImm | bxorImm | rotlImm | rotrImm | ishlImm | ushrImm | sshrImm | sqrt | fneg | fabs | ceil
  | floor | trunc | nearest | icmpImm | vanyTrue | vallTrue | ineg | iabs | bnot | bitrev | clz
  | ctz | bswap | popcnt | cls | extractlane | splat | scalarToVector | insertlane | vhighBits
  | bitcast | ireduce | uextend | sextend | swidenLow | swidenHigh | uwidenLow | uwidenHigh
  | fcvtToUint | fcvtToSint | fcvtToUintSat | fcvtToSintSat | fcvtFromUint | fcvtFromSint | isplit
  | bitselect | fma | ssubOverflowBin | usubOverflowBin | uaddOverflowCin | saddOverflowCin
  | uload16 | sload16 | istore16 | istore32 | atomicRmw | atomicStore | stackLoad | stackStore =>
      [.operand]
  | _ => []

/-- Every arm is made like this. -/
theorem populateOpcode_drawsFrom (values : ClifType → List Value) (op : Opcode) :
    DrawsFrom (fun m => (populateOpcode values m op : M δ Selection)) op.slots := by
  cases op with
  | atomicCas =>
      exact .behind fair_randomStackSlot fun _ => .behind (Fair.genRange _ _) fun _ =>
        .behind (fair_emitTyped _ _) fun _ => .draw .operand fun _ => .nothing _
  | load | uload8 | sload8 | istore8 | atomicLoad | store =>
      exact .behind fair_randomStackAddr fun _ => .draw .operand fun _ => .nothing _
  | x86Pshufb | x86Pmaddubsw | x86Cvtt2dq =>
      exact .guarded (.draw .operand fun _ => .nothing _)
  | rotl | rotr | ishl | ushr | sshr | bmask =>
      exact .draw .arg0 fun _ => .draw .arg1 fun _ => .nothing _
  | select | selectSpectreGuard =>
      exact .draw .arg0 fun _ => .behind (fair_selectValue _) fun _ => .draw .arg0 fun _ =>
        .nothing _
  | _ =>
      first
        | exact .draw .operand fun _ => .nothing _
        | exact .nothing _

end Clir
