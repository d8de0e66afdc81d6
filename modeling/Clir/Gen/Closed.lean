import Clir.Gen.Compatible
import Clir.Gen.Arms

set_option autoImplicit false

/-! # Edits of a function

All code that constructs a function goes through a few edits of it: blocks, parameters, jump tables
and slots are made, instructions are inserted, removed and given other operands, blocks are placed
and removed. `Edit` lists them. A property of functions that every edit keeps (`Closed`) is kept by
every command that is made of edits; here that is shown of the cursor and of `cf_construct`.
-/

namespace Clir

open Cmd Cursor InstructionData

/-- The opcodes that are inserted without reading the config: those of the control flow, and those
that initialise and address the stack slots. -/
def Opcode.isStructural : Opcode → Bool
  | .jump | .brif | .brTable | .return_ | .nop | .stackAddr | .store => true
  | _ => false

/-- The opcodes of loads through an address. -/
def Opcode.isLoad : Opcode → Bool
  | .load | .uload8 | .sload8 | .uload16 | .sload16 | .uload32 | .sload32 | .uload8x8 | .sload8x8
  | .uload16x4 | .sload16x4 | .uload32x2 | .sload32x2 => true
  | _ => false

/-- The opcodes of stores through an address. -/
def Opcode.isStore : Opcode → Bool
  | .store | .istore8 | .istore16 | .istore32 => true
  | _ => false

/-- An instruction of the opcode may be inserted, whatever its results are. -/
def Opcode.Allowed (A : Opcode → List ClifType → Prop) (op : Opcode) : Prop :=
  op.isStructural = true ∨ ∀ tys, A op tys

namespace InstructionData

/-- The stack slot that an instruction names. -/
def stackSlot : InstructionData → Option StackSlot
  | stackLoad _ slot _ | stackStore _ _ slot _ => some slot
  | _ => none

/-- The opcode of an access to memory is one of its format. -/
def formatted : InstructionData → Bool
  | load op _ _ => op.isLoad
  | store op _ _ _ => op.isStore
  | stackLoad op _ _ => op = .stackLoad || op = .stackAddr
  | stackStore op _ _ _ => op = .stackStore
  | _ => true

/-- What stays of an instruction when it is given other operands and block calls. -/
structure Frame where
  opcode : Opcode
  callee : Option FuncRef
  stackSlot : Option StackSlot
  formatted : Bool

def frame (d : InstructionData) : Frame := ⟨d.opcode, d.callee, d.stackSlot, d.formatted⟩

theorem frame_withArguments (d : InstructionData) (args : List Value) :
    (d.withArguments args).frame = d.frame := by
  unfold withArguments
  split <;> rfl

/-- An instruction that can be inserted: it is no call, and its stack slot has been made. -/
structure Insertable (d : InstructionData) (f : Function) : Prop where
  callee : d.callee = none
  slot : ∀ slot, d.stackSlot = some slot → slot < f.sizedStackSlots.len
  formatted : d.formatted = true

/-- An instruction that names neither a function nor a slot. -/
theorem insertable {d : InstructionData} {f : Function}
    (h : (d.callee, d.stackSlot, d.formatted) = (none, none, true)) : d.Insertable f where
  callee := congrArg Prod.fst h
  slot slot hslot := by
    rw [show d.stackSlot = none from congrArg (fun x => x.2.1) h] at hslot
    cases hslot
  formatted := congrArg (fun x => x.2.2) h

end InstructionData

/-- One edit of a function. The opcode of a new instruction is structural, or `A` holds of it and
the types of the results. -/
inductive Edit (A : Opcode → List ClifType → Prop) : Function → Function → Prop
  | makeBlock (f : Function) : Edit A f f.makeBlock
  | appendBlockParam (f : Function) (b : Block) (ty : ClifType) :
      Edit A f (f.appendBlockParam b ty)
  | removeBlockParam (f : Function) (b : Block) (num : ℕ) : Edit A f (f.removeBlockParam b num)
  | createJumpTable (f : Function) (t : JumpTableData) : Edit A f (f.createJumpTable t)
  | setJumpTable (f : Function) (k : JumpTable) (t : JumpTableData) : Edit A f (f.setJumpTable k t)
  | replaceInst (f : Function) (i : Inst) (data : InstructionData) (hi : i < f.dfg.insts.len)
      (hframe : data.frame = (f.instData i).frame) : Edit A f (f.replaceInst i data)
  | createSizedStackSlot (f : Function) (size : ℕ) : Edit A f (f.createSizedStackSlot size)
  | importFunction (f : Function) (data : ExtFuncData) : Edit A f (f.importFunction data)
  | withSignature (f : Function) (sig : Signature) : Edit A f (f.withSignature sig)
  | inserted {f g : Function} {b : Block} {before after : List Inst} {data : InstructionData}
      {tys : List ClifType} (ctrl : ClifType)
      (hop : data.opcode.isStructural = true ∨ A data.opcode tys)
      (hdata : data.Insertable f) (htys : data.opcode.resultTypes ctrl = some tys)
      (he : Emitted f g b before after data tys) : Edit A f g
  | called {f g : Function} {b : Block} {before after : List Inst} {r : FuncRef}
      {args : List Value} {data : ExtFuncData} (hr : f.extFuncs.get? r = some data)
      (he : Emitted f g b before after (.call r args) data.signature.returns) : Edit A f g
  | removeInst (f : Function) (i : Inst) (b : Block) (hi : i ∈ f.layout.insts b) :
      Edit A f (f.removeInst i b hi)
  | appendBlock (f : Function) (b : Block) (hlt : b < f.dfg.blocks.len)
      (hb : b ∉ f.layout.blocks) : Edit A f (f.appendBlock b hlt hb)
  | insertBlockAfter (f : Function) (b after : Block) (hlt : b < f.dfg.blocks.len)
      (hb : b ∉ f.layout.blocks) (hafter : after ∈ f.layout.blocks) :
      Edit A f (f.insertBlockAfter b after hlt hb hafter)
  | removeBlock (f : Function) (b : Block) (hb : b ∈ f.layout.blocks)
      (hempty : f.layout.insts b = []) : Edit A f (f.removeBlock b hempty)

/-- Every edit keeps the property. -/
def Closed (A : Opcode → List ClifType → Prop) (J : Function → Prop) : Prop :=
  ∀ {f g : Function}, Edit A f g → J f → J g

/-- `g` is `f` after a number of edits. -/
def Evolves (A : Opcode → List ClifType → Prop) : Function → Function → Prop :=
  Relation.ReflTransGen (Edit A)

theorem Evolves.keeps {A : Opcode → List ClifType → Prop} {J : Function → Prop} {f g : Function}
    (h : Evolves A f g) (hJ : Closed A J) (hf : J f) : J g := by
  induction h with
  | refl => exact hf
  | tail _ he ih => exact hJ he ih

/-- The command keeps a property of the function. -/
abbrev Keeping {δ α : Type} (J : Function → Prop) (x : M δ α) : Prop :=
  Preserves (fun s => J s.func) x

namespace Closed

variable {A : Opcode → List ClifType → Prop} {J : Function → Prop} {δ α : Type}

/-! ## The cursor -/

section Reading

theorem func {k : Function → M δ α} (h : ∀ f, J f → Keeping J (k f)) :
    Keeping J (func >>= k) := fun s hs => ensures_bind_func (h s.func hs s hs)

theorem setFunc {f : Function} (h : J f) : Keeping J (setFunc f : M δ Unit) :=
  fun _ _ => ensures_setFunc h

theorem position : Keeping J (position : M δ CursorPosition) := fun _ hs => ensures_position hs

theorem setPosition (p : CursorPosition) : Keeping J (setPosition p : M δ Unit) :=
  fun _ hs => ensures_setPosition hs

theorem locals : Keeping J (locals : M δ δ) := fun _ hs => ensures_locals hs

theorem setLocals (x : δ) : Keeping J (setLocals x : M δ Unit) := fun _ hs => ensures_setLocals hs

theorem gotoInst (i : Inst) : Keeping J (gotoInst i : M δ Unit) :=
  func fun _ _ => .ite (setPosition _) (.panicWith _)

theorem gotoBottom (b : Block) : Keeping J (gotoBottom b : M δ Unit) :=
  func fun _ _ => .ite (setPosition _) (.panicWith _)

theorem gotoFirstInsertionPoint (b : Block) :
    Keeping J (gotoFirstInsertionPoint b : M δ Unit) := by
  refine func fun f _ => ?_
  cases f.layout.firstInst b with
  | none => exact gotoBottom b
  | some i => exact gotoInst i

theorem gotoFirstInst (b : Block) : Keeping J (gotoFirstInst b : M δ Unit) := by
  refine func fun f _ => ?_
  cases f.layout.firstInst b with
  | none => exact .panicWith _
  | some i => exact gotoInst i

theorem gotoLastInst (b : Block) : Keeping J (gotoLastInst b : M δ Unit) := by
  refine func fun f _ => ?_
  cases f.layout.lastInst b with
  | none => exact .panicWith _
  | some i => exact gotoInst i

theorem nextInst : Keeping J (nextInst : M δ (Option Inst)) := by
  have hgoto : ∀ (p : CursorPosition) (o : Option Inst), Keeping J
      (Cursor.setPosition p >>= fun _ => pure o : M δ (Option Inst)) :=
    fun p o => (setPosition p).bind fun _ => .pure o
  refine func fun f _ => position.bind fun p => ?_
  cases p with
  | nowhere | after => exact .pure none
  | at_ i =>
      cases hi : f.layout.instBlock i with
      | none =>
          simp only [hi]
          exact .panicWith _
      | some c =>
          simp only [hi]
          split
          · exact hgoto _ _
          · exact hgoto _ _
  | before c =>
      dsimp only
      split
      · exact hgoto _ _
      · exact hgoto _ _

theorem firstResult (i : Inst) : Keeping J (firstResult i : M δ Value) := by
  refine func fun f _ => ?_
  cases (f.dfg.results i).head? with
  | none => exact .panicWith _
  | some v => exact .pure v

theorem selectValue (values : List Value) : Keeping J (selectValue values : M δ Value) :=
  .of_mem_eq fun _ => ensures_select values

end Reading

variable (hJ : Closed A J)
include hJ

theorem makeBlock : Keeping J (makeBlock : M δ Block) :=
  func fun f hf => (setFunc (hJ (.makeBlock f) hf)).bind fun _ => .pure _

theorem appendBlockParam (b : Block) (ty : ClifType) :
    Keeping J (appendBlockParam b ty : M δ Value) :=
  func fun f hf => (setFunc (hJ (.appendBlockParam f b ty) hf)).bind fun _ => .pure _

theorem removeBlockParam (v : Value) : Keeping J (removeBlockParam v : M δ Unit) := by
  refine func fun f hf => ?_
  cases (f.dfg.values.get v).source with
  | param b num => exact setFunc (hJ (.removeBlockParam f b num) hf)
  | result i num => exact .panicWith _

theorem createJumpTable (t : JumpTableData) : Keeping J (createJumpTable t : M δ JumpTable) :=
  func fun f hf => (setFunc (hJ (.createJumpTable f t) hf)).bind fun _ => .pure _

theorem removeBlock (b : Block) : Keeping J (removeBlock b : M δ Unit) := by
  refine func fun f hf => ?_
  split
  · split
    · exact setFunc (hJ (.removeBlock f b ‹_› ‹_›) hf)
    · exact .panicWith _
  · exact .panicWith _

theorem removeInst : Keeping J (removeInst : M δ Inst) := by
  have hremove : ∀ i, Keeping J (removeInstFromLayout i : M δ Unit) := by
    intro i
    refine func fun f hf => ?_
    split
    · exact setFunc (hJ (.removeInst f i _ (Layout.mem_insts_of_instBlock ‹_›)) hf)
    · exact .panicWith _
  refine position.bind fun p => ?_
  cases p with
  | at_ i => exact nextInst.bind fun _ => (hremove i).bind fun _ => .pure i
  | _ => exact .panicWith _

theorem insertBlock (b : Block) : Keeping J (insertBlock b : M δ Unit) := by
  have happend : Keeping J (appendBlock b : M δ Unit) := by
    refine func fun f hf => ?_
    split
    · exact setFunc (hJ (.appendBlock f b _ _) hf)
    · exact .panicWith _
  have hafter : ∀ a, Keeping J (insertBlockAfter b a : M δ Unit) := by
    intro a
    refine func fun f hf => ?_
    split
    · split
      · exact setFunc (hJ (.insertBlockAfter f b a _ _ ‹_›) hf)
      · exact .panicWith _
    · exact .panicWith _
  refine position.bind fun p => ?_
  cases p with
  | nowhere => exact happend.bind fun _ => setPosition _
  | after a => exact (hafter a).bind fun _ => setPosition _
  | _ => exact (Preserves.panicWith _).bind fun _ => setPosition _

/-- An instruction is inserted at the cursor, with the results that it has there. -/
theorem insWith (data : InstructionData) (ctrl : ClifType)
    (hop : ∀ tys, data.opcode.resultTypes ctrl = some tys →
      data.opcode.isStructural = true ∨ A data.opcode tys)
    (hdata : ∀ f, J f → data.Insertable f) : Keeping J (insTyped data ctrl : M δ Inst) := by
  unfold Cursor.insTyped
  split
  · rename_i tys htys
    intro s hs
    refine (ensures_build data tys).mono ?_
    rintro i s' ⟨-, ⟨_, _, _, he⟩, -⟩
    exact hJ (.inserted ctrl (hop tys htys) (hdata _ hs) htys he) hs
  · exact .panicWith _

theorem insTyped (data : InstructionData) (hop : data.opcode.Allowed A)
    (hdata : ∀ f, J f → data.Insertable f) (ctrl : ClifType) :
    Keeping J (insTyped data ctrl : M δ Inst) :=
  hJ.insWith data ctrl (fun tys _ => hop.imp_right fun h => h tys) hdata

theorem ins (data : InstructionData) (hop : data.opcode.Allowed A)
    (hdata : ∀ f, J f → data.Insertable f) : Keeping J (ins data : M δ Inst) :=
  func fun _ _ => hJ.insTyped data hop hdata _

theorem setJumpTable (k : JumpTable) (t : Function → JumpTableData) :
    Keeping J (Cursor.func >>= fun f => Cursor.setFunc (f.setJumpTable k (t f)) : M δ Unit) :=
  func fun f hf => setFunc (hJ (.setJumpTable f k (t f)) hf)

/-! ## The construction of control flow -/

section Construct

omit hJ in
theorem asBlock (message : String) (t : BlockType) : Keeping J (t.asBlock message : M δ Block) := by
  cases t with
  | block b => exact .pure b
  | _ => exact .panicWith _

omit hJ in
theorem entry (o : Option BlockType) : Keeping J (BlockType.entry o : M δ Block) := by
  cases o with
  | none => exact .panicWith _
  | some t => exact asBlock _ t

omit hJ in
theorem getFirstBlock (t : BlockType) : Keeping J (t.getFirstBlock : M δ Block) := by
  cases t with
  | block b => exact .pure b
  | sequential bs => exact entry _
  | _ => exact asBlock _ _

omit hJ in
theorem getLastBlock (t : BlockType) : Keeping J (t.getLastBlock : M δ Block) := by
  cases t with
  | block b => exact .pure b
  | sequential bs => exact entry _
  | _ => exact asBlock _ _

omit hJ in
theorem getRandomBlock (t : BlockType) : Keeping J (t.getRandomBlock : M δ Block) := by
  cases t with
  | block b => exact .pure b
  | sequential bs => exact (Preserves.genRange _ _).bind fun i => entry _
  | ifElse => exact (Preserves.genRange _ _).bind fun n => by split <;> exact asBlock _ _
  | while_ => exact (Preserves.genRange _ _).bind fun n => by split <;> exact asBlock _ _
  | switch =>
      refine (Preserves.genRange _ _).bind fun n => ?_
      split
      · exact asBlock _ _
      · exact asBlock _ _
      · exact (Preserves.genRange _ _).bind fun i => (Preserves.unwrap _).bind fun t => asBlock _ t

theorem insJump (b : Block) : Keeping J (insJump b : M δ Unit) :=
  (hJ.ins _ (.inl rfl) fun _ _ => insertable rfl).bind fun _ => .pure _

theorem insBrif (v : Value) (t e : Block) : Keeping J (insBrif v t e : M δ Unit) :=
  (hJ.ins _ (.inl rfl) fun _ _ => insertable rfl).bind fun _ => .pure _

theorem insBrTable (v : Value) (k : JumpTable) : Keeping J (insBrTable v k : M δ Unit) :=
  (hJ.ins _ (.inl rfl) fun _ _ => insertable rfl).bind fun _ => .pure _

theorem makeBlocks (n : ℕ) : Keeping J (makeBlocks n : M δ (List Block)) := by
  induction n with
  | zero => exact .pure []
  | succ n ih => exact hJ.makeBlock.bind fun b => ih.bind fun bs => .pure (b :: bs)

theorem placeChain (bs : List Block) : Keeping J (placeChain bs : M δ Unit) := by
  induction bs with
  | nil => exact .panicWith _
  | cons b rest ih =>
      cases rest with
      | nil => exact hJ.insertBlock b
      | cons c rest => exact (hJ.insertBlock b).bind fun _ => (hJ.insJump c).bind fun _ => ih

theorem sequential (n : ℕ) : Keeping J (sequential n : M δ BlockType) :=
  (hJ.makeBlocks n).bind fun bs => (setPosition _).bind fun _ => (hJ.placeChain bs).bind fun _ =>
    .pure _

theorem ifElse : Keeping J (ifElse : M δ BlockType) := by
  refine hJ.makeBlock.bind fun condBlock => hJ.makeBlock.bind fun trueBlock =>
    hJ.makeBlock.bind fun falseBlock => hJ.makeBlock.bind fun lastBlock =>
      (hJ.appendBlockParam condBlock .i32).bind fun cond => (setPosition _).bind fun _ => ?_
  exact (hJ.insertBlock condBlock).bind fun _ => (hJ.insBrif cond _ _).bind fun _ =>
    (hJ.insertBlock trueBlock).bind fun _ => (hJ.insJump lastBlock).bind fun _ =>
      (hJ.insertBlock falseBlock).bind fun _ => (hJ.insJump lastBlock).bind fun _ =>
        (hJ.insertBlock lastBlock).bind fun _ => .pure _

theorem whileBlocks : Keeping J (whileBlocks : M δ BlockType) := by
  refine hJ.makeBlock.bind fun condBlock => hJ.makeBlock.bind fun bodyBlock =>
    hJ.makeBlock.bind fun falseBlock => (hJ.appendBlockParam condBlock .i32).bind fun cond =>
      (setPosition _).bind fun _ => ?_
  exact (hJ.insertBlock condBlock).bind fun _ => (hJ.insBrif cond _ _).bind fun _ =>
    (hJ.insertBlock bodyBlock).bind fun _ => (hJ.insJump condBlock).bind fun _ =>
      (hJ.insertBlock falseBlock).bind fun _ => .pure _

theorem switchBlocks (n : ℕ) : Keeping J (switchBlocks n : M δ BlockType) := by
  refine hJ.makeBlock.bind fun condBlock => hJ.makeBlock.bind fun defaultBlock =>
    hJ.makeBlock.bind fun lastBlock => (hJ.makeBlocks n).bind fun caseBlocks =>
      (hJ.appendBlockParam condBlock .i32).bind fun cond => (hJ.createJumpTable _).bind fun table =>
        (setPosition _).bind fun _ => ?_
  have hcase : ∀ b, Keeping J
      (Cursor.insertBlock b >>= fun _ => Clir.insJump lastBlock : M δ Unit) := fun b =>
    (hJ.insertBlock b).bind fun _ => hJ.insJump lastBlock
  exact (hJ.insertBlock condBlock).bind fun _ => (hJ.insBrTable cond table).bind fun _ =>
    (Preserves.forM hcase caseBlocks).bind fun _ => (hJ.insertBlock defaultBlock).bind fun _ =>
      (hJ.insJump lastBlock).bind fun _ => (hJ.insertBlock lastBlock).bind fun _ => .pure _

omit hJ in
theorem getBlockLastControlInstr (b : Block) :
    Keeping J (getBlockLastControlInstr b : M δ (Option InstructionData)) := by
  refine func fun f _ => ?_
  cases f.layout.lastInst b with
  | none => exact .pure none
  | some i => exact (setPosition _).bind fun _ => .pure _

theorem updatePredecessorOf (block replaced preBlock : Block) :
    Keeping J (updatePredecessorOf block replaced preBlock : M δ Unit) := by
  refine (getBlockLastControlInstr preBlock).bind fun o => (Preserves.unwrap o).bind
    fun control => ?_
  cases control with
  | brif arg t e =>
      exact hJ.removeInst.bind fun _ =>
        .ite (hJ.insBrif _ _ _) (.ite (hJ.insBrif _ _ _) (.panicWith _))
  | branchTable arg k => exact hJ.setJumpTable k _
  | jump d => exact hJ.removeInst.bind fun _ => hJ.insJump block
  | _ => exact .panicWith _

theorem updatePredecessor (block replaced : Block) :
    Keeping J (updatePredecessor block replaced : M δ Unit) :=
  func fun _ _ => (setPosition _).bind fun _ =>
    .forM (fun _ => hJ.updatePredecessorOf block replaced _) _

theorem updateSuccessor (block replaced : Block) :
    Keeping J (updateSuccessor block replaced : M δ Unit) := by
  have hend : Keeping J (Cursor.removeBlock replaced : M δ Unit) := hJ.removeBlock replaced
  have hjump : ∀ post, Keeping J (do
      Cursor.gotoBottom block
      Clir.insJump post
      Cursor.removeBlock replaced : M δ Unit) :=
    fun post => (gotoBottom block).bind fun _ => (hJ.insJump post).bind fun _ => hend
  refine func fun f _ => (setPosition _).bind fun _ => ?_
  split
  · exact (Preserves.pure ()).bind fun _ => hend
  · exact (getBlockLastControlInstr replaced).bind fun o =>
      .ite (hJ.removeInst.bind fun _ => hjump _) (hjump _)
  · refine (getBlockLastControlInstr replaced).bind fun o => ?_
    cases o with
    | none => exact (Preserves.panicWith _).bind fun _ => hend
    | some control =>
        refine hJ.removeInst.bind fun _ => (gotoBottom block).bind fun _ => ?_
        cases control with
        | brif arg t e => exact (hJ.insBrif _ _ _).bind fun _ => hend
        | _ => exact (Preserves.panicWith _).bind fun _ => hend
  · refine (hJ.createJumpTable _).bind fun table => (getBlockLastControlInstr replaced).bind
      fun o => ?_
    cases o with
    | none => exact (Preserves.panicWith _).bind fun _ => hend
    | some control =>
        refine hJ.removeInst.bind fun _ => (gotoBottom block).bind fun _ => ?_
        cases control with
        | branchTable arg k => exact (hJ.insBrTable _ _).bind fun _ => hend
        | _ => exact (Preserves.panicWith _).bind fun _ => hend

omit hJ in
theorem chooseKind (threshold : ℕ) : Keeping J (chooseKind threshold) :=
  (Preserves.genRange _ _).bind fun _ => .ite (.genRange _ _) (.pure _)

theorem makeChild (choice : ℕ) : Keeping J (makeChild choice) := by
  unfold Clir.makeChild
  split
  · exact (Preserves.genRange _ _).bind fun n => (hJ.sequential n).bind fun _ => .pure _
  · exact hJ.ifElse.bind fun _ => .pure _
  · exact hJ.whileBlocks.bind fun _ => .pure _
  · exact (Preserves.genRange _ _).bind fun n => (hJ.switchBlocks n).bind fun _ => .pure _
  · exact .pure none

theorem replaceBlock (child : BlockType) (replaced : Block) :
    Keeping J (replaceBlock child replaced) :=
  func fun _ _ => (getFirstBlock child).bind fun first =>
    (hJ.updatePredecessor first replaced).bind fun _ => (getLastBlock child).bind fun last =>
      func fun _ _ => (hJ.updateSuccessor last replaced).bind fun _ => func fun _ _ =>
        locals.bind fun _ => setLocals _

theorem cfReplace (parent : BlockType) (threshold : ℕ) {otherwise : M History Unit}
    (hotherwise : Keeping J otherwise) : Keeping J (cfReplace parent threshold otherwise) := by
  refine (chooseKind threshold).bind fun choice => (getRandomBlock parent).bind fun replaced =>
    (hJ.makeChild choice).bind fun o => ?_
  cases o with
  | none => exact hotherwise.bind fun _ => .pure none
  | some child => exact (hJ.replaceBlock child replaced).bind fun _ => .pure (some child)

theorem cfRoot : Keeping J cfRoot := by
  refine hJ.makeBlock.bind fun entryBlock => hJ.makeBlock.bind fun endBlock =>
    (setPosition _).bind fun _ => (hJ.insertBlock entryBlock).bind fun _ =>
      (hJ.insertBlock endBlock).bind fun _ => (chooseKind 2).bind fun choice =>
        (hJ.makeChild choice).bind fun o => ?_
  cases o with
  | none => exact .pure none
  | some child =>
      exact (setPosition _).bind fun _ => (gotoBottom entryBlock).bind fun _ =>
        (getFirstBlock child).bind fun first => (hJ.insJump first).bind fun _ =>
          (getLastBlock child).bind fun last => (gotoBottom last).bind fun _ =>
            (hJ.insJump endBlock).bind fun _ => .pure _

theorem cfLevel (parent : Option BlockType) : Keeping J (cfLevel parent) := by
  rcases parent with _ | _ | bs | ⟨c, t, e, l⟩ | ⟨h, b, x⟩ | ⟨h, d, cs, l⟩
  · exact hJ.cfRoot
  · exact .pure none
  · exact hJ.cfReplace _ _ (.panicWith _)
  · exact hJ.cfReplace _ _ (.pure _)
  · exact hJ.cfReplace _ _ (.pure _)
  · exact hJ.cfReplace _ _ (.pure _)

theorem cfLevels (levels : ℕ) (parent : Option BlockType) : Keeping J (cfLevels levels parent) := by
  induction levels generalizing parent with
  | zero => exact (hJ.cfLevel parent).bind fun _ => .pure _
  | succ levels ih =>
      refine (hJ.cfLevel parent).bind fun o => ?_
      cases o with
      | none => exact .pure ()
      | some child => exact ih (some child)

end Construct

end Closed

end Clir
