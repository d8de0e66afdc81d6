import Clir.Cg.Tree
import Clir.Gen.Evolution
import Clir.Gen.Supported

set_option autoImplicit false

/-! # The program is a closed call tree

The names in the tree are distinct. So each function finds its own entry in the list, and no other
one, and gets one call to each of its children. The output therefore has the functions of the tree
in post-order, and the calls are the edges of the tree.
-/

namespace Clir

open Cmd Cursor Relation

/-! ## The calls of a function -/

/-- The functions that the instructions of a function call, one for each call. -/
def Function.called (f : Function) : List ExtFuncData :=
  (f.layout.blocks.flatMap f.layout.insts).filterMap fun i =>
    (f.instData i).callee.map f.extFuncs.get

theorem Layout.nodup_flatMap_insts (l : Layout) : (l.blocks.flatMap l.insts).Nodup := by
  refine List.nodup_flatMap.mpr ⟨fun b _ => l.insts_nodup b, ?_⟩
  refine l.blocks_nodup.imp fun {b c} hne => ?_
  exact fun i hb hc => hne (l.insts_disjoint b c i hb hc)

section Called

variable {S : Setting} {pools : ValueMap} {children : List Child} {f g : Function}

/-- The instructions that are new are numbered like the children. -/
theorem Inserted.new_perm (h : Inserted S pools children f g) :
    ((g.layout.blocks.flatMap g.layout.insts).filter (f.dfg.insts.len ≤ ·)).Perm
      ((List.range children.length).map (f.dfg.insts.len + ·)) := by
  refine (List.perm_ext_iff_of_nodup (g.layout.nodup_flatMap_insts.filter _) ?_).mpr fun i => ?_
  · exact List.nodup_range.map fun _ _ => Nat.add_left_cancel
  · simp only [List.mem_filter, List.mem_flatMap, decide_eq_true_eq, List.mem_map, List.mem_range]
    constructor
    · rintro ⟨⟨b, -, hi⟩, hle⟩
      obtain ⟨k, rfl⟩ := Nat.exists_eq_add_of_le hle
      have hlt := g.insts_lt b _ hi
      rw [h.insts_len] at hlt
      exact ⟨k, Nat.lt_of_add_lt_add_left hlt, rfl⟩
    · rintro ⟨k, hk, rfl⟩
      obtain ⟨b, hb, -, hi, -⟩ := (h.called k _ (List.getElem?_eq_getElem hk)).placed
      refine ⟨⟨b, ?_, hi⟩, Nat.le_add_right _ _⟩
      rwa [h.sound.frame.blocks]

/-- **A function without calls gets one call to each child.** -/
theorem Inserted.called_perm (h : Inserted S pools children f g)
    (hf : ∀ b, ∀ i ∈ f.layout.insts b, (f.instData i).opcode.isCall = false) :
    g.called.Perm (children.map fun c => ⟨c.name, c.signature⟩) := by
  -- an instruction that was there is no call
  have hold : g.called = ((g.layout.blocks.flatMap g.layout.insts).filter
      (f.dfg.insts.len ≤ ·)).filterMap fun i => (g.instData i).callee.map g.extFuncs.get := by
    rw [Function.called, List.filterMap_filter]
    refine List.filterMap_congr fun i hi => ?_
    obtain ⟨b, -, hi⟩ := List.mem_flatMap.mp hi
    split_ifs with hle
    · rfl
    · have hlt : i < f.dfg.insts.len := by simpa using hle
      have hcall := hf b i (h.stays.mem_of_lt hi hlt)
      rw [h.stays.callee i hlt]
      cases hc : (f.instData i).callee with
      | none => rfl
      | some r =>
          obtain ⟨args, hd⟩ := InstructionData.callee_eq_some.mp hc
          rw [hd] at hcall
          cases hcall
  have hnew : ((List.range children.length).map (f.dfg.insts.len + ·)).filterMap
      (fun i => (g.instData i).callee.map g.extFuncs.get) =
        children.map fun c => ⟨c.name, c.signature⟩ := by
    rw [List.filterMap_map]
    conv_rhs => rw [← ListEdit.filterMap_range_getElem? (children.map _)]
    rw [List.length_map]
    refine List.filterMap_congr fun k hk => ?_
    have hk' := List.getElem?_eq_getElem (List.mem_range.mp hk)
    obtain ⟨r, -, hr, hext⟩ := (h.called k _ hk').callee
    simp only [Function.comp_apply, List.getElem?_map, hr, hk', Option.map_some, hext]
  rw [hold, ← hnew]
  exact h.new_perm.filterMap _

end Called

/-! ## One function -/

/-- The entry of a function that has been made from a name and a signature. -/
def Made (cfDepth : ℕ) (isRootFunc : Bool) (config : ArchConfig) (name : FuncName)
    (sig : Signature) (e : Generated) : Prop :=
  ∃ w₁ w, Constructed cfDepth name sig w₁ ∧
    functionGenerator isRootFunc config w₁ = .ok (e.dominanceMap, e.blockDefValues) w ∧
    w.mem.func = e.func

/-- The function that is written for a name and a signature, with calls to the children. -/
structure Written (isRootFunc : Bool) (name : FuncName) (sig : Signature) (children : List Child)
    (g : Function) : Prop where
  name : g.name = name
  signature : isRootFunc = false → g.signature = sig
  called : g.called.Perm (children.map fun c => ⟨c.name, c.signature⟩)
  direct : ∀ b, ∀ i ∈ g.layout.insts b, (g.instData i).opcode.isCall = true →
    ∃ r args, g.instData i = .call r args

/-- The function that is assembled for a name and a signature: it is made, and the calls to the
children are inserted. -/
def Assembled (cfDepth : ℕ) (isRootFunc : Bool) (config : ArchConfig) (name : FuncName)
    (sig : Signature) (children : List Child) (g : Function) : Prop :=
  ∃ (e : Generated) (w₁ w : World (State Locals)) (hc : Constructed cfDepth name sig w₁),
    functionGenerator isRootFunc config w₁ = .ok (e.dominanceMap, e.blockDefValues) w ∧
      w.mem.func = e.func ∧
        Inserted (hc.setting config) e.blockDefValues children w.mem.func g ∧
          EvolvesByCalls w.mem.func g

/-- A signature of types of signatures, with something to return. -/
structure Signature.Drawn (sig : Signature) : Prop where
  params : sig.params ⊆ rootTypes
  returns : sig.returns ⊆ rootTypes
  returns_ne_nil : sig.returns ≠ []

/-- A child that can be called from every function. -/
structure Child.Callable (child : Child) : Prop where
  named : ∃ namespace_ id, child.name = .user namespace_ id
  params : child.signature.params ⊆ rootTypes

section Function

variable {cfDepth : ℕ} {isRootFunc : Bool} {config : ArchConfig} {name : FuncName} {sig : Signature}
  {e : Generated} {a : Assembly} {children : List Child} {g : Function} {P : Prop}

theorem Made.func_name (h : Made cfDepth isRootFunc config name sig e) : e.func.name = name := by
  obtain ⟨w₁, w, hc, hgen, hfunc⟩ := h
  rw [← hfunc, (hc.generates hgen).complete.name]
  exact hc.name_eq

/-- The skeleton of a function and all its instructions are made by edits. -/
theorem Constructed.evolves {w₁ w : World (State Locals)} {r : BlockMap (List Block) × ValueMap}
    (hc : Constructed cfDepth name sig w₁)
    (hgen : functionGenerator isRootFunc config w₁ = .ok r w) :
    Evolves config.Emits (.new name sig) w.mem.func := by
  have hclosed : Closed config.Emits (Evolves config.Emits (.new name sig)) := fun he h => h.tail he
  obtain ⟨draws, hrun⟩ := hc.run
  have hstart : Evolves config.Emits (.new name sig) (buildStart name sig draws).mem.func := .refl
  have hskeleton : Evolves config.Emits (.new name sig) w₁.mem.func :=
    (Closed.withLocals (Closed.cfLevels hclosed _ none) _ hstart).of_ok hrun
  exact (Closed.functionGenerator hclosed isRootFunc _ hskeleton).of_ok hgen

/-- **An assembled function is made from an empty one by edits**, which insert opcodes that are
structural or enabled. -/
theorem Assembled.evolves (h : Assembled cfDepth isRootFunc config name sig children g) :
    Evolves config.Emits (.new name sig) g := by
  obtain ⟨e, w₁, w, hc, hgen, -, -, hcalls⟩ := h
  exact (hc.evolves hgen).trans (hcalls.evolves _)

/-- **An assembled function has its name and signature, and one call to each child.** -/
theorem Assembled.written (h : Assembled cfDepth isRootFunc config name sig children g) :
    Written isRootFunc name sig children g := by
  obtain ⟨e, w₁, w, hc, hgen, hfunc, hins, -⟩ := h
  have hout := hc.generates hgen
  refine ⟨?_, fun hroot => ?_, hins.called_perm hout.noCalls, ?_⟩
  · rw [hins.stays.name, hout.complete.name]
    exact hc.name_eq
  · rw [hins.stays.signature, hout.signature hroot]
    exact hc.signature_eq
  · intro b i hi hcall
    -- a call is an instruction of the invocations, as the function had none before
    by_cases hnew : w.mem.func.dfg.insts.len ≤ i
    · obtain ⟨k, rfl⟩ := Nat.exists_eq_add_of_le hnew
      have hlt := g.insts_lt b _ hi
      rw [hins.insts_len] at hlt
      obtain ⟨r, -, hr, -⟩ :=
        (hins.called k _ (List.getElem?_eq_getElem (Nat.lt_of_add_lt_add_left hlt))).callee
      exact ⟨r, InstructionData.callee_eq_some.mp hr⟩
    · have hlt := Nat.lt_of_not_le hnew
      rw [hins.stays.keeps.opcode i hlt, hout.noCalls b i (hins.stays.mem_of_lt hi hlt)] at hcall
      cases hcall

/-! In what follows `P` is an assumption under which nothing panics; what is said of the functions
that are written does not depend on it. -/

theorem generateFunction_spec (hP : P → config.Supported ∧ sig.returns ⊆ rootTypes) :
    Ensures (fun e _ => P → e = .starved)
      (generateFunction cfDepth isRootFunc config (.new name sig)) a fun f a' =>
        ∃ e, Made cfDepth isRootFunc config name sig e ∧ e.func = f ∧
          a' = { a with funcDominatorRefMapVec := a.funcDominatorRefMapVec ++ [e] } := by
  have hbuild : Ensures (fun e _ => P → e = .starved) (buildFunction cfDepth isRootFunc config)
      ⟨.new name sig, .nowhere, {}⟩ fun r s =>
        Made cfDepth isRootFunc config name sig ⟨s.func, r.1, r.2⟩ := by
    refine (ensures_leads _ _).traced.mono ?_ |>.weaken ?_
    · rintro r s ⟨draws, rest, hrun⟩
      obtain ⟨w₁, hc, hgen⟩ := buildFunction_eq_ok hrun
      exact ⟨w₁, _, hc, hgen, rfl⟩
    · rintro e s ⟨-, draws, rest, hrun⟩ hp
      exact buildFunction_starved (hP hp).1 (hP hp).2 hrun
  unfold generateFunction
  refine Ensures.pick (P := fun r => Made cfDepth isRootFunc config name sig
    ⟨r.2.func, r.1.1, r.1.2⟩) (Ensures.onMem hbuild (fun _ _ => id) fun r s h => ⟨rfl, h⟩) ?_
  rintro ⟨r, s⟩ hmade
  refine Ensures.bind (Ensures.update (Q := fun _ a'' => a'' = _) rfl) ?_
  rintro - _ rfl
  exact Ensures.pure ⟨⟨s.func, r.1, r.2⟩, hmade, rfl, rfl⟩

/-- **A function that finds its own entry is written with one call to each child.** -/
theorem writeWithCalls_spec (hP : P → config.Supported ∧ ∀ child ∈ children, child.Callable)
    (he : Made cfDepth isRootFunc config name sig e)
    (hentries : a.funcDominatorRefMapVec.filter (fun e' => e.func.name = e'.func.name) = [e]) :
    Ensures (fun e _ => P → e = .starved) (writeWithCalls children e.func) a fun _ a' =>
      ∃ g, Assembled cfDepth isRootFunc config name sig children g ∧
        a' = { a with clifOutput := a.clifOutput ++ [g] } := by
  obtain ⟨w₁, w, hc, hgen, hfunc⟩ := id he
  have hinsert : Ensures (fun e _ => P → e = .starved)
      (insertFunctionInvocation children a.funcDominatorRefMapVec)
      (⟨e.func, .nowhere, {}⟩ : State Locals) fun _ s =>
        Inserted (hc.setting config) e.blockDefValues children w.mem.func s.func ∧
          EvolvesByCalls w.mem.func s.func := by
    have hstart : (⟨[], ⟨e.func, .nowhere, {}⟩⟩ : World (State Locals)).mem.func = w.mem.func :=
      hfunc.symm
    have hclosed : ClosedUnderCalls (EvolvesByCalls w.mem.func) := fun he h => h.tail he
    have hrefl : EvolvesByCalls w.mem.func e.func := hfunc ▸ Relation.ReflTransGen.refl
    have hevolves := ClosedUnderCalls.insertFunctionInvocation hclosed children
      a.funcDominatorRefMapVec (⟨e.func, .nowhere, {}⟩ : State Locals) hrefl
    refine ((hc.insertFunctionInvocation_spec hgen hstart ?_).and hevolves).weaken
      fun e' s hstarved hp => hstarved ?_
    · rw [hfunc]
      exact hentries
    · intro child hchild
      obtain ⟨hok, hcallable⟩ := hP hp
      refine ⟨(hcallable child hchild).named, fun t ht => ?_⟩
      rw [hc.stock_eq]
      exact List.mem_append_left _ (hok.root t ((hcallable child hchild).params ht))
  unfold writeWithCalls
  refine Ensures.pick (P := fun x => x = a) (Ensures.mem ⟨rfl, rfl⟩) ?_
  rintro _ rfl
  refine Ensures.pick (P := fun r => Inserted (hc.setting config) e.blockDefValues children
    w.mem.func r.2.func ∧ EvolvesByCalls w.mem.func r.2.func)
      (Ensures.onMem hinsert (fun _ _ => id) fun r s h => ⟨rfl, h⟩) ?_
  rintro ⟨⟨⟩, s⟩ hins
  exact Ensures.update ⟨s.func, ⟨e, w₁, w, hc, hgen, hfunc, hins⟩, rfl⟩

end Function

/-! ## All functions -/

/-- The function that is written for a node other than the root. -/
def FunctionNode.WrittenAs (n : FunctionNode) (g : Function) : Prop :=
  Written false n.value.name n.value.sig n.getChildFuncsClone g

/-- The function that is assembled for a node other than the root. -/
def FunctionNode.AssembledAs (cfDepth : ℕ) (config : ArchConfig) (n : FunctionNode)
    (g : Function) : Prop :=
  Assembled cfDepth false config n.value.name n.value.sig n.getChildFuncsClone g

/-- A node other than the root, with children that can be called. -/
structure FunctionNode.Drawn (n : FunctionNode) : Prop where
  sig : n.value.sig.Drawn
  children : ∀ child ∈ n.getChildFuncsClone, child.Callable

theorem FunctionNode.children_withFunc (n : FunctionNode) (f : Function) :
    RoseTree.children (n.withFunc f) = n.children := rfl

section Program

variable {cfDepth : ℕ} {config : ArchConfig} {a : Assembly} {n root : FunctionNode}
  {nodes : List FunctionNode} {P : Prop}

/-- An entry is the only one of its name. -/
theorem filter_name_eq {before after : List Generated} {e : Generated}
    (hbefore : e.func.name ∉ before.map fun e => e.func.name)
    (hafter : e.func.name ∉ after.map fun e => e.func.name) :
    (before ++ e :: after).filter (fun e' => e.func.name = e'.func.name) = [e] := by
  have hnone : ∀ l : List Generated, (e.func.name ∉ l.map fun e => e.func.name) →
      l.filter (fun e' => e.func.name = e'.func.name) = [] := by
    intro l hl
    refine List.filter_eq_nil_iff.mpr fun e' he' heq => hl ?_
    rw [decide_eq_true_eq] at heq
    exact List.mem_map.mpr ⟨e', he', heq.symm⟩
  rw [List.filter_append, List.filter_cons_of_pos (by simp), hnone _ hbefore, hnone _ hafter]
  rfl

theorem generateNode_spec (hP : P → config.Supported ∧ n.Drawn) (hfresh : n.value.Fresh)
    (hnew : n.value.name ∉ a.funcDominatorRefMapVec.map fun e => e.func.name) :
    Ensures (fun e _ => P → e = .starved) (generateNode cfDepth config n) a fun _ a' =>
      ∃ e g, e.func.name = n.value.name ∧ n.AssembledAs cfDepth config g ∧
        a' = ⟨a.funcDominatorRefMapVec ++ [e], a.clifOutput ++ [g]⟩ := by
  unfold generateNode
  rw [show n.value.func = .new n.value.name n.value.sig from hfresh]
  refine Ensures.bind (generateFunction_spec fun hp => ⟨(hP hp).1, (hP hp).2.sig.returns⟩) ?_
  rintro _ _ ⟨e, he, rfl, rfl⟩
  have hown : e.func.name ∉ a.funcDominatorRefMapVec.map fun e => e.func.name := by
    rwa [he.func_name]
  refine (writeWithCalls_spec (fun hp => ⟨(hP hp).1, (hP hp).2.children⟩) he
    (filter_name_eq hown List.not_mem_nil)).mono ?_
  rintro - _ ⟨g, hg, rfl⟩
  exact ⟨e, g, he.func_name, hg, rfl⟩

/-- The loop over the functions other than the root. -/
theorem generateNodes_spec (hP : P → config.Supported ∧ ∀ n ∈ nodes, n.Drawn)
    (hfresh : ∀ n ∈ nodes, n.value.Fresh)
    (hnodup : ((a.funcDominatorRefMapVec.map fun e => e.func.name) ++
      nodes.map fun n => n.value.name).Nodup) :
    Ensures (fun e _ => P → e = .starved) (nodes.forM (generateNode cfDepth config)) a fun _ a' =>
      ∃ es gs, (es.map fun e => e.func.name) = (nodes.map fun n => n.value.name) ∧
        List.Forall₂ (FunctionNode.AssembledAs cfDepth config) nodes gs ∧
        a' = ⟨a.funcDominatorRefMapVec ++ es, a.clifOutput ++ gs⟩ := by
  -- names stay distinct, so that each function finds its own entry and no other
  induction nodes generalizing a with
  | nil => exact Ensures.pure ⟨[], [], rfl, .nil, by simp⟩
  | cons n nodes ih =>
      obtain ⟨hn, hrest⟩ := List.forall_mem_cons.mp hfresh
      have hnew : n.value.name ∉ a.funcDominatorRefMapVec.map fun e => e.func.name := fun hmem =>
        (List.nodup_append.mp hnodup).2.2 _ hmem _ List.mem_cons_self rfl
      refine Ensures.bind (generateNode_spec
        (fun hp => ⟨(hP hp).1, (hP hp).2 n List.mem_cons_self⟩) hn hnew) ?_
      rintro - _ ⟨e, g, he, hg, rfl⟩
      refine (ih (fun hp => ⟨(hP hp).1, fun n' hn' => (hP hp).2 n' (List.mem_cons_of_mem n hn')⟩)
        hrest ?_).mono ?_
      · rw [List.map_append, List.append_assoc, List.map_singleton, he]
        exact hnodup
      · rintro - _ ⟨es, gs, hes, hgs, rfl⟩
        refine ⟨e :: es, g :: gs, ?_, .cons hg hgs, by simp⟩
        rw [List.map_cons, List.map_cons, he, hes]

/-- **What is written for a call tree with distinct names.** -/
theorem generateProgram_assembled {count : ℕ}
    (hP : P → config.Supported ∧ root.value.sig.returns ⊆ rootTypes ∧
      (∀ child ∈ root.getChildFuncsClone, child.Callable) ∧
      ∀ n ∈ root.children.flatMap RoseTree.postOrder, FunctionNode.Drawn n)
    (hfresh : root.value.Fresh) (hname : root.value.name = .testcase "main")
    (hnodes : Numbered 0 count root.children) :
    Ensures (fun e _ => P → e = .starved) (generateProgram cfDepth config root) {} fun _ a' =>
      ∃ gs g, List.Forall₂ (FunctionNode.AssembledAs cfDepth config)
          (root.children.flatMap RoseTree.postOrder) gs ∧
        Assembled cfDepth true config root.value.name root.value.sig root.getChildFuncsClone g ∧
        a'.clifOutput = gs ++ [g] := by
  unfold generateProgram
  rw [show root.value.func = .new root.value.name root.value.sig from hfresh]
  refine Ensures.bind (generateFunction_spec fun hp => ⟨(hP hp).1, (hP hp).2.1⟩) ?_
  rintro _ _ ⟨e, he, rfl, rfl⟩
  change Ensures _ ((root.withFunc e.func).postOrder.dropLast.forM _ >>= fun _ => _) _ _
  rw [RoseTree.dropLast_postOrder, FunctionNode.children_withFunc]
  -- the name of the root is not a number
  have hmain : e.func.name ∉
      (root.children.flatMap RoseTree.postOrder).map fun n => n.value.name := by
    intro hmem
    obtain ⟨n, hn, heq⟩ := List.mem_map.mp hmem
    obtain ⟨k, -, -, hk⟩ := hnodes.named n hn
    rw [he.func_name, hname, hk] at heq
    cases heq
  refine Ensures.bind (generateNodes_spec (fun hp => ⟨(hP hp).1, (hP hp).2.2.2⟩) hnodes.fresh
    (List.nodup_cons.mpr ⟨hmain, hnodes.nodup⟩)) ?_
  rintro - _ ⟨es, gs, hes, hgs, rfl⟩
  rw [← hes] at hmain
  refine (writeWithCalls_spec (fun hp => ⟨(hP hp).1, (hP hp).2.2.1⟩) he
    (@filter_name_eq [] es e List.not_mem_nil hmain)).mono ?_
  rintro - _ ⟨g, hg, rfl⟩
  exact ⟨gs, g, hgs, hg, rfl⟩

theorem generateProgram_spec {count : ℕ} (hfresh : root.value.Fresh)
    (hname : root.value.name = .testcase "main") (hnodes : Numbered 0 count root.children) :
    Ensures (fun _ _ => True) (generateProgram cfDepth config root) {} fun _ a' =>
      ∃ gs g, List.Forall₂ FunctionNode.WrittenAs (root.children.flatMap RoseTree.postOrder) gs ∧
        Written true root.value.name root.value.sig root.getChildFuncsClone g ∧
        a'.clifOutput = gs ++ [g] := by
  refine ((generateProgram_assembled (P := False) False.elim hfresh hname hnodes).weaken
    fun _ _ _ => trivial).mono ?_
  rintro - a' ⟨gs, g, hgs, hg, hout⟩
  exact ⟨gs, g, hgs.imp fun _ _ h => h.written, hg.written, hout⟩

end Program

/-! ## The call tree -/

/-- A function of the program calls another one. -/
def CallsIn (program : List Function) (f g : Function) : Prop :=
  f ∈ program ∧ g ∈ program ∧ g.name ∈ f.called.map ExtFuncData.name

/-- The program is the call tree: it defines the function of each node, under a name of its own and
after those of the children, `main` last; the function of a node calls each of its children once
and nothing else, so that everything but `main` is called once, by the signature that it is defined
with. -/
structure ClosedCallTree (root : FunctionNode) (program : List Function) : Prop where
  defined : program.map Function.name = root.postOrder.map fun n => n.value.name
  distinct : (program.map Function.name).Nodup
  main_last : (program.map Function.name).getLast? = some (.testcase "main")
  after_children : ∀ p ∈ root.postOrder, ∀ c ∈ p.children,
    (program.map Function.name).idxOf c.value.name < (program.map Function.name).idxOf p.value.name
  direct : ∀ f ∈ program, ∀ b, ∀ i ∈ f.layout.insts b, (f.instData i).opcode.isCall = true →
    ∃ r args, f.instData i = .call r args
  calls_children : List.Forall₂ (fun n f =>
    (f.called.map ExtFuncData.name).Perm (n.children.map fun c => c.value.name))
      root.postOrder program
  called_once : (program.flatMap fun f => f.called.map ExtFuncData.name).Perm
    (program.map Function.name).dropLast
  signatures : ∀ f ∈ program, ∀ d ∈ f.called, ∃ g ∈ program, g.name = d.name ∧
    g.signature = d.signature
  acyclic : ∀ f, ¬ TransGen (CallsIn program) f f

section Closed

variable {root : FunctionNode} {count : ℕ} {gs : List Function} {g : Function}

/-- What is said of a function that is written, with the children by their names in the tree. -/
structure CallsChildren (n : FunctionNode) (f : Function) : Prop where
  name : f.name = n.value.name
  called : f.called.Perm (n.children.map fun c => ⟨c.value.name, c.value.sig⟩)
  direct : ∀ b, ∀ i ∈ f.layout.insts b, (f.instData i).opcode.isCall = true →
    ∃ r args, f.instData i = .call r args

theorem Written.callsChildren {isRootFunc : Bool} {n : FunctionNode} {sig : Signature}
    {f : Function} (h : Written isRootFunc n.value.name sig n.getChildFuncsClone f)
    (hfresh : ∀ c ∈ n.children, c.value.Fresh) : CallsChildren n f where
  name := h.name
  called := by
    refine h.called.trans (List.Perm.of_eq ?_)
    rw [FunctionNode.getChildFuncsClone, List.map_map]
    refine List.map_congr_left fun c hc => ?_
    simp only [Function.comp_apply, show c.value.func = _ from hfresh c hc]
    rfl
  direct := h.direct

theorem CallsChildren.closed (hname : root.value.name = .testcase "main")
    (hnodes : Numbered 0 count root.children)
    (hgs : List.Forall₂ (fun n f => CallsChildren n f ∧ f.signature = n.value.sig)
      (root.children.flatMap RoseTree.postOrder) gs)
    (hg : CallsChildren root g) : ClosedCallTree root (gs ++ [g]) := by
  have hall : List.Forall₂ CallsChildren root.postOrder (gs ++ [g]) := by
    rw [RoseTree.postOrder_eq]
    exact List.rel_append (hgs.imp fun _ _ => And.left) (.cons hg .nil)
  have hdefined : (gs ++ [g]).map Function.name = root.postOrder.map fun n => n.value.name :=
    ListEdit.map_eq_of_forall₂ (hall.imp fun _ _ h => h.name)
  have hdistinct : ((gs ++ [g]).map Function.name).Nodup := by
    rw [hdefined, RoseTree.postOrder_eq, List.map_append, List.map_singleton]
    refine hnodes.nodup.append (List.nodup_singleton _) fun name hmem hmem' => ?_
    obtain ⟨n, hn, rfl⟩ := List.mem_map.mp hmem
    obtain ⟨k, -, -, hk⟩ := hnodes.named n hn
    rw [List.mem_singleton, hk, hname] at hmem'
    cases hmem'
  have horder : ∀ p ∈ root.postOrder, ∀ c ∈ p.children,
      ((gs ++ [g]).map Function.name).idxOf c.value.name <
        ((gs ++ [g]).map Function.name).idxOf p.value.name := by
    intro p hp c hc
    refine ListEdit.idxOf_lt_of_sublist hdistinct ?_
    rw [hdefined]
    exact (RoseTree.pair_sublist_postOrder root p hp c hc).map fun n => n.value.name
  have hcalls : List.Forall₂ (fun n f =>
      (f.called.map ExtFuncData.name).Perm (n.children.map fun c => c.value.name))
        root.postOrder (gs ++ [g]) := by
    refine hall.imp fun n f h => ?_
    have hperm := h.called.map ExtFuncData.name
    rwa [List.map_map] at hperm
  refine ⟨hdefined, hdistinct, ?_, horder, fun f hf => ?_, hcalls, ?_, fun f hf d hd => ?_,
    fun f hcycle => ?_⟩
  · rw [List.map_append, List.map_singleton, List.getLast?_concat, hg.name, hname]
  · obtain ⟨n, -, h⟩ := ListEdit.exists_of_mem_right hall hf
    exact h.direct
  · -- the children of all nodes are all nodes but the root
    have hperm := (ListEdit.perm_flatMap_of_forall₂ hcalls).trans
      (List.Perm.of_eq (List.map_flatMap (f := fun n : FunctionNode => n.value.name)).symm)
    refine hperm.trans (((RoseTree.children_perm_postOrder root).map _).trans (List.Perm.of_eq ?_))
    rw [hdefined, ← List.map_dropLast, RoseTree.dropLast_postOrder]
  · obtain ⟨n, hn, h⟩ := ListEdit.exists_of_mem_right hall hf
    obtain ⟨c, hc, rfl⟩ := List.mem_map.mp (h.called.subset hd)
    have hmem := (RoseTree.children_perm_postOrder root).subset (List.mem_flatMap.mpr ⟨n, hn, hc⟩)
    obtain ⟨g', hg', hwritten⟩ := ListEdit.exists_of_mem_left hgs hmem
    exact ⟨g', List.mem_append_left _ hg', hwritten.1.name, hwritten.2⟩
  · -- a call goes to a function that is defined before
    have hstep : ∀ f f', CallsIn (gs ++ [g]) f f' →
        ((gs ++ [g]).map Function.name).idxOf f'.name <
          ((gs ++ [g]).map Function.name).idxOf f.name := by
      rintro f f' ⟨hf, -, hcall⟩
      obtain ⟨n, hn, h⟩ := ListEdit.exists_of_mem_right hall hf
      obtain ⟨d, hd, hdname⟩ := List.mem_map.mp hcall
      obtain ⟨c, hc, rfl⟩ := List.mem_map.mp (h.called.subset hd)
      rw [← hdname, h.name]
      exact horder n hn c hc
    have hlt : ∀ f', TransGen (CallsIn (gs ++ [g])) f f' →
        ((gs ++ [g]).map Function.name).idxOf f'.name <
          ((gs ++ [g]).map Function.name).idxOf f.name := by
      intro f' h
      induction h with
      | single h => exact hstep _ _ h
      | tail _ h ih => exact (hstep _ _ h).trans ih
    exact absurd (hlt f hcycle) (Nat.lt_irrefl _)

/-- The functions that are written for the nodes of a tree with numbered names. -/
theorem Written.closed (hname : root.value.name = .testcase "main")
    (hnodes : Numbered 0 count root.children)
    (hgs : List.Forall₂ FunctionNode.WrittenAs (root.children.flatMap RoseTree.postOrder) gs)
    (hg : Written true root.value.name root.value.sig root.getChildFuncsClone g) :
    ClosedCallTree root (gs ++ [g]) := by
  have hfresh : ∀ n ∈ root.postOrder, ∀ c ∈ n.children, c.value.Fresh := fun n hn c hc =>
    hnodes.fresh c ((RoseTree.children_perm_postOrder root).subset
      (List.mem_flatMap.mpr ⟨n, hn, hc⟩))
  refine CallsChildren.closed hname hnodes (ListEdit.imp_of_mem hgs fun n hn f _ hf => ?_)
    (hg.callsChildren (hfresh root root.mem_postOrder_self))
  have hn' : n ∈ root.postOrder := by
    rw [RoseTree.postOrder_eq]
    exact List.mem_append_left _ hn
  exact ⟨Written.callsChildren hf (hfresh n hn'), hf.signature rfl⟩

end Closed

/-- **The emitted program is a closed, non-recursive call tree**, for every depth of the tree and of
the control flow, every config and every stream of draws. -/
theorem generateIr_closedCallTree {cfDepth maxDepth : ℕ} {config : ArchConfig} {draws : List ℕ}
    {w : World Assembly} (h : generateIr cfDepth maxDepth config ⟨draws, {}⟩ = .ok () w) :
    ∃ root w₁, generateFunctionCallGraph maxDepth (⟨draws, {}⟩ : World Assembly) = .ok root w₁ ∧
      ClosedCallTree root w.mem.clifOutput := by
  obtain ⟨root, w₁, hroot, hprogram⟩ := bind_eq_ok.mp h
  refine ⟨root, w₁, hroot, ?_⟩
  obtain ⟨hmem, hfresh, hname, count, hnodes⟩ :=
    (generateFunctionCallGraph_spec maxDepth).of_ok hroot
  obtain ⟨draws₁, a⟩ := w₁
  obtain rfl : a = {} := hmem
  obtain ⟨gs, g, hgs, hg, hout⟩ := (generateProgram_spec hfresh hname hnodes).of_ok hprogram
  rw [hout]
  exact Written.closed hname hnodes hgs hg

/-- Draws for a tree of depth one: `main` has one child. -/
theorem generateIr_returns : returnsWith (generateIr 0 1 fullConfig) ⟨List.replicate 300 0, {}⟩
    (fun _ w => w.mem.clifOutput.length = 2) = true := by
  decide +kernel

theorem generateIr_closedCallTree_two : ∃ w root w₁,
    generateIr 0 1 fullConfig ⟨List.replicate 300 0, {}⟩ = .ok () w ∧
      generateFunctionCallGraph 1 (⟨List.replicate 300 0, {}⟩ : World Assembly) = .ok root w₁ ∧
      w.mem.clifOutput.length = 2 ∧ ClosedCallTree root w.mem.clifOutput := by
  obtain ⟨⟨⟩, w, hrun, hcheck⟩ := exists_of_returnsWith generateIr_returns
  obtain ⟨root, w₁, hroot, hclosed⟩ := generateIr_closedCallTree hrun
  exact ⟨w, root, w₁, hrun, hroot, of_decide_eq_true hcheck, hclosed⟩

end Clir
