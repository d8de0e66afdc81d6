import Clir.Gen.Join

set_option autoImplicit false

/-! # The finished function

After the two passes the last block gets a return. `Complete` is what holds of the function then;
it says nothing of the instructions that the blocks hold but what the invariant says, so that calls
may be inserted later without breaking it.
-/

namespace Clir

open Cmd Cursor Graph Relation

/-- What holds of a finished function and of the values recorded for it. -/
structure Complete (S : Setting) (f : Function) (pools : ValueMap) : Prop where
  valid : Valid S (fun _ => True) f pools
  nonempty : ∀ c ∈ S.start.layout.blocks, f.layout.insts c ≠ []
  seeded : S.Seeded f (f.layout.insts S.entry)
  defs : ∀ c ∈ S.start.layout.blocks, (pools.lookup c).isSome
  passes : ∀ b t, f.branch b = some t → ∀ c ∈ t.targets, Passes f pools c
  joins : ∀ c ∈ S.start.layout.blocks, c ≠ S.entry → f.blockParams c ≠ [] →
    2 ≤ (predBlocks S.start c).length
  nodup : ∀ c ∈ S.start.layout.blocks, c ≠ S.entry →
    ((f.blockParams c).map f.valueType).Nodup
  made : ∀ c ∈ S.start.layout.blocks, c ≠ S.entry → ∀ p ∈ f.blockParams c, p < f.dfg.values.len
  name : f.name = S.start.name

/-- Every block ends with a terminator. -/
def Setting.Terminated (S : Setting) (f : Function) : Prop :=
  ∀ c ∈ S.start.layout.blocks, ∃ i, f.layout.lastInst c = some i ∧
    (f.instData i).opcode.isTerminator = true

section Edits

variable {S : Setting} {f g : Function} {pools : ValueMap} {L : Locals} {joined : List Block}
  {b : Block} {before after : List Inst} {data : InstructionData} {tys : List ClifType}

theorem Joined.complete (h : Joined S joined (fun _ _ => False) f L) :
    Complete S f L.blockDefValues where
  valid := h.valid
  nonempty := h.nonempty
  seeded := h.seeded
  defs := h.defs
  passes b t ht c hc := h.passes b t ht c hc id
  joins := h.joins
  nodup := h.nodup
  made := h.made
  name := congrArg Prod.fst h.uncalled.declaration

/-- An edit that leaves the parameters and the block calls alone. -/
theorem Complete.edited (h : Complete S f pools) (hvalid : Valid S (fun _ => True) g pools)
    (hkeeps : Keeps S.base f g) (hslots : g.sizedStackSlots = f.sizedStackSlots)
    (hcalls : CallsKept f g) (hparams : ∀ c, g.blockParams c = f.blockParams c)
    (hname : g.name = f.name) : Complete S g pools where
  valid := hvalid
  nonempty c hc hnil := h.nonempty c hc (List.subset_nil.mp (hnil ▸ hkeeps.insts c))
  seeded := h.seeded.keeps hkeeps hslots (hkeeps.insts S.entry)
  defs := h.defs
  passes b t ht c hc := by
    have hshape := hcalls b
    rw [ht, Option.map_some] at hshape
    obtain ⟨t', ht', heq⟩ := Option.map_eq_some_iff.mp hshape.symm
    have htargets : t'.targets = t.targets := congrArg Prod.snd heq
    rw [← htargets] at hc
    obtain ⟨-, hblock, hne⟩ := h.valid.call_block ht' hc
    have hold := h.passes b t' ht' c hc
    unfold Passes at hold ⊢
    rw [hparams]
    refine ListEdit.imp_of_mem hold fun a _ p hp htv => ?_
    rwa [hkeeps.types p (h.made c.block hblock hne p hp)]
  joins c hc hne hp := h.joins c hc hne (hparams c ▸ hp)
  nodup c hc hne := by
    rw [hparams c, List.map_congr_left fun p hp => hkeeps.types p (h.made c hc hne p hp)]
    exact h.nodup c hc hne
  made c hc hne p hp := by
    rw [hparams c] at hp
    exact (h.made c hc hne p hp).trans_le hkeeps.values_len
  name := hname.trans h.name

theorem Complete.withSignature (h : Complete S f pools) (sig : Signature) :
    Complete S (f.withSignature sig) pools :=
  h.edited (h.valid.sameCode (f.keeps_withSignature S.base sig) (f.sameCode_withSignature sig))
    (f.keeps_withSignature S.base sig) rfl (fun _ => rfl) (fun _ => rfl) rfl

/-- A new instruction in front of the branch of a block. -/
theorem Complete.emitted (h : Complete S f pools) (he : Emitted f g b before after data tys)
    (hbranch : data.isBranch = false) (hend : after = [] → f.branch b = none)
    (hvalid : Valid S (fun _ => True) g pools) : Complete S g pools :=
  h.edited hvalid (he.keeps S.base hbranch hend) he.sizedStackSlots
    (fun c => by rw [he.branch hbranch hend c]) he.blockParams he.name

/-! ## The last block -/

/-- Every block but the exit block branches to another one. -/
theorem Setting.exists_edge (hb : b ∈ S.start.layout.blocks) (hne : b ≠ S.exit) :
    ∃ c, S.start.Edge b c := by
  rcases (S.skeleton.flow.coreach b hb).cases_head with heq | ⟨c, he, -⟩
  · exact absurd heq hne
  · exact ⟨c, he⟩

theorem Setting.exit_mem : S.exit ∈ S.start.layout.blocks := S.skeleton.flow.exit_mem

/-- The last block is the exit block. -/
theorem Valid.getLastBlock_eq {settled : Block → Prop} (h : Valid S settled f pools) :
    getLastBlock f S.order = some S.exit := by
  have hempty : ∀ b, ((ControlFlowGraph.withFunction f).succs b).isEmpty = true ↔
      ∀ c, ¬ S.start.Edge b c := by
    intro b
    rw [List.isEmpty_iff, List.eq_nil_iff_forall_not_mem]
    refine forall_congr' fun c => not_congr ?_
    rw [ControlFlowGraph.mem_succs, h.frame.edge_iff]
  unfold getLastBlock
  cases hfind : S.order.find? fun b => ((ControlFlowGraph.withFunction f).succs b).isEmpty with
  | none =>
      have hexit := List.find?_eq_none.mp hfind S.exit (Setting.mem_order.mpr Setting.exit_mem)
      exact absurd ((hempty S.exit).mpr S.skeleton.flow.no_succ) hexit
  | some b =>
      have hb : b ∈ S.start.layout.blocks := Setting.mem_order.mp (List.mem_of_find?_eq_some hfind)
      refine congrArg some (by_contra fun hne => ?_)
      obtain ⟨c, hc⟩ := Setting.exists_edge hb hne
      have hnone : ((ControlFlowGraph.withFunction f).succs b).isEmpty = true := by
        simpa using List.find?_some hfind
      exact (hempty b).mp hnone c hc

/-- The branches of the skeleton are still at the ends of the other blocks. -/
theorem Valid.lastInst_of_ne {settled : Block → Prop} (h : Valid S settled f pools)
    (hb : b ∈ S.start.layout.blocks) (hne : b ≠ S.exit) :
    ∃ i ∈ S.start.layout.insts b, f.layout.lastInst b = some i ∧
      (f.instData i).opcode = (S.start.instData i).opcode := by
  obtain ⟨t, ht⟩ := S.skeleton.branch b hb hne
  obtain ⟨i, -, hi, -⟩ := Function.exists_of_terminator ht
  have hmem : i ∈ S.start.layout.insts b := List.mem_of_mem_getLast? hi
  exact ⟨i, hmem, h.lastInst_eq hi, h.frame.opcode i (S.start.insts_lt b i hmem)⟩

/-- Hence the other blocks have a terminator. -/
theorem Valid.terminated_of_ne {settled : Block → Prop} (h : Valid S settled f pools)
    (hb : b ∈ S.start.layout.blocks) (hne : b ≠ S.exit) :
    ∃ i, f.layout.lastInst b = some i ∧ (f.instData i).opcode.isTerminator = true := by
  obtain ⟨i, hmem, hi, hop⟩ := h.lastInst_of_ne hb hne
  exact ⟨i, hi, hop ▸ S.skeleton.isTerminator hmem⟩

/-- There is no terminator in the exit block before the return. -/
theorem Ready.exit_open (h : Ready S f L) :
    ∀ i ∈ f.layout.insts S.exit, (f.instData i).opcode.isTerminator = false := by
  intro i hi
  by_contra ht
  have hmem := h.ended S.exit i hi (Bool.eq_true_of_not_eq_false ht)
  rw [S.skeleton.exit_empty] at hmem
  exact absurd hmem List.not_mem_nil

end Edits

/-! ## The return -/

/-- What is known at the end, whether or not the return is there. -/
structure Outcome (S : Setting) (isRootFunc : Bool) (s : State Locals) : Prop where
  complete : Complete S s.func s.locals.blockDefValues
  noCalls : ∀ c, ∀ i ∈ s.func.layout.insts c, (s.func.instData i).opcode.isCall = false
  extFuncs : s.func.extFuncs = S.start.extFuncs
  signature : isRootFunc = false → s.func.signature = S.start.signature

/-- The return by the signature `sig` is still to come. -/
structure Unreturned (S : Setting) (isRootFunc : Bool) (sig : Signature) (s : State Locals) :
    Prop extends Outcome S isRootFunc s where
  unended : ∀ i ∈ s.func.layout.insts S.exit, (s.func.instData i).opcode.isTerminator = false
  stock : S.Plentiful → ∀ t ∈ sig.returns, t ∈ S.stock
  returns : isRootFunc = true ∨ S.start.signature.returns ≠ [] → sig.returns ≠ []
  signature_eq : s.func.signature = sig
  rootParams : isRootFunc = true → sig.params = []

/-- The exit block ends in a return of one recorded value for each type that the signature
returns. -/
def Setting.Returns (S : Setting) (f : Function) (pools : ValueMap) : Prop :=
  ∃ i vs, f.layout.lastInst S.exit = some i ∧ f.instData i = .multiAry .return_ vs ∧
    List.Forall₂ (fun t v => v ∈ S.pool pools S.exit t) f.signature.returns vs

/-- What the generator returns, and the state it leaves. -/
structure Generates (S : Setting) (isRootFunc : Bool) (r : BlockMap (List Block) × ValueMap)
    (s : State Locals) : Prop extends Outcome S isRootFunc s where
  dominators : r.1 = S.dominators
  pools : r.2 = s.locals.blockDefValues
  rootParams : isRootFunc = true → s.func.signature.params = []
  returned : isRootFunc = true ∨ S.start.signature.returns ≠ [] → S.Returns s.func r.2

/-- A function that returns has a terminator in every block. -/
theorem Generates.ended {S : Setting} {isRootFunc : Bool} {r : BlockMap (List Block) × ValueMap}
    {s : State Locals} (h : Generates S isRootFunc r s)
    (hreturns : isRootFunc = true ∨ S.start.signature.returns ≠ []) : S.Terminated s.func := by
  intro c hc
  by_cases hce : c = S.exit
  · obtain ⟨i, vs, hi, hdata, -⟩ := h.returned hreturns
    exact ⟨i, hce ▸ hi, by rw [hdata]; rfl⟩
  · exact h.complete.valid.terminated_of_ne hc hce

/-- The types of a drawn signature are candidates, and as many as were asked for if there are. The
root function has no parameters. -/
theorem ensures_generateRandomSignature {σ : Type} {I : Halt → σ → Prop} {s : σ}
    {n : ℕ} {isRootFunc : Bool} {types : List ClifType} (hI : I .starved s) :
    Ensures I (generateRandomSignature types n isRootFunc) s fun sig s' => s' = s ∧
      sig.params ⊆ types ∧ sig.returns ⊆ types ∧ sig.returns.length = min n types.length ∧
        (isRootFunc = true → sig.params = []) := by
  have hchoose : Ensures I (chooseMultiple n types) s fun r s' => s' = s ∧ r ⊆ types ∧
      r.length = min n types.length := by
    refine (ensures_chooseMultiple hI n types).mono ?_
    rintro r s' ⟨rfl, rest, hperm, hlen⟩
    exact ⟨rfl, fun t ht => hperm.subset (List.mem_append_left _ ht), hlen⟩
  unfold generateRandomSignature
  refine Ensures.ite (fun _ => ?_) fun hroot => ?_
  · refine Ensures.pick (P := fun params => params = []) (Ensures.pure ⟨rfl, rfl⟩) ?_
    rintro _ rfl
    refine Ensures.pick hchoose fun returns ⟨hsub, hlen⟩ => ?_
    exact Ensures.pure ⟨rfl, List.nil_subset _, hsub, hlen, fun _ => rfl⟩
  · refine Ensures.pick hchoose fun params ⟨hparams, _⟩ => ?_
    refine Ensures.pick hchoose fun returns ⟨hsub, hlen⟩ => ?_
    exact Ensures.pure ⟨rfl, hparams, hsub, hlen, fun h => absurd h hroot⟩

section Return

variable {S : Setting} {isRootFunc : Bool} {joined : List Block} {s : State Locals}
  {sig : Signature}

theorem Joined.finalSignature_spec (h : Joined S joined (fun _ _ => False) s.func s.locals) :
    Ensures (Stop S) (finalSignature isRootFunc S.start.signature) s
      (Unreturned S isRootFunc) := by
  have hdecl := h.uncalled.declaration
  have hext : s.func.extFuncs = S.start.extFuncs := congrArg (fun x => x.2.2) hdecl
  unfold finalSignature
  refine Ensures.ite (fun hroot => ?_) fun hroot => ?_
  · refine Ensures.pick (P := fun n => 8 ≤ n) (Ensures.genRange h.starved.stop
      (fun hle => by omega) fun n hn _ => ⟨rfl, hn⟩) fun n hn => ?_
    refine Ensures.pick (ensures_generateRandomSignature h.starved.stop) ?_
    rintro sig ⟨-, hreturns, hlen, hparams⟩
    refine ensures_bind_func ?_
    refine ensures_bind_setFunc ?_
    refine Ensures.pure ⟨⟨h.complete.withSignature sig, h.uncalled.noCalls, hext, ?_⟩, h.exit_open,
      fun hp t ht => hp.root t (hreturns ht), fun _ hnil => ?_, rfl, fun _ => hparams rfl⟩
    · intro hfalse
      rw [hroot] at hfalse
      cases hfalse
    · rw [hnil] at hlen
      have : rootTypes.length = 11 := rfl
      simp only [List.length_nil] at hlen
      omega
  · have hsig : s.func.signature = S.start.signature := congrArg (fun x => x.2.1) hdecl
    exact Ensures.pure ⟨⟨h.complete, h.uncalled.noCalls, hext, fun _ => hsig⟩, h.exit_open,
      fun hp => hp.returns, fun hor => hor.resolve_left hroot, hsig, fun h => absurd h hroot⟩

/-- A return at the end of the exit block. -/
theorem Unreturned.returned {s' : State Locals} {vs : List Value}
    (h : Unreturned S isRootFunc sig s) (hpools : s'.locals = s.locals)
    (he : Emitted s.func s'.func S.exit (s.func.layout.insts S.exit) [] (.multiAry .return_ vs) [])
    (hvs : List.Forall₂ (fun t v => v ∈ S.pool s.locals.blockDefValues S.exit t) sig.returns vs) :
    Outcome S isRootFunc s' ∧ s'.func.signature = sig ∧
      S.Returns s'.func s'.locals.blockDefValues := by
  have hvalid := h.complete.valid
  have hend : ([] : List Inst) = [] → s.func.branch S.exit = none := fun _ =>
    hvalid.branch_eq_none S.skeleton.exit_empty
  have hvalid' : Valid S (fun _ => True) s'.func s.locals.blockDefValues := by
    refine hvalid.emitted he (he.keeps S.base rfl hend) rfl h.unended (fun _ => ⟨rfl, rfl⟩)
      (fun v hv => ?_) fun hacc => by cases hacc
    obtain ⟨t, -, hmem⟩ := ListEdit.exists_of_mem_right hvs hv
    have huse := hvalid.mayUse hmem
    exact ⟨huse.new, huse.usable.available fun i hi _ => hi⟩
  have hsig := he.signature
  refine ⟨⟨?_, fun c i hi => ?_, ?_, fun hroot => hsig.trans (h.signature hroot)⟩,
    hsig.trans h.signature_eq, s.func.dfg.insts.len, vs, ?_, he.instData_new, ?_⟩
  · rw [hpools]
    exact h.complete.emitted he rfl hend hvalid'
  · obtain ⟨p, q, hsplit⟩ := List.append_of_mem hi
    rcases he.split_cases hsplit with ⟨-, rfl, -⟩ | ⟨hlt, p', q', hold, -⟩
    · rw [he.instData_new]
      rfl
    · rw [he.instData_old hlt, h.noCalls c i (by rw [hold]; simp)]
  · exact he.extFuncs.trans h.extFuncs
  · rw [Layout.lastInst, he.insts_self, List.getLast?_concat]
  · rwa [hsig, h.signature_eq, hpools]

/-- The values to return. With plentiful types there is one of each. -/
theorem Unreturned.selectArgs_spec (h : Unreturned S isRootFunc sig s) :
    Ensures (Stop S) (selectArgs S.dominators S.exit sig.returns) s fun vs s' => s' = s ∧
      List.Forall₂ (fun t v => v ∈ S.pool s.locals.blockDefValues S.exit t) sig.returns vs := by
  have hentry := h.complete.defs S.entry Setting.entry_mem
  have hrecorded : S.Published s := ⟨⟨_, h.complete.valid⟩, hentry⟩
  refine ensures_selectArgs (hrecorded.stop fun _ => rfl) fun t ht hnil m =>
    hrecorded.stop fun hp => ?_
  exact absurd hnil (h.complete.valid.pool_ne_nil hentry Setting.exit_mem (h.stock hp t ht))

theorem Unreturned.ins_spec {vs : List Value} (h : Unreturned S isRootFunc sig s)
    (hvs : List.Forall₂ (fun t v => v ∈ S.pool s.locals.blockDefValues S.exit t) sig.returns vs) :
    Ensures (Stop S) (ins (.multiAry .return_ vs)) { s with pos := .after S.exit } fun _ s' =>
      Outcome S isRootFunc s' ∧ s'.func.signature = sig ∧
        S.Returns s'.func s'.locals.blockDefValues := by
  have hpoints : Points { s with pos := .after S.exit } S.exit (s.func.layout.insts S.exit) [] :=
    ⟨h.complete.valid.frame.blocks ▸ Setting.exit_mem, (List.append_nil _).symm, rfl⟩
  unfold Cursor.ins
  refine ensures_bind_func ?_
  refine (hpoints.build (.multiAry .return_ vs) []).mono ?_
  rintro i s' ⟨-, he, -, hlocals⟩
  exact h.returned hlocals he hvs

end Return

/-! ## The generator -/

/-- The generator up to the visits of the first `n` blocks in the second pass. -/
def passesUpTo (config : ArchConfig) (n : ℕ) : M Locals (Function × Block) := do
  let start ← func
  Cursor.new
  let entryBlock ← unwrap start.layout.blocks.head?
  (start.dfsOrder entryBlock).zipIdx.forM fun (node, i) =>
    fillBlock config start.signature.params (computeDominators start entryBlock) (i = 0) node
  ((start.dfsOrder entryBlock).take n).forM (joinBlock (computeDominators start entryBlock))
  return (start, entryBlock)

/-- The rest of the generator. -/
def finishFrom (isRootFunc : Bool) (n : ℕ) (start : Function) (entryBlock : Block) :
    M Locals (BlockMap (List Block) × ValueMap) := do
  let dominators := computeDominators start entryBlock
  ((start.dfsOrder entryBlock).drop n).forM (joinBlock dominators)
  let sig ← finalSignature isRootFunc start.signature
  let lastBlock ← unwrap (getLastBlock (← func) (start.dfsOrder entryBlock))
  if !sig.returns.isEmpty then
    let returnValues ← selectArgs dominators lastBlock sig.returns
    gotoBottom lastBlock
    let _ ← ins (.multiAry .return_ returnValues)
  return (dominators, (← locals).blockDefValues)

/-- The second pass may be cut anywhere. -/
theorem functionGenerator_eq (isRootFunc : Bool) (config : ArchConfig) (n : ℕ) :
    functionGenerator isRootFunc config =
      passesUpTo config n >>= fun r => finishFrom isRootFunc n r.1 r.2 := by
  have hcut : ∀ (l : List Block) (g : Block → M Locals PUnit),
      l.forM g = (l.take n).forM g >>= fun _ => (l.drop n).forM g := by
    intro l g
    conv_lhs => rw [← List.take_append_drop n l]
    exact List.forM_append
  unfold functionGenerator passesUpTo finishFrom
  simp only [bind_assoc, pure_bind]
  refine bind_congr fun start => bind_congr fun _ => bind_congr fun b => ?_
  rw [hcut (start.dfsOrder b), bind_assoc]

section Generator

variable {S : Setting} {isRootFunc : Bool} {s : State Locals} {n : ℕ}

/-- The skeleton before anything is recorded. -/
theorem Filled.start (hfunc : s.func = S.start) (hlocals : s.locals = {}) : Filled S [] s where
  valid := by
    have hnone : (fun b : Block => b ∈ ([] : List Block)) = fun _ => False := by simp
    rw [hfunc, hlocals, hnone]
    exact S.valid_start
  filling b := by
    rw [hfunc]
    refine ⟨fun _ _ _ _ => rfl, fun _ _ _ => rfl, fun _ _ _ => rfl, fun _ hc => (nomatch hc),
      fun c t ht => ?_, fun _ _ hi _ => hi, fun _ hc => (nomatch hc), rfl, fun c i hi => ?_⟩
    · obtain ⟨i, hi, -⟩ := Option.bind_eq_some_iff.mp ht
      exact S.skeleton.noArgs c (Layout.mem_blocks_of_mem_insts (List.mem_of_mem_getLast? hi)) t ht
    · have hbr := S.skeleton.isBranch hi
      cases hd : S.start.instData i with
      | jump | brif | branchTable => rfl
      | _ =>
          rw [hd] at hbr
          cases hbr
  seeded h := absurd rfl h
  slots _ := by rw [hfunc, S.no_slots]
  defs b := by
    rw [hlocals]
    exact ⟨fun h => (nomatch h), fun h => (nomatch h)⟩
  refs _ h := nomatch h

/-- The two passes, as far as they are run, with what they keep. -/
theorem Setting.passesUpTo_rule {R : State Locals → Prop} (hfunc : s.func = S.start)
    (hfill : Ensures (Stop S) (S.order.zipIdx.forM fun (node, i) =>
      fillBlock S.config S.start.signature.params S.dominators (i = 0) node)
      { s with pos := .nowhere } fun _ s' =>
        (∃ done, Filled S done s' ∧ ∀ b ∈ S.start.layout.blocks, b ∈ done) ∧ R s')
    (hjoin : ∀ {joined : List Block} {v : Block} {s : State Locals},
      Joined S joined (fun _ _ => False) s.func s.locals → R s → v ∈ S.start.layout.blocks →
        v ∉ joined → Ensures (Starved S) (joinBlock S.dominators v) s fun _ s' =>
          Joined S (v :: joined) (fun _ _ => False) s'.func s'.locals ∧ R s') (n : ℕ) :
    Ensures (Stop S) (passesUpTo S.config n) s fun r s' => r = (S.start, S.entry) ∧
      Joined S (S.order.take n).reverse (fun _ _ => False) s'.func s'.locals ∧ R s' := by
  unfold passesUpTo
  refine Ensures.pick (P := fun f => f = S.start) (ensures_func ⟨rfl, hfunc⟩) ?_
  rintro _ rfl
  refine Ensures.bind (ensures_setPosition
    (Q := fun _ s' => s' = { s with pos := .nowhere }) rfl) ?_
  rintro - _ rfl
  refine Ensures.pick (P := fun b => b = S.entry) (Ensures.unwrap ?_ fun b hb => ⟨rfl, ?_⟩) ?_
  · intro hnone
    rw [S.skeleton.head] at hnone
    cases hnone
  · exact Option.some.inj (hb.symm.trans S.skeleton.head)
  rintro _ rfl
  -- the first pass, over all blocks
  refine Ensures.bind hfill ?_
  rintro - s₁ ⟨⟨done, h₁, hall⟩, hR⟩
  -- the second pass, over the first `n` blocks of the order
  have hnodup : (S.order.take n).Nodup :=
    (S.start.dfsOrder_nodup S.entry).sublist (List.take_sublist _ _)
  refine Ensures.bind ((Joined.joinPass_rule hjoin (h₁.unjoined hall) hR
    (fun b hb => ⟨?_, List.not_mem_nil⟩) hnodup).weaken fun e s' => Starved.stop) fun _ s₂ h₂ => ?_
  · exact Setting.mem_order.mp (List.mem_of_mem_take hb)
  · rw [List.append_nil] at h₂
    exact Ensures.pure ⟨rfl, h₂⟩

/-- The cursor is somewhere. -/
theorem Filled.withPos (h : Filled S [] s) (p : CursorPosition) :
    Filled S [] { s with pos := p } := ⟨h.valid, h.filling, h.seeded, h.slots, h.defs, h.refs⟩

theorem Filled.passesUpTo_spec (h : Filled S [] s) (hfunc : s.func = S.start) (n : ℕ) :
    Ensures (Stop S) (passesUpTo S.config n) s fun r s' => r = (S.start, S.entry) ∧
      Joined S (S.order.take n).reverse (fun _ _ => False) s'.func s'.locals :=
  (S.passesUpTo_rule (R := fun _ => True) hfunc
    ((h.withPos _).fillPass_spec.mono fun _ _ h' => ⟨h', trivial⟩)
    (fun h' _ hv hnew => (h'.joinBlock_spec hv hnew).mono fun _ _ h'' => ⟨h''.1, trivial⟩) n).mono
    fun _ _ h' => ⟨h'.1, h'.2.1⟩

/-- The rest of the second pass, and the return. -/
theorem Joined.finishFrom_spec
    (h : Joined S (S.order.take n).reverse (fun _ _ => False) s.func s.locals) :
    Ensures (Stop S) (finishFrom isRootFunc n S.start S.entry) s (Generates S isRootFunc) := by
  have hnodup : S.order.Nodup := S.start.dfsOrder_nodup S.entry
  rw [← List.take_append_drop n S.order] at hnodup
  -- the blocks that are left are not among those that are joined
  obtain ⟨-, hdrop, hdisjoint⟩ := List.nodup_append.mp hnodup
  unfold finishFrom
  refine Ensures.bind ((h.joinPass_spec (fun b hb => ⟨?_, fun hmem => ?_⟩) hdrop).weaken
    fun e s' => Starved.stop) fun _ s₁ h₁ => ?_
  · exact Setting.mem_order.mp (List.mem_of_mem_drop hb)
  · exact hdisjoint b (List.mem_reverse.mp hmem) b hb rfl
  refine Ensures.bind h₁.finalSignature_spec fun sig s₂ h₂ => ?_
  refine ensures_bind_func ?_
  rw [show getLastBlock s₂.func (S.start.dfsOrder S.entry) = some S.exit from
    h₂.complete.valid.getLastBlock_eq]
  refine Ensures.pick (P := fun b => b = S.exit) (Ensures.pure ⟨rfl, rfl⟩) ?_
  rintro _ rfl
  -- the return is skipped if the final signature has no return type
  refine Ensures.ite (fun hreturns => ?_) fun hreturns => ?_
  · refine Ensures.pick h₂.selectArgs_spec fun vs hvs => ?_
    refine Ensures.bind (ensures_gotoBottom (h₂.complete.valid.frame.blocks ▸ Setting.exit_mem)
      (Q := fun _ s' => s' = { s₂ with pos := .after S.exit }) rfl) ?_
    rintro - _ rfl
    refine Ensures.bind (h₂.ins_spec hvs) ?_
    rintro - s₃ ⟨hout, hsig, hret⟩
    refine ensures_bind_locals ?_
    exact Ensures.pure ⟨hout, rfl, rfl, fun hroot => hsig ▸ h₂.rootParams hroot, fun _ => hret⟩
  · refine ensures_bind_locals ?_
    refine Ensures.pure ⟨h₂.toOutcome, rfl, rfl,
      fun hroot => h₂.signature_eq ▸ h₂.rootParams hroot, fun hor => absurd (h₂.returns hor) ?_⟩
    simpa using hreturns

/-- **The generator**, from a skeleton with nothing recorded. -/
theorem Filled.functionGenerator_spec (h : Filled S [] s) (hfunc : s.func = S.start) :
    Ensures (Stop S) (functionGenerator isRootFunc S.config) s (Generates S isRootFunc) := by
  rw [functionGenerator_eq isRootFunc S.config 0]
  refine Ensures.bind (h.passesUpTo_spec hfunc 0) ?_
  rintro _ s₁ ⟨rfl, h₁⟩
  exact h₁.finishFrom_spec

end Generator

end Clir
