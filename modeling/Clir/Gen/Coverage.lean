import Clir.Gen.JoinTypes
import Clir.Lib.Streams

set_option autoImplicit false

/-! # Which instructions the rewriting loops reach

Two loops exchange operands: those of a join block for its new parameters, and those of a block that
a call dominates for the results of the call. Both start at the first instruction and ask the cursor
for the next one, so that neither reaches the first. The first loop rewrites operands that live in
the value list pool in a copy that it drops. The second one is over an `Option` and ends after one
instruction.

What they would do to all instructions is seen in the runs in which every draw accepts: an operand
then becomes what `accepted` says.
-/

namespace Clir

open Cmd Cursor

/-! ## Operands when every draw accepts -/

/-- What an operand becomes when every draw accepts the candidate it is made for. -/
def accepted (typeOf : Value → ClifType) (candidates : List (ClifType × Value)) (arg : Value) :
    Value :=
  candidates.foldl (fun a p => if p.1 = typeOf a then p.2 else a) arg

section Accepted

variable {typeOf : Value → ClifType} {cands : List (ClifType × Value)} {t : ClifType} {arg : Value}

theorem accepted_cons (p : ClifType × Value) : accepted typeOf (p :: cands) arg =
    accepted typeOf cands (if p.1 = typeOf arg then p.2 else arg) := rfl

/-- The operand becomes a candidate of its type, if there is one, and stays otherwise. -/
theorem accepted_spec (typeOf : Value → ClifType) (arg : Value)
    (htype : ∀ p ∈ cands, p.1 = t → typeOf p.2 = t) (harg : typeOf arg = t) :
    (∃ p ∈ cands, p.1 = t ∧ accepted typeOf cands arg = p.2) ∨
      (∀ p ∈ cands, p.1 ≠ t) ∧ accepted typeOf cands arg = arg := by
  induction cands generalizing arg with
  | nil => exact .inr ⟨by simp, rfl⟩
  | cons p cands ih =>
      have hrest : ∀ q ∈ cands, q.1 = t → typeOf q.2 = t :=
        fun q hq => htype q (List.mem_cons_of_mem _ hq)
      rw [accepted_cons, harg]
      split_ifs with hp
      · -- the candidate is taken, and a later one may take its place
        rcases ih p.2 hrest (htype p List.mem_cons_self hp) with ⟨q, hq, hqt, heq⟩ | ⟨-, heq⟩
        · exact .inl ⟨q, List.mem_cons_of_mem _ hq, hqt, heq⟩
        · exact .inl ⟨p, List.mem_cons_self, hp, heq⟩
      · rcases ih arg hrest harg with ⟨q, hq, hqt, heq⟩ | ⟨hne, heq⟩
        · exact .inl ⟨q, List.mem_cons_of_mem _ hq, hqt, heq⟩
        · exact .inr ⟨List.forall_mem_cons.mpr ⟨hp, hne⟩, heq⟩

end Accepted

section Draws

variable {δ : Type} {s : State δ} {limit : ℕ} {typeOf : Value → ClifType}
  {cands : List (ClifType × Value)}

theorem takes_func : Takes (func : M δ Function) := Takes.mem.bind fun _ => .pure _

theorem takes_gotoFirstInst (b : Block) : Takes (gotoFirstInst b : M δ Unit) := by
  refine takes_func.bind fun f => ?_
  cases f.layout.firstInst b with
  | none => exact .panicWith _
  | some i => exact takes_func.bind fun _ => Takes.ite (.update _) (.panicWith _)

theorem takes_nextInst : Takes (nextInst : M δ (Option Inst)) := by
  refine takes_func.bind fun f => Takes.bind (Takes.mem.bind fun _ => .pure _) fun p => ?_
  have hmove : ∀ (q : CursorPosition) (o : Option Inst),
      Takes (do setPosition q; return o : M δ (Option Inst)) :=
    fun q o => (Takes.update _).bind fun _ => .pure o
  cases p with
  | nowhere | after => exact .pure none
  | at_ i =>
      dsimp only
      cases f.layout.instBlock i with
      | none => exact .panicWith _
      | some b =>
          dsimp only
          cases ListEdit.next i (f.layout.insts b) <;> exact hmove _ _
  | before b =>
      dsimp only
      cases f.layout.firstInst b <;> exact hmove _ _

theorem takes_rewriteArg (cands : List (ClifType × Value)) (arg : Value) :
    Takes (rewriteArg limit typeOf cands arg : M δ Value) := by
  induction cands generalizing arg with
  | nil => exact .pure arg
  | cons p cands ih =>
      unfold rewriteArg
      exact Takes.ite ((Takes.genRange 0 10).bind fun n => .ite (ih _) (ih _)) (ih _)

theorem takes_rewriteInst (i : Inst) : Takes (rewriteInst cands i : M δ Unit) := by
  refine takes_func.bind fun f => Takes.ite (.pure ()) ?_
  exact (Takes.mapM (fun a => takes_rewriteArg cands a) _).bind fun _ =>
    Takes.ite (.pure ()) (.update _)

theorem takes_rewriteInsts (fuel : ℕ) : Takes (rewriteInsts cands fuel : M δ Unit) := by
  induction fuel with
  | zero => exact .pure ()
  | succ fuel ih =>
      refine takes_nextInst.bind fun o => ?_
      cases o with
      | none => exact .pure ()
      | some i => exact (takes_rewriteInst i).bind fun _ => ih

/-- The operand when every draw out of ten is below the limit. -/
theorem under_rewriteArg (cands : List (ClifType × Value)) (arg : Value) :
    Under (fun d => d % 10 < limit) (rewriteArg limit typeOf cands arg) s fun a s' =>
      s' = s ∧ a = accepted typeOf cands arg := by
  induction cands generalizing arg with
  | nil => exact .pure ⟨rfl, rfl⟩
  | cons p cands ih =>
      unfold rewriteArg
      rw [accepted_cons]
      refine Under.ite (fun hp => ?_) fun hp => ?_
      · rw [if_pos hp]
        refine Under.bind (P := fun n s' => s' = s ∧ n < limit)
          (.genRange fun d hd => ⟨rfl, by simpa using hd⟩) (.genRange 0 10)
          (fun n => .ite (takes_rewriteArg _ _) (takes_rewriteArg _ _)) ?_
        rintro n _ ⟨rfl, hn⟩
        rw [if_pos hn]
        exact ih p.2
      · rw [if_neg hp]
        exact ih arg

end Draws

/-! ## The loop over a join block -/

namespace Function

variable (f : Function) (cands : List (ClifType × Value))

/-- The operands of an instruction after the loop, if it reaches them and every draw accepts. -/
def joinOperands (i : Inst) : List Value :=
  (f.instData i).arguments.map fun a => accepted (fun _ => f.valueType a) cands a

/-- The instructions whose operands the loop changes where it reaches them. -/
def rewritable (i : Inst) : Bool :=
  !keepsOperands (f.instData i).opcode && !(f.instData i).argumentsInPool

/-- One instruction rewritten, with every draw accepting. -/
def rewritten (i : Inst) : Function :=
  if f.rewritable i then f.withOperands i (f.joinOperands cands i) else f

variable {f cands} {i j : Inst}

theorem rewritten_layout : (f.rewritten cands i).layout = f.layout := by
  unfold rewritten
  split_ifs <;> rfl

theorem rewritten_valueType : (f.rewritten cands i).valueType = f.valueType := by
  unfold rewritten
  split_ifs <;> rfl

theorem rewritten_instData_of_ne (h : j ≠ i) : (f.rewritten cands i).instData j = f.instData j := by
  unfold rewritten
  split_ifs
  · exact withOperands_instData_of_ne h
  · rfl

theorem rewritten_arguments_self : ((f.rewritten cands i).instData i).arguments =
    if f.rewritable i then f.joinOperands cands i else (f.instData i).arguments := by
  unfold rewritten
  split_ifs
  · rw [withOperands_instData_self]
    exact InstructionData.arguments_withArguments (List.length_map _)
  · rfl

/-- The operands after a loop over a list of instructions. -/
theorem foldl_rewritten_arguments {l : List Inst} (hnodup : l.Nodup) :
    ((l.foldl (fun g k => g.rewritten cands k) f).instData j).arguments =
      if j ∈ l ∧ f.rewritable j then f.joinOperands cands j else (f.instData j).arguments := by
  induction l generalizing f with
  | nil => simp
  | cons k l ih =>
      obtain ⟨hk, hnodup⟩ := List.nodup_cons.mp hnodup
      rw [List.foldl_cons, ih hnodup]
      by_cases hj : j = k
      · subst hj
        rw [if_neg fun h => hk h.1, rewritten_arguments_self]
        simp
      · -- the step at `k` is not seen at `j`
        have hsame : (f.rewritten cands k).instData j = f.instData j :=
          rewritten_instData_of_ne hj
        simp only [rewritable, joinOperands, hsame, rewritten_valueType, List.mem_cons, hj,
          false_or]

end Function

/-- Where the cursor stands at the first instruction of a block, there is one. -/
theorem ensures_gotoFirstInst_eq {δ : Type} {s : State δ} (b : Block) :
    Ensures (fun _ _ => True) (gotoFirstInst b) s fun _ s' =>
      ∃ i, s.func.layout.firstInst b = some i ∧ s' = { s with pos := .at_ i } := by
  cases hi : s.func.layout.firstInst b with
  | some i => exact ensures_gotoFirstInst hi ⟨i, rfl, rfl⟩
  | none =>
      unfold gotoFirstInst
      refine ensures_bind_func ?_
      rw [hi]
      exact Ensures.panicWith trivial

section Loop

variable {δ : Type} {s : State δ} {cands : List (ClifType × Value)} {b : Block} {i : Inst}

theorem under_rewriteInst (i : Inst) :
    Under (fun d => d % 10 < 3) (rewriteInst cands i) s fun _ s' =>
      s' = { s with func := s.func.rewritten cands i } := by
  unfold rewriteInst
  refine Under.bind (P := fun f s' => s' = s ∧ f = s.func)
    (.of_ensures (I := fun _ _ => True) (ensures_func ⟨rfl, rfl⟩)) takes_func (fun f => ?_) ?_
  · exact Takes.ite (.pure ()) ((Takes.mapM (fun a => takes_rewriteArg cands a) _).bind fun _ =>
      Takes.ite (.pure ()) (.update _))
  rintro _ _ ⟨rfl, rfl⟩
  refine Under.ite (fun hkeep => .pure ?_) fun hkeep => ?_
  · rw [Function.rewritten, Function.rewritable, hkeep]
    rfl
  refine (Under.mapM_eq (fun a => takes_rewriteArg cands a) _
    fun a _ => under_rewriteArg cands a).bind (.mapM (fun a => takes_rewriteArg cands a) _)
    (fun _ => Takes.ite (.pure ()) (.update _)) ?_
  rintro _ _ ⟨rfl, rfl⟩
  refine Under.ite (fun hpool => .pure ?_) fun hpool => ?_
  · rw [Function.rewritten, Function.rewritable, hpool, Bool.not_true, Bool.and_false]
    rfl
  · refine .of_ensures (I := fun _ _ => True) (ensures_setFunc ?_)
    rw [Function.rewritten, Function.rewritable, Bool.eq_false_iff.mpr hkeep,
      Bool.eq_false_iff.mpr hpool]
    rfl

/-- The loop rewrites the instructions behind the cursor, and all of them. -/
theorem under_rewriteInsts {before after : List Inst} (hpos : s.pos = .at_ i)
    (hsplit : s.func.layout.insts b = before ++ i :: after) {fuel : ℕ}
    (hfuel : after.length ≤ fuel) :
    Under (fun d => d % 10 < 3) (rewriteInsts cands fuel) s fun _ s' =>
      s'.func = after.foldl (fun g k => g.rewritten cands k) s.func := by
  -- on the fuel; the instructions behind the cursor get fewer with each step
  induction fuel generalizing s i before after with
  | zero =>
      obtain rfl : after = [] := List.eq_nil_of_length_eq_zero (Nat.le_zero.mp hfuel)
      exact .pure rfl
  | succ fuel ih =>
      have hi : i ∉ before := fun hmem => by
        have hnodup := s.func.layout.insts_nodup b
        rw [hsplit] at hnodup
        exact (List.nodup_append.mp hnodup).2.2 i hmem i List.mem_cons_self rfl
      have hmem : i ∈ s.func.layout.insts b := by simp [hsplit]
      unfold rewriteInsts
      refine Under.bind (.of_ensures (I := fun _ _ => True) (ensures_nextInst hpos hmem))
        takes_nextInst (fun o => ?_) ?_
      · cases o with
        | none => exact .pure ()
        | some j => exact (takes_rewriteInst j).bind fun _ => takes_rewriteInsts fuel
      rintro o s₁ ⟨hfunc, -, hnext, hpos₁⟩
      rw [hsplit, ListEdit.next_eq hi] at hnext
      cases after with
      | nil =>
          obtain rfl : o = none := hnext
          exact .pure hfunc
      | cons j after =>
          obtain rfl : o = some j := hnext
          refine (under_rewriteInst j).bind (takes_rewriteInst j) (fun _ => takes_rewriteInsts fuel)
            ?_
          rintro - _ rfl
          have hsplit₁ : (s₁.func.rewritten cands j).layout.insts b =
              (before ++ [i]) ++ j :: after := by
            rw [Function.rewritten_layout, hfunc, hsplit, List.append_assoc, List.singleton_append]
          refine (ih (s := { s₁ with func := s₁.func.rewritten cands j }) (hpos₁ j rfl).2 hsplit₁
            (Nat.le_of_succ_le_succ hfuel)).mono fun _ s' hs' => ?_
          rw [hs', hfunc, List.foldl_cons]

end Loop

section Substitute

variable {s : State Locals} {cands : List (ClifType × Value)} {v : Block}

/-- **The loop starts behind the first instruction.** -/
theorem under_substitute :
    Under (fun d => d % 10 < 3) (substitute cands v) s fun _ s' =>
      s'.func = (s.func.layout.insts v).tail.foldl (fun g k => g.rewritten cands k) s.func := by
  unfold substitute
  refine Under.bind (.of_ensures (ensures_gotoFirstInst_eq v)) (takes_gotoFirstInst v)
    (fun _ => takes_func.bind fun _ => takes_rewriteInsts _) ?_
  rintro - _ ⟨i, hi, rfl⟩
  obtain ⟨after, hinsts⟩ : ∃ after, s.func.layout.insts v = [] ++ i :: after :=
    List.head?_eq_some_iff.mp hi
  refine Under.bind (P := fun f s' => s' = { s with pos := .at_ i } ∧ f = s.func)
    (.of_ensures (I := fun _ _ => True) (ensures_func ⟨rfl, rfl⟩)) takes_func
    (fun _ => takes_rewriteInsts _) ?_
  rintro _ _ ⟨rfl, rfl⟩
  refine (under_rewriteInsts (s := { s with pos := .at_ i }) rfl hinsts ?_).mono fun _ s' hs' => ?_
  · rw [hinsts]
    exact Nat.le_succ _
  · rw [hs', hinsts]
    rfl

end Substitute

/-! ### What is substituted -/

/-- What the substitution is for: operand `a` becomes the parameter of block `v` that has its type,
and stays if there is none. -/
def Function.Substitutes (f : Function) (v : Block) (a b : Value) : Prop :=
  (∀ p ∈ f.blockParams v, f.valueType p = f.valueType a → b = p) ∧
    ((∀ p ∈ f.blockParams v, f.valueType p ≠ f.valueType a) → b = a)

/-- It is done in every instruction of the block that does not access memory, and the operands of
the others stay. -/
def SubstitutesAll (v : Block) (f g : Function) : Prop :=
  ∀ i ∈ f.layout.insts v, List.Forall₂
    (fun a b => if keepsOperands (f.instData i).opcode then b = a else f.Substitutes v a b)
    (f.instData i).arguments (g.instData i).arguments

namespace Function

variable {f : Function} {v : Block} {a : Value}

theorem substitutes_self_iff :
    f.Substitutes v a a ↔ ∀ p ∈ f.blockParams v, f.valueType p = f.valueType a → a = p :=
  ⟨And.left, fun h => ⟨h, fun _ => rfl⟩⟩

/-- The parameters of a block as candidates. -/
def joinCandidates (f : Function) (v : Block) : List (ClifType × Value) :=
  (f.blockParams v).map fun p => (f.valueType p, p)

theorem substitutes_accepted (hnodup : ((f.blockParams v).map f.valueType).Nodup) (a : Value) :
    f.Substitutes v a (accepted (fun _ => f.valueType a) (f.joinCandidates v) a) := by
  have htype : ∀ p ∈ f.joinCandidates v, p.1 = f.valueType a → f.valueType a = f.valueType a :=
    fun _ _ _ => rfl
  rcases accepted_spec (fun _ => f.valueType a) a htype rfl with
    ⟨q, hq, hty, heq⟩ | ⟨hne, heq⟩
  · obtain ⟨p, hp, rfl⟩ := List.mem_map.mp hq
    refine ⟨fun p' hp' hty' => ?_, fun hall => absurd hty (hall p hp)⟩
    rw [heq]
    exact List.inj_on_of_nodup_map hnodup hp hp' (hty.trans hty'.symm)
  · refine ⟨fun p hp hty => absurd hty ?_, fun _ => heq⟩
    exact hne (f.valueType p, p) (List.mem_map_of_mem hp)

/-- The instructions that the loop does not reach, or whose new operands it drops. -/
def Missed (f : Function) (v : Block) (i : Inst) : Prop :=
  f.layout.firstInst v = some i ∨ (f.instData i).argumentsInPool = true

theorem not_missed {i : Inst} (hi : i ∈ (f.layout.insts v).tail) (hr : f.rewritable i) :
    ¬ f.Missed v i := by
  rintro (hfirst | hpool)
  · obtain ⟨after, hinsts⟩ := List.head?_eq_some_iff.mp hfirst
    have hnodup := f.layout.insts_nodup v
    rw [hinsts] at hi hnodup
    exact (List.nodup_cons.mp hnodup).1 hi
  · rw [rewritable, hpool, Bool.not_true, Bool.and_false] at hr
    cases hr

theorem missed_of_not {i : Inst} (hi : i ∈ f.layout.insts v)
    (hkeep : keepsOperands (f.instData i).opcode = false)
    (h : ¬ (i ∈ (f.layout.insts v).tail ∧ f.rewritable i)) : f.Missed v i := by
  cases hinsts : f.layout.insts v with
  | nil =>
      rw [hinsts] at hi
      cases hi
  | cons j after =>
      rw [hinsts] at hi h
      rcases List.mem_cons.mp hi with rfl | hi
      · exact .inl (by rw [Layout.firstInst, hinsts, List.head?_cons])
      · refine .inr ?_
        have hr : ¬ f.rewritable i := fun hr => h ⟨hi, hr⟩
        rw [rewritable, hkeep, Bool.not_false, Bool.true_and, Bool.not_eq_true'] at hr
        exact Bool.not_eq_false _ ▸ hr

end Function

/-- The substitution is complete just when there is nothing to do where the loop does nothing. -/
theorem substitutesAll_foldl_iff {f : Function} {v : Block}
    (hnodup : ((f.blockParams v).map f.valueType).Nodup) :
    SubstitutesAll v f ((f.layout.insts v).tail.foldl
        (fun g k => g.rewritten (f.joinCandidates v) k) f) ↔
      ∀ i ∈ f.layout.insts v, f.Missed v i → keepsOperands (f.instData i).opcode = false →
        ∀ a ∈ (f.instData i).arguments, ∀ p ∈ f.blockParams v,
          f.valueType p = f.valueType a → a = p := by
  unfold SubstitutesAll
  refine forall₂_congr fun i hi => ?_
  rw [Function.foldl_rewritten_arguments (f.layout.insts_nodup v).tail]
  cases hkeep : keepsOperands (f.instData i).opcode with
  | true =>
      have hr : f.rewritable i = false := by rw [Function.rewritable, hkeep, Bool.not_true,
        Bool.false_and]
      simp [hr, List.forall₂_same]
  | false =>
      simp only [Bool.false_eq_true, if_false, forall_const]
      split_ifs with hreached
      · refine iff_of_true ?_ fun hmiss => absurd hmiss (f.not_missed hreached.1 hreached.2)
        rw [Function.joinOperands, List.forall₂_map_right_iff, List.forall₂_same]
        exact fun a _ => Function.substitutes_accepted hnodup a
      · have hmiss := Function.missed_of_not hi hkeep hreached
        rw [List.forall₂_same]
        simp only [Function.substitutes_self_iff]
        exact ⟨fun h _ => h, fun h => h hmiss⟩

section Decidable

variable (f g : Function) (v : Block)

instance (a b : Value) : Decidable (f.Substitutes v a b) :=
  inferInstanceAs (Decidable (_ ∧ _))

instance : Decidable (SubstitutesAll v f g) :=
  inferInstanceAs (Decidable (∀ i ∈ f.layout.insts v, _))

instance (i : Inst) : Decidable (f.Missed v i) := inferInstanceAs (Decidable (_ ∨ _))

end Decidable

section Runs

variable {maxDepth : ℕ} {name : FuncName} {signature : Signature} {draws used : List ℕ}
  {config : ArchConfig} {cands : List (ClifType × Value)} {v : Block}
  {w₁ w₂ w₃ w₄ : World (State Locals)}

/-- **When the substitution covers a join block.** In a run in which every draw of the loop accepts,
every operand of the block becomes the parameter of its type, if there is one, exactly if there is
nothing to do in the first instruction and in those whose operands are in the value list pool. -/
theorem joinBlock_substitutes_iff
    (hcf : withLocals [] (cfConstruct maxDepth none 0) (buildStart name signature draws) =
      .ok () w₁)
    (hstart : VisitStarts config w₁ v w₂) (hpreds : 2 ≤ (predBlocks w₂.mem.func v).length)
    (happend : appendJoinParams (computeDominators w₁.mem.func 0) v (predBlocks w₂.mem.func v) w₂ =
      .ok cands w₃)
    (hloop : substitute cands v w₃ = .ok () w₄) (hused : w₃.draws = used ++ w₄.draws)
    (haccept : ∀ d ∈ used, d % 10 < 3) :
    SubstitutesAll v w₃.mem.func w₄.mem.func ↔
      ∀ i ∈ w₃.mem.func.layout.insts v, w₃.mem.func.Missed v i →
        keepsOperands (w₃.mem.func.instData i).opcode = false →
          ∀ a ∈ (w₃.mem.func.instData i).arguments, ∀ p ∈ w₃.mem.func.blockParams v,
            w₃.mem.func.valueType p = w₃.mem.func.valueType a → a = p := by
  have hc : Constructed maxDepth name signature w₁ := ⟨draws, hcf⟩
  rw [hstart.predBlocks_eq hc] at hpreds happend
  obtain ⟨hv, joined, hnew, hjoined⟩ := hstart.joined hc
  obtain ⟨hjoined₃, -, rfl, -⟩ := (hjoined.appendJoinParams_spec hv hnew hpreds).of_ok happend
  have hnodup := hjoined₃.nodup v hv ((hc.setting config).ne_entry_of_preds hpreds)
  rw [under_substitute.of_ok rfl hloop hused haccept]
  exact substitutesAll_foldl_iff hnodup

/-- The visit of the block where the two branches of an `if` meet, in its two halves. -/
def joinRun (config : ArchConfig) : M Locals
    (Function × World (State Locals) × List (ClifType × Value) × World (State Locals)) := do
  withLocals [] (cfConstruct 0 none 0)
  let start ← func
  let _ ← passesUpTo config 3
  let w₂ ← get
  let cands ← appendJoinParams (computeDominators start 0) 5 (predBlocks w₂.mem.func 5)
  let w₃ ← get
  substitute cands 5
  return (start, w₂, cands, w₃)

/-- What a check of such a run shows. -/
theorem exists_joinRun (config : ArchConfig) (draws used : List ℕ) {P : Function → Function → Prop}
    [∀ f g, Decidable (P f g)]
    (h : returnsWith (joinRun config) (buildStart (.user 1 0) ⟨[], [.i32]⟩ draws) (fun r w₄ =>
      decide ((r.1.dfsOrder 0)[3]? = some 5 ∧ 2 ≤ (predBlocks r.2.1.mem.func 5).length ∧
        r.2.2.2.draws = used ++ w₄.draws ∧ P r.2.2.2.mem.func w₄.mem.func)) = true) :
    ∃ w₁ w₂ cands w₃ w₄,
      withLocals [] (cfConstruct 0 none 0) (buildStart (.user 1 0) ⟨[], [.i32]⟩ draws) =
        .ok () w₁ ∧
      VisitStarts config w₁ 5 w₂ ∧ 2 ≤ (predBlocks w₂.mem.func 5).length ∧
      appendJoinParams (computeDominators w₁.mem.func 0) 5 (predBlocks w₂.mem.func 5) w₂ =
        .ok cands w₃ ∧
      substitute cands 5 w₃ = .ok () w₄ ∧ w₃.draws = used ++ w₄.draws ∧
      P w₃.mem.func w₄.mem.func := by
  obtain ⟨⟨start, w₂, cands, w₃⟩, w₄, hrun, hcheck⟩ := exists_of_returnsWith h
  -- the run is taken apart, step by step
  obtain ⟨⟨⟩, w₁, hcf, hrun⟩ := bind_eq_ok.mp hrun
  obtain ⟨start', w₁', hfunc, hrun⟩ := bind_eq_ok.mp hrun
  obtain ⟨rfl, rfl⟩ := EStateM.Result.ok.inj (show EStateM.Result.ok w₁.mem.func w₁ = _ from hfunc)
  obtain ⟨r, w₂', hpasses, hrun⟩ := bind_eq_ok.mp hrun
  obtain ⟨u₂, w₂'', hget, hrun⟩ := bind_eq_ok.mp hrun
  obtain ⟨rfl, rfl⟩ := EStateM.Result.ok.inj (show EStateM.Result.ok w₂' w₂' = _ from hget)
  obtain ⟨cands', w₃', happend, hrun⟩ := bind_eq_ok.mp hrun
  obtain ⟨u₃, w₃'', hget, hrun⟩ := bind_eq_ok.mp hrun
  obtain ⟨rfl, rfl⟩ := EStateM.Result.ok.inj (show EStateM.Result.ok w₃' w₃' = _ from hget)
  obtain ⟨⟨⟩, w₄', hloop, hrun⟩ := bind_eq_ok.mp hrun
  obtain ⟨heq, rfl⟩ := EStateM.Result.ok.inj
    (show EStateM.Result.ok (w₁.mem.func, w₂', cands', w₃') w₄' = _ from hrun)
  simp only [Prod.mk.injEq] at heq
  obtain ⟨rfl, rfl, rfl, rfl⟩ := heq
  obtain ⟨horder, hpreds, hused, hP⟩ := of_decide_eq_true hcheck
  exact ⟨w₁, _, _, _, _, hcf, ⟨3, r, hpasses, horder⟩, hpreds, happend, hloop, hused, hP⟩

/-- Draws for an `if` whose last block holds two additions. -/
def addDraws : List ℕ :=
  [0, 1] ++ List.replicate 70 0 ++ [79, 0, 0, 79, 0, 0] ++ List.replicate 100 0

/-- The first of two additions keeps its operands. -/
theorem joinBlock_substitutes_not_first : ∃ (w₁ w₂ : World (State Locals))
    (cands : List (ClifType × Value)) (w₃ w₄ : World (State Locals)),
    withLocals [] (cfConstruct 0 none 0) (buildStart (.user 1 0) ⟨[], [.i32]⟩ addDraws) =
      .ok () w₁ ∧
    VisitStarts addConfig w₁ 5 w₂ ∧ 2 ≤ (predBlocks w₂.mem.func 5).length ∧
    appendJoinParams (computeDominators w₁.mem.func 0) 5 (predBlocks w₂.mem.func 5) w₂ =
      .ok cands w₃ ∧
    substitute cands 5 w₃ = .ok () w₄ ∧ w₃.draws = [0, 0] ++ w₄.draws ∧
    ¬ SubstitutesAll 5 w₃.mem.func w₄.mem.func :=
  exists_joinRun addConfig addDraws [0, 0] (P := fun f g => ¬ SubstitutesAll 5 f g)
    (by decide +kernel)

/-- A config in which a block may start with the address of a load. -/
def loadConfig : ArchConfig where
  operandTypes := [.i32, .i64]
  instructions := addConfig.instructions ++
    [⟨"load", some [{ name := "int", operandTypes := some [.i32] }]⟩]

/-- Draws for an `if` whose last block holds a load and an addition. -/
def loadDraws : List ℕ :=
  [0, 1] ++ List.replicate 70 0 ++ [29, 0, 0, 0, 0, 79, 0, 0] ++ List.replicate 100 0

/-- The address of the load has no operands, and the addition gets the parameter. -/
theorem joinBlock_substitutes_load : ∃ (w₁ w₂ : World (State Locals))
    (cands : List (ClifType × Value)) (w₃ w₄ : World (State Locals)),
    withLocals [] (cfConstruct 0 none 0) (buildStart (.user 1 0) ⟨[], [.i32]⟩ loadDraws) =
      .ok () w₁ ∧
    VisitStarts loadConfig w₁ 5 w₂ ∧ 2 ≤ (predBlocks w₂.mem.func 5).length ∧
    appendJoinParams (computeDominators w₁.mem.func 0) 5 (predBlocks w₂.mem.func 5) w₂ =
      .ok cands w₃ ∧
    substitute cands 5 w₃ = .ok () w₄ ∧ w₃.draws = [0, 0] ++ w₄.draws ∧
    SubstitutesAll 5 w₃.mem.func w₄.mem.func := by
  obtain ⟨w₁, w₂, cands, w₃, w₄, hcf, hstart, hpreds, happend, hloop, hused, hmissed⟩ :=
    exists_joinRun loadConfig loadDraws [0, 0]
      (P := fun f _ => ∀ i ∈ f.layout.insts 5, f.Missed 5 i →
        keepsOperands (f.instData i).opcode = false → ∀ a ∈ (f.instData i).arguments,
          ∀ p ∈ f.blockParams 5, f.valueType p = f.valueType a → a = p) (by decide +kernel)
  exact ⟨w₁, w₂, cands, w₃, w₄, hcf, hstart, hpreds, happend, hloop, hused,
    (joinBlock_substitutes_iff hcf hstart hpreds happend hloop hused (by decide)).mpr hmissed⟩

end Runs

/-! ## The loop over a block that a call dominates -/

namespace Function

variable (f : Function) (callInst i : Inst)

/-- The results of a call as candidates. -/
def resultCandidates : List (ClifType × Value) :=
  (f.dfg.results callInst).map fun r => (f.valueType r, r)

/-- One instruction that the results are offered to, with every draw accepting. -/
def injected : Function :=
  if keepsOperands (f.instData i).opcode then f
  else f.withOperands i
    ((f.instData i).arguments.map (accepted f.valueType (f.resultCandidates callInst)))

/-- What offering the results is for: every operand that has the type of a result is a result of the
call, unless the instruction accesses memory. -/
def HasResults : Prop :=
  keepsOperands (f.instData i).opcode = false → ∀ a ∈ (f.instData i).arguments,
    (∃ r ∈ f.dfg.results callInst, f.valueType r = f.valueType a) → a ∈ f.dfg.results callInst

instance : Decidable (f.HasResults callInst i) := inferInstanceAs (Decidable (_ → _))

variable {f callInst i} {j : Inst}

theorem injected_layout : (f.injected callInst i).layout = f.layout := by
  unfold injected
  split_ifs <;> rfl

theorem injected_results : (f.injected callInst i).dfg.results = f.dfg.results := by
  unfold injected
  split_ifs <;> rfl

theorem injected_valueType : (f.injected callInst i).valueType = f.valueType := by
  unfold injected
  split_ifs <;> rfl

theorem injected_instData_of_ne (h : j ≠ i) :
    (f.injected callInst i).instData j = f.instData j := by
  unfold injected
  split_ifs
  · rfl
  · exact withOperands_instData_of_ne h

/-- Offering the results to another instruction changes nothing here. -/
theorem hasResults_injected_of_ne (h : j ≠ i) :
    (f.injected callInst i).HasResults callInst j ↔ f.HasResults callInst j := by
  unfold HasResults
  rw [injected_instData_of_ne h, injected_results, injected_valueType]

/-- An operand becomes a result of its type, if there is one. -/
theorem accepted_result {a : Value}
    (hr : ∃ r ∈ f.dfg.results callInst,
      f.valueType r = f.valueType (accepted f.valueType (f.resultCandidates callInst) a)) :
    accepted f.valueType (f.resultCandidates callInst) a ∈ f.dfg.results callInst := by
  have htype : ∀ p ∈ f.resultCandidates callInst, p.1 = f.valueType a →
      f.valueType p.2 = f.valueType a := by
    intro p hp hty
    obtain ⟨r, -, rfl⟩ := List.mem_map.mp hp
    exact hty
  rcases accepted_spec f.valueType a htype rfl with ⟨p, hp, -, heq⟩ | ⟨hne, heq⟩
  · obtain ⟨r, hr, rfl⟩ := List.mem_map.mp hp
    rwa [heq]
  · obtain ⟨r, hr, hty⟩ := hr
    rw [heq] at hty
    exact absurd hty (hne _ (List.mem_map_of_mem hr))

theorem hasResults_injected_self : (f.injected callInst i).HasResults callInst i := by
  intro hkeep a ha hr
  rw [injected_results, injected_valueType] at hr
  rw [injected_results]
  unfold injected at hkeep ha
  split_ifs at hkeep ha with hmem
  · rw [hmem] at hkeep
    cases hkeep
  · rw [withOperands_instData_self,
      InstructionData.arguments_withArguments (List.length_map _)] at ha
    obtain ⟨u, -, rfl⟩ := List.mem_map.mp ha
    exact accepted_result hr

end Function

section Inject

variable {δ : Type} {s : State δ} {callInst i : Inst} {m : Block}

theorem takes_injectResults : Takes (injectResults callInst i : M δ Unit) := by
  refine takes_func.bind fun f => Takes.ite (.pure ()) ?_
  exact (Takes.mapM (fun a => takes_rewriteArg _ a) _).bind fun _ => .update _

theorem under_injectResults :
    Under (fun d => d % 10 < 2) (injectResults callInst i) s fun _ s' =>
      s'.func = s.func.injected callInst i := by
  unfold injectResults
  refine Under.bind (P := fun f s' => s' = s ∧ f = s.func)
    (.of_ensures (I := fun _ _ => True) (ensures_func ⟨rfl, rfl⟩)) takes_func (fun f => ?_) ?_
  · exact Takes.ite (.pure ()) ((Takes.mapM (fun a => takes_rewriteArg _ a) _).bind fun _ =>
      .update _)
  rintro _ _ ⟨rfl, rfl⟩
  refine Under.ite (fun hkeep => .pure ?_) fun hkeep => ?_
  · rw [Function.injected, if_pos hkeep]
  refine (Under.mapM_eq (fun a => takes_rewriteArg _ a) _ fun a _ => under_rewriteArg _ a).bind
    (.mapM (fun a => takes_rewriteArg _ a) _) (fun _ => .update _) ?_
  rintro _ _ ⟨rfl, rfl⟩
  refine .of_ensures (I := fun _ _ => True) (ensures_setFunc ?_)
  rw [Function.injected, if_neg hkeep]
  rfl

/-- **The loop ends after the second instruction.** -/
theorem under_injectInto :
    Under (fun d => d % 10 < 2) (injectInto callInst m) s fun _ s' =>
      s'.func = (s.func.layout.insts m)[1]?.elim s.func (s.func.injected callInst) := by
  unfold injectInto
  have htakes : ∀ k : Option Inst → M δ Unit, k none = pure () →
      (∀ i, k (some i) = injectResults callInst i) → ∀ o, Takes (k o) := by
    rintro k hnone hsome (- | i)
    · exact hnone ▸ .pure ()
    · exact hsome i ▸ takes_injectResults
  refine Under.bind (.of_ensures (ensures_gotoFirstInst_eq m)) (takes_gotoFirstInst m)
    (fun _ => takes_nextInst.bind (htakes _ rfl fun _ => rfl)) ?_
  rintro - _ ⟨i, hi, rfl⟩
  obtain ⟨after, hinsts⟩ : ∃ after, s.func.layout.insts m = [] ++ i :: after :=
    List.head?_eq_some_iff.mp hi
  refine Under.bind (.of_ensures (I := fun _ _ => True)
    (ensures_nextInst (s := { s with pos := .at_ i }) rfl (List.mem_of_mem_head? hi)))
    takes_nextInst (htakes _ rfl fun _ => rfl) ?_
  rintro o s₁ ⟨hfunc, -, hnext, -⟩
  have hfunc : s₁.func = s.func := hfunc
  have hnext : o = (s.func.layout.insts m)[1]? := by
    rw [hnext, hinsts, ListEdit.next_eq List.not_mem_nil, List.head?_eq_getElem?]
    rfl
  rw [← hnext]
  cases o with
  | none => exact .pure hfunc
  | some j =>
      rw [← hfunc]
      exact under_injectResults

/-- The results are offered to every instruction of a block. -/
def Function.HasResultsIn (f : Function) (callInst : Inst) (m : Block) : Prop :=
  ∀ i ∈ f.layout.insts m, f.HasResults callInst i

instance (f : Function) : Decidable (f.HasResultsIn callInst m) :=
  inferInstanceAs (Decidable (∀ i ∈ f.layout.insts m, f.HasResults callInst i))

/-- **When the results of a call reach a block.** In a run in which every draw of the loop accepts,
every operand of the block that has the type of a result becomes a result of the call exactly if
there is nothing to do in the instructions other than the second one. -/
theorem injectInto_hasResults_iff {used : List ℕ} {w w' : World (State δ)}
    (hrun : injectInto callInst m w = .ok () w') (hused : w.draws = used ++ w'.draws)
    (haccept : ∀ d ∈ used, d % 10 < 2) :
    w'.mem.func.HasResultsIn callInst m ↔
      ∀ i ∈ w.mem.func.layout.insts m, (w.mem.func.layout.insts m)[1]? ≠ some i →
        w.mem.func.HasResults callInst i := by
  rw [under_injectInto.of_ok rfl hrun hused haccept]
  unfold Function.HasResultsIn
  cases hsecond : (w.mem.func.layout.insts m)[1]? with
  | none => exact forall₂_congr fun i _ => ⟨fun h _ => h, fun h => h (by simp)⟩
  | some j =>
      rw [Option.elim_some, Function.injected_layout]
      refine forall₂_congr fun i _ => ?_
      by_cases hij : i = j
      · subst hij
        exact iff_of_true Function.hasResults_injected_self fun hne => absurd rfl hne
      · rw [Function.hasResults_injected_of_ne hij]
        exact ⟨fun h _ => h, fun h => h fun heq => hij (Option.some.inj heq).symm⟩

end Inject

section CallRuns

/-- A child has been imported, and the cursor is new. -/
def importing (w : World (State Locals)) (child : Child) : World (State Locals) :=
  (w.withFunc (w.mem.func.importFunction ⟨child.name, child.signature⟩)).withPos .nowhere

/-- A function is built and gets a call, and the results are offered to a block. -/
def injectRun : M Locals (Inst × Block × World (State Locals)) := do
  let r ← buildFunction 0 false addConfig
  let w ← get
  set (importing w addChild)
  let (callInst, blocks) ← placeCall w.mem.func.extFuncs.len addChild.signature
    ⟨w.mem.func, r.1, r.2⟩
  let m ← unwrap (← choose blocks)
  let w₂ ← get
  injectInto callInst m
  return (callInst, m, w₂)

/-- What a check of such a run shows. -/
theorem exists_injectRun (draws used : List ℕ) (m : Block) {P : Inst → Function → Function → Prop}
    [∀ i f g, Decidable (P i f g)]
    (h : returnsWith injectRun (buildStart (.user 1 0) ⟨[], [.i32]⟩ draws) (fun r w₃ =>
      decide (r.2.1 = m ∧ r.2.2.draws = used ++ w₃.draws ∧
        P r.1 r.2.2.mem.func w₃.mem.func)) = true) :
    ∃ r w callInst blocks w₁ w₂ w₃,
      buildFunction 0 false addConfig (buildStart (.user 1 0) ⟨[], [.i32]⟩ draws) = .ok r w ∧
      placeCall w.mem.func.extFuncs.len addChild.signature ⟨w.mem.func, r.1, r.2⟩
        (importing w addChild) = .ok (callInst, blocks) w₁ ∧
      choose blocks w₁ = .ok (some m) w₂ ∧ injectInto callInst m w₂ = .ok () w₃ ∧
      w₂.draws = used ++ w₃.draws ∧ P callInst w₂.mem.func w₃.mem.func := by
  obtain ⟨⟨callInst, m', w₂⟩, w₃, hrun, hcheck⟩ := exists_of_returnsWith h
  -- the run is taken apart, step by step
  obtain ⟨r, w, hbuild, hrun⟩ := bind_eq_ok.mp hrun
  obtain ⟨u, w', hget, hrun⟩ := bind_eq_ok.mp hrun
  obtain ⟨rfl, rfl⟩ := EStateM.Result.ok.inj (show EStateM.Result.ok w w = _ from hget)
  obtain ⟨⟨⟩, w', hset, hrun⟩ := bind_eq_ok.mp hrun
  obtain ⟨-, rfl⟩ := EStateM.Result.ok.inj
    (show EStateM.Result.ok PUnit.unit (importing w addChild) = _ from hset)
  obtain ⟨⟨callInst', blocks⟩, w₁, hplace, hrun⟩ := bind_eq_ok.mp hrun
  obtain ⟨o, w₂', hchoose, hrun⟩ := bind_eq_ok.mp hrun
  obtain ⟨m'', w₂'', hunwrap, hrun⟩ := bind_eq_ok.mp hrun
  cases o with
  | none => cases hunwrap
  | some m₀ =>
      obtain ⟨rfl, rfl⟩ := EStateM.Result.ok.inj (show EStateM.Result.ok m₀ w₂' = _ from hunwrap)
      obtain ⟨u₂, w₂'', hget, hrun⟩ := bind_eq_ok.mp hrun
      obtain ⟨rfl, rfl⟩ := EStateM.Result.ok.inj (show EStateM.Result.ok w₂' w₂' = _ from hget)
      obtain ⟨⟨⟩, w₃', hinject, hrun⟩ := bind_eq_ok.mp hrun
      obtain ⟨heq, rfl⟩ := EStateM.Result.ok.inj
        (show EStateM.Result.ok (callInst', m₀, w₂') w₃' = _ from hrun)
      simp only [Prod.mk.injEq] at heq
      obtain ⟨rfl, rfl, rfl⟩ := heq
      obtain ⟨rfl, hused, hP⟩ := of_decide_eq_true hcheck
      exact ⟨r, w, _, blocks, w₁, _, _, hbuild, hplace, hchoose, hinject, hused, hP⟩

/-- Draws for an `if` whose last block holds two additions, and then for a call. -/
def callDraws (rest : List ℕ) : List ℕ :=
  [0, 1] ++ List.replicate 70 0 ++ [79, 0, 0, 79, 0, 0] ++ List.replicate 66 0 ++ rest

/-- The second of two additions gets the result of the call, the first one does not. -/
theorem injectInto_hasResults_not_first : ∃ (r : BlockMap (List Block) × ValueMap)
    (w : World (State Locals)) (callInst : Inst) (blocks : List Block)
    (w₁ w₂ w₃ : World (State Locals)),
    buildFunction 0 false addConfig
      (buildStart (.user 1 0) ⟨[], [.i32]⟩ (callDraws [1, 0, 0, 1, 0, 0])) = .ok r w ∧
    placeCall w.mem.func.extFuncs.len addChild.signature ⟨w.mem.func, r.1, r.2⟩
      (importing w addChild) = .ok (callInst, blocks) w₁ ∧
    choose blocks w₁ = .ok (some 5) w₂ ∧ injectInto callInst 5 w₂ = .ok () w₃ ∧
    w₂.draws = [0, 0] ++ w₃.draws ∧ ¬ w₃.mem.func.HasResultsIn callInst 5 :=
  exists_injectRun (callDraws [1, 0, 0, 1, 0, 0]) [0, 0] 5
    (P := fun callInst _ g => ¬ g.HasResultsIn callInst 5) (by decide +kernel)

/-- A block with a `return` as its second instruction gets the result. -/
theorem injectInto_hasResults_return : ∃ (r : BlockMap (List Block) × ValueMap)
    (w : World (State Locals)) (callInst : Inst) (blocks : List Block)
    (w₁ w₂ w₃ : World (State Locals)),
    buildFunction 0 false addConfig
      (buildStart (.user 1 0) ⟨[], [.i32]⟩ (callDraws [1, 0, 0, 0, 0])) = .ok r w ∧
    placeCall w.mem.func.extFuncs.len addChild.signature ⟨w.mem.func, r.1, r.2⟩
      (importing w addChild) = .ok (callInst, blocks) w₁ ∧
    choose blocks w₁ = .ok (some 1) w₂ ∧ injectInto callInst 1 w₂ = .ok () w₃ ∧
    w₂.draws = [0] ++ w₃.draws ∧ w₃.mem.func.HasResultsIn callInst 1 := by
  obtain ⟨r, w, callInst, blocks, w₁, w₂, w₃, hbuild, hplace, hchoose, hinject, hused, hrest⟩ :=
    exists_injectRun (callDraws [1, 0, 0, 0, 0]) [0] 1
      (P := fun callInst f _ => ∀ i ∈ f.layout.insts 1, (f.layout.insts 1)[1]? ≠ some i →
        f.HasResults callInst i) (by decide +kernel)
  exact ⟨r, w, callInst, blocks, w₁, w₂, w₃, hbuild, hplace, hchoose, hinject, hused,
    (injectInto_hasResults_iff hinject hused (by decide)).mpr hrest⟩

end CallRuns

end Clir
