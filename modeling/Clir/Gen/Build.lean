import Clir.Cf.Levels
import Clir.Gen.Complete
import Clir.Gen.Invoke

set_option autoImplicit false

/-! # Building a function

A function is built in two steps, control flow first. The skeleton that the first step leaves is
the setting of the second one.
-/

namespace Clir

open Cmd Cursor Graph Relation

theorem withLocals_eq_ok {δ ε α : Type} {start : ε} {x : M ε α} {a : α}
    {w w' : World (State δ)} :
    withLocals start x w = .ok a w' ↔
      ∃ w₁, x ⟨w.draws, ⟨w.mem.func, w.mem.pos, start⟩⟩ = .ok a w₁ ∧
        w' = ⟨w₁.draws, ⟨w₁.mem.func, w₁.mem.pos, w.mem.locals⟩⟩ := by
  unfold withLocals
  cases x ⟨w.draws, ⟨w.mem.func, w.mem.pos, start⟩⟩ with
  | ok b w₁ => simp [eq_comm]
  | error e w₁ => simp

/-- The control flow of a function has been constructed. -/
structure Constructed (maxDepth : ℕ) (name : FuncName) (signature : Signature)
    (w : World (State Locals)) : Prop where
  run : ∃ draws, withLocals [] (cfConstruct maxDepth none 0) (buildStart name signature draws) =
    .ok () w

section Built

variable {maxDepth : ℕ} {name : FuncName} {signature : Signature} {w w' : World (State Locals)}
  {isRootFunc : Bool} {config : ArchConfig} {r : BlockMap (List Block) × ValueMap} {draws : List ℕ}

theorem Constructed.spec (h : Constructed maxDepth name signature w) :
    Skeleton w.mem.func 0 1 ∧ w.mem.func.header = (Function.new name signature).header ∧
      w.mem.locals = {} := by
  obtain ⟨draws, hrun⟩ := h.run
  obtain ⟨w₁, hw₁, rfl⟩ := withLocals_eq_ok.mp hrun
  have hcf : cfConstruct maxDepth none 0 (cfStart name signature draws) = .ok () w₁ := hw₁
  obtain ⟨hskeleton, -, -, hheader⟩ := (Runs.of_ok (cfConstruct_spec maxDepth name signature draws)
    hcf).1
  exact ⟨hskeleton, hheader, rfl⟩

/-- The setting in which the instructions are generated. -/
def Constructed.setting (h : Constructed maxDepth name signature w) (config : ArchConfig) :
    Setting where
  config := config
  start := w.mem.func
  entry := 0
  exit := 1
  skeleton := h.spec.1
  no_slots := by
    rw [show w.mem.func.sizedStackSlots = _ from congrArg (fun x => x.2.2.1) h.spec.2.1]
    rfl

theorem Constructed.signature_eq (h : Constructed maxDepth name signature w) :
    w.mem.func.signature = signature := congrArg (fun x => x.2.1) h.spec.2.1

theorem Constructed.name_eq (h : Constructed maxDepth name signature w) :
    w.mem.func.name = name := congrArg (fun x => x.1) h.spec.2.1

theorem Constructed.filled (h : Constructed maxDepth name signature w) (config : ArchConfig) :
    Filled (h.setting config) [] w.mem := .start rfl h.spec.2.2

/-- **The generator on a constructed skeleton.** -/
theorem Constructed.functionGenerator_spec (h : Constructed maxDepth name signature w)
    (config : ArchConfig) (isRootFunc : Bool) :
    Ensures (Stop (h.setting config)) (functionGenerator isRootFunc config) w.mem
      (Generates (h.setting config) isRootFunc) :=
  (h.filled config).functionGenerator_spec rfl

/-- A function that is built has been constructed first. -/
theorem buildFunction_eq_ok
    (h : buildFunction maxDepth isRootFunc config (buildStart name signature draws) = .ok r w) :
    ∃ w₁, Constructed maxDepth name signature w₁ ∧
      functionGenerator isRootFunc config w₁ = .ok r w := by
  obtain ⟨⟨⟩, w₁, hcf, hgen⟩ := bind_eq_ok.mp h
  exact ⟨w₁, ⟨draws, hcf⟩, hgen⟩

end Built

end Clir
