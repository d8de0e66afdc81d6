import Clir.Cg.Guarantees

set_option autoImplicit false

/-! # The files of a run

`generate_ir` loads the corpus and then generates one program after the other. Each program is
written to three files, one for each level of optimisation, and the loop ends once there are as
many programs as were asked for, but not before the first. What the database and the file system
answer is a parameter (`Environment`): where they fail, `generate_ir` panics, and where they do not,
it ends with the files of as many programs, whatever is drawn.
-/

namespace Clir

open Cmd

/-- `opt_level` -/
inductive OptLevel
  | none
  | speed
  | speedAndSize
  deriving DecidableEq, Repr

namespace OptLevel

def text : OptLevel → String
  | none => "none"
  | speed => "speed"
  | speedAndSize => "speed_and_size"

/-- The levels in the order of their files. -/
def all : List OptLevel := [none, speed, speedAndSize]

end OptLevel

/-- The name of a file in the output directory. -/
def clifFileName (fileid : ℕ) (level : OptLevel) : String :=
  "cranelift_ir_" ++ toString fileid ++ "_" ++ level.text ++ ".clif"

/-- A file: the level that its header sets, and its functions. -/
structure ClifFile where
  name : String
  optLevel : OptLevel
  functions : List Function

/-- The files of a program. -/
def clifFiles (fileid : ℕ) (functions : List Function) : List ClifFile :=
  OptLevel.all.map fun level => ⟨clifFileName fileid level, level, functions⟩

/-- What the database and the file system answer. -/
structure Environment where
  /-- `load_all_documents`; the documents are not used. -/
  loadAllDocuments : Option Unit
  /-- `File::create`, for a file in the output directory. -/
  create : String → Option Unit

/-- The database and the file system do what they are asked for. -/
structure Environment.Works (env : Environment) : Prop where
  loads : env.loadAllDocuments = some ()
  creates : ∀ name, env.create name = some ()

/-- The three files are created before the first is written. Errors of `write_all` are ignored. -/
def writeFiles (env : Environment) (fileid : ℕ) (functions : List Function) :
    Cmd (List ClifFile) Unit := do
  OptLevel.all.forM fun level => unwrap (env.create (clifFileName fileid level))
  update fun files => files ++ clifFiles fileid functions

/-- The loop of `generate_ir`, from `fileid` on. -/
def generateRounds (env : Environment) (cfDepth maxDepth : ℕ) (config : ArchConfig)
    (num fileid : ℕ) : Cmd (List ClifFile) Unit := do
  let round ← onMem {} (generateIr cfDepth maxDepth config)
  writeFiles env fileid round.2.clifOutput
  if fileid + 1 ≥ num then
    return ()
  else
    generateRounds env cfDepth maxDepth config num (fileid + 1)
termination_by num - fileid

/-- `generate_ir` -/
def generateIrFiles (env : Environment) (cfDepth maxDepth : ℕ) (config : ArchConfig) (num : ℕ) :
    Cmd (List ClifFile) Unit := do
  unwrap env.loadAllDocuments
  generateRounds env cfDepth maxDepth config num 0

/-! ## Runs -/

/-- The files of programs that are numbered from `fileid` on. -/
def clifFilesFrom : ℕ → List (List Function) → List ClifFile
  | _, [] => []
  | fileid, program :: rest => clifFiles fileid program ++ clifFilesFrom (fileid + 1) rest

/-- The functions of some call graph of the given depth. -/
def GeneratedFrom (cfDepth maxDepth : ℕ) (config : ArchConfig) (program : List Function) : Prop :=
  ∃ root, DrawnGraph maxDepth root ∧ AssembledGraph cfDepth config root program

section Runs

variable {env : Environment} {cfDepth maxDepth num fileid : ℕ} {config : ArchConfig}
  {files : List ClifFile}

theorem writeFiles_spec (functions : List Function) :
    Ensures (fun e _ => env.Works → e = .starved) (writeFiles env fileid functions) files
      fun _ files' => files' = files ++ clifFiles fileid functions := by
  refine Ensures.bind (Q := fun _ files' => files' = files ++ clifFiles fileid functions)
    (Ensures.forM (P := fun _ files' => files' = files) rfl ?_) ?_
  · rintro level rest _ rfl
    refine Ensures.unwrap (fun hnone _ henv => ?_) fun _ _ => rfl
    rw [henv.creates] at hnone
    cases hnone
  · rintro - _ rfl
    exact Ensures.update rfl

/-- One round adds the files of one program. The induction is on the programs that are missing. -/
theorem generateRounds_spec (fileid : ℕ) (files : List ClifFile) :
    Ensures (fun e _ => env.Works ∧ config.Supported ∧ maxDepth ≤ 30 → e = .starved)
      (generateRounds env cfDepth maxDepth config num fileid) files fun _ files' =>
        ∃ programs, programs.length = max 1 (num - fileid) ∧
          (∀ program ∈ programs, GeneratedFrom cfDepth maxDepth config program) ∧
          files' = files ++ clifFilesFrom fileid programs := by
  unfold generateRounds
  refine Ensures.pick (P := fun r => GeneratedFrom cfDepth maxDepth config r.2.clifOutput)
    (Ensures.onMem (generateIr_spec cfDepth maxDepth config) (fun e _ he h => he h.2)
      fun r a h => ⟨rfl, h⟩) fun round hround => ?_
  refine Ensures.bind ((writeFiles_spec _).weaken fun e _ he h => he h.1) ?_
  rintro - _ rfl
  refine Ensures.ite (fun hlast => Ensures.pure ?_) fun hmore => ?_
  · refine ⟨[round.2.clifOutput], ?_, by simpa using hround, ?_⟩
    · rw [List.length_singleton]
      omega
    · rw [clifFilesFrom, clifFilesFrom, List.append_nil]
  · refine (generateRounds_spec (fileid + 1) _).mono ?_
    rintro - _ ⟨programs, hlen, hprograms, rfl⟩
    refine ⟨round.2.clifOutput :: programs, ?_, List.forall_mem_cons.mpr ⟨hround, hprograms⟩, ?_⟩
    · rw [List.length_cons, hlen]
      omega
    · rw [clifFilesFrom, List.append_assoc]
termination_by num - fileid

theorem generateIrFiles_spec :
    Ensures (fun e _ => env.Works ∧ config.Supported ∧ maxDepth ≤ 30 → e = .starved)
      (generateIrFiles env cfDepth maxDepth config num) [] fun _ files =>
        ∃ programs, programs.length = max 1 num ∧
          (∀ program ∈ programs, GeneratedFrom cfDepth maxDepth config program) ∧
          files = clifFilesFrom 0 programs := by
  refine Ensures.pick (P := fun _ => True) (Ensures.unwrap (fun hnone _ h => ?_) fun _ _ =>
    ⟨rfl, trivial⟩) fun _ _ => generateRounds_spec 0 []
  rw [h.1.loads] at hnone
  cases hnone

end Runs

/-- An environment in which nothing fails. -/
def workingEnvironment : Environment := ⟨some (), fun _ => some ()⟩

theorem generateIrFiles_returns : returns (generateIrFiles workingEnvironment 0 0 archX86 2)
    ⟨List.replicate 300 0, []⟩ = true := by
  decide +kernel

end Clir
