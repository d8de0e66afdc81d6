import Clir.Gen.Config

set_option autoImplicit false

/-! # The intersection of configs

`config_intersection` starts from the first config and narrows the modes of its instructions by
one config after the other. Two modes of one name give a mode if they agree on the result type and
on memory, and a type list of it has the types that are in both lists, or is absent if there are
none. Everything else, the operand types of the architecture included, is taken from the first
config.

A mode of the result is the merge of a *chain* of modes, one of each config
(`Instruction.mem_modes_foldl_intersect`), and all that is said about the result is said about
chains.
-/

namespace Clir

/-- `intersect_optional_vec`. The order of the result is that of a hash set; nothing depends on
it. -/
def intersectOptionalVec {α : Type} [DecidableEq α] :
    Option (List α) → Option (List α) → Option (List α)
  | some v₁, some v₂ =>
      let intersection := v₁.dedup.filter (· ∈ v₂)
      if intersection.isEmpty then none else some intersection
  | _, _ => none

/-- The common value of two optional fields; nothing if they differ. -/
def agreed {α : Type} [DecidableEq α] : Option α → Option α → Option (Option α)
  | some a, some b => if a = b then some (some a) else none
  | none, none => some none
  | _, _ => none

/-- `Mode::intersect` -/
def Mode.intersect (self other : Mode) : Option Mode := do
  if self.name ≠ other.name then
    none
  else
    let resultType ← agreed self.resultType other.resultType
    let memory ← agreed self.memory other.memory
    return {
      name := self.name
      operandTypes := intersectOptionalVec self.operandTypes other.operandTypes
      arg0Types := intersectOptionalVec self.arg0Types other.arg0Types
      arg1Types := intersectOptionalVec self.arg1Types other.arg1Types
      resultType := resultType
      memory := memory }

/-- The modes that two lists of modes have in common. -/
def intersectModes (selfModes otherModes : List Mode) : Option (List Mode) :=
  let intersectedModes := selfModes.flatMap fun selfMode => otherModes.filterMap selfMode.intersect
  if intersectedModes.isEmpty then none else some intersectedModes

/-- What is left of an instruction, given another config. -/
def Instruction.intersect (instr : Instruction) (config : ArchConfig) : Instruction :=
  match config.instructions.find? fun i => i.name = instr.name with
  | some otherInstr =>
      match instr.modes, otherInstr.modes with
      | some selfModes, some otherModes =>
          { instr with modes := intersectModes selfModes otherModes }
      | _, _ => { instr with modes := none }
  | none => { instr with modes := none }

def ArchConfig.intersect (finalConfig config : ArchConfig) : ArchConfig :=
  { finalConfig with instructions := finalConfig.instructions.map (·.intersect config) }

/-- `config_intersection` of the configs that were read; without any it panics. -/
def configIntersection : List ArchConfig → Option ArchConfig
  | [] => none
  | first :: rest => some (rest.foldl ArchConfig.intersect first)

/-! ## The lists of a mode -/

/-- The three lists of types a mode may have. -/
inductive Slot
  | operand | arg0 | arg1
  deriving DecidableEq, Repr

namespace Mode

def types (m : Mode) : Slot → Option (List OperandType)
  | .operand => m.operandTypes
  | .arg0 => m.arg0Types
  | .arg1 => m.arg1Types

/-- The types a mode lists; an absent list lists none. -/
def listed (m : Mode) (slot : Slot) : List OperandType := (m.types slot).getD []

end Mode

section Lists

variable {α : Type} [DecidableEq α]

theorem mem_intersectOptionalVec {v₁ v₂ : Option (List α)} {t : α} :
    t ∈ (intersectOptionalVec v₁ v₂).getD [] ↔ t ∈ v₁.getD [] ∧ t ∈ v₂.getD [] := by
  cases v₁ with
  | none => simp [intersectOptionalVec]
  | some v₁ =>
      cases v₂ with
      | none => simp [intersectOptionalVec]
      | some v₂ =>
          have hmem : t ∈ v₁.dedup.filter (· ∈ v₂) ↔ t ∈ v₁ ∧ t ∈ v₂ := by simp
          simp only [intersectOptionalVec, Option.getD_some]
          split_ifs with hempty
          · rw [List.isEmpty_iff] at hempty
            rw [← hmem, hempty]
            rfl
          · exact hmem

/-- An intersection is absent where nothing is in common. -/
theorem isSome_intersectOptionalVec {v₁ v₂ : Option (List α)} :
    (intersectOptionalVec v₁ v₂).isSome ↔ ∃ t, t ∈ (intersectOptionalVec v₁ v₂).getD [] := by
  cases h : intersectOptionalVec v₁ v₂ with
  | none => simp
  | some v =>
      have hne : v ≠ [] := by
        unfold intersectOptionalVec at h
        split at h
        · simp only at h
          split_ifs at h with hempty
          obtain rfl := Option.some.inj h
          simpa using hempty
        · cases h
      simpa using List.exists_mem_of_ne_nil v hne

theorem agreed_eq_some {x y : Option α} {z : Option α} :
    agreed x y = some z ↔ x = y ∧ z = x := by
  cases x <;> cases y <;> simp [agreed, eq_comm]

end Lists

/-! ## Chains of modes -/

namespace Mode

variable {a b m x : Mode} {ys : List Mode}

/-- The mode with the lists narrowed by another one. -/
def meet (a b : Mode) : Mode :=
  { a with
    operandTypes := intersectOptionalVec a.operandTypes b.operandTypes
    arg0Types := intersectOptionalVec a.arg0Types b.arg0Types
    arg1Types := intersectOptionalVec a.arg1Types b.arg1Types }

/-- Two modes that the intersection does not tell apart. -/
structure Agrees (a b : Mode) : Prop where
  name : b.name = a.name
  resultType : b.resultType = a.resultType
  memory : b.memory = a.memory

@[simp] theorem types_meet (a b : Mode) (slot : Slot) :
    (a.meet b).types slot = intersectOptionalVec (a.types slot) (b.types slot) := by
  cases slot <;> rfl

theorem agrees_meet (a b : Mode) : a.Agrees (a.meet b) := ⟨rfl, rfl, rfl⟩

theorem Agrees.symm (h : a.Agrees b) : b.Agrees a :=
  ⟨h.name.symm, h.resultType.symm, h.memory.symm⟩

theorem Agrees.trans (h : a.Agrees b) (h' : b.Agrees m) : a.Agrees m :=
  ⟨h'.name.trans h.name, h'.resultType.trans h.resultType, h'.memory.trans h.memory⟩

theorem intersect_eq_some : a.intersect b = some m ↔ a.Agrees b ∧ m = a.meet b := by
  constructor
  · intro h
    unfold intersect at h
    split_ifs at h with hname
    obtain ⟨resultType, hresult, h⟩ := Option.bind_eq_some_iff.mp h
    obtain ⟨memory, hmemory, h⟩ := Option.bind_eq_some_iff.mp h
    obtain ⟨hr, rfl⟩ := agreed_eq_some.mp hresult
    obtain ⟨hm, rfl⟩ := agreed_eq_some.mp hmemory
    exact ⟨⟨(not_not.mp hname).symm, hr.symm, hm.symm⟩, (Option.some.inj h).symm⟩
  · rintro ⟨⟨hname, hr, hm⟩, rfl⟩
    have hr' := agreed_eq_some.mpr ⟨hr.symm, rfl⟩
    have hm' := agreed_eq_some.mpr ⟨hm.symm, rfl⟩
    simp [intersect, hname, hr', hm', meet]

/-- A mode narrowed by others, one after the other. -/
def merge (x : Mode) (ys : List Mode) : Option Mode := ys.foldlM intersect x

theorem merge_nil : x.merge [] = some m ↔ m = x := by
  simp [merge, eq_comm]

theorem merge_cons {y : Mode} : x.merge (y :: ys) = some m ↔
    x.Agrees y ∧ (x.meet y).merge ys = some m := by
  unfold merge
  rw [List.foldlM_cons, Option.bind_eq_bind, Option.bind_eq_some_iff]
  constructor
  · rintro ⟨z, hz, h⟩
    obtain ⟨hagree, rfl⟩ := intersect_eq_some.mp hz
    exact ⟨hagree, h⟩
  · rintro ⟨hagree, h⟩
    exact ⟨_, intersect_eq_some.mpr ⟨hagree, rfl⟩, h⟩

/-- A merge agrees with the modes it was made from. -/
theorem agrees_of_merge (h : x.merge ys = some m) : x.Agrees m ∧ ∀ y ∈ ys, x.Agrees y := by
  induction ys generalizing x with
  | nil =>
      obtain rfl := merge_nil.mp h
      exact ⟨⟨rfl, rfl, rfl⟩, by simp⟩
  | cons y ys ih =>
      obtain ⟨hagree, h⟩ := merge_cons.mp h
      obtain ⟨hm, hys⟩ := ih h
      refine ⟨(agrees_meet x y).trans hm, List.forall_mem_cons.mpr ⟨hagree, fun z hz => ?_⟩⟩
      exact (agrees_meet x y).trans (hys z hz)

/-- Modes that agree have a merge. -/
theorem exists_merge (h : ∀ y ∈ ys, x.Agrees y) : ∃ m, x.merge ys = some m := by
  induction ys generalizing x with
  | nil => exact ⟨x, merge_nil.mpr rfl⟩
  | cons y ys ih =>
      obtain ⟨hy, hys⟩ := List.forall_mem_cons.mp h
      obtain ⟨m, hm⟩ := ih fun z hz => (agrees_meet x y).symm.trans (hys z hz)
      exact ⟨m, merge_cons.mpr ⟨hy, hm⟩⟩

/-- A merge lists what all modes list. -/
theorem mem_listed_merge (h : x.merge ys = some m) {slot : Slot} {t : OperandType} :
    t ∈ m.listed slot ↔ t ∈ x.listed slot ∧ ∀ y ∈ ys, t ∈ y.listed slot := by
  induction ys generalizing x with
  | nil =>
      obtain rfl := merge_nil.mp h
      simp
  | cons y ys ih =>
      rw [ih (merge_cons.mp h).2, listed, types_meet, mem_intersectOptionalVec,
        List.forall_mem_cons, and_assoc]
      rfl

/-- A list of a merge of two or more modes is present if it lists something. -/
theorem isSome_types_merge (h : x.merge ys = some m) (hys : ys ≠ []) (slot : Slot) :
    (m.types slot).isSome ↔ ∃ t, t ∈ m.listed slot := by
  induction ys generalizing x with
  | nil => exact absurd rfl hys
  | cons y ys ih =>
      have h := (merge_cons.mp h).2
      by_cases hrest : ys = []
      · subst hrest
        obtain rfl := merge_nil.mp h
        rw [listed, types_meet]
        exact isSome_intersectOptionalVec
      · exact ih h hrest

end Mode

/-! ## The modes of the result -/

namespace ArchConfig

/-- A mode of an instruction of the config. -/
def HasMode (c : ArchConfig) (i : String) (m : Mode) : Prop :=
  ∃ instr ∈ c.instructions, instr.name = i ∧ ∃ ms, instr.modes = some ms ∧ m ∈ ms

/-- A mode of the first instruction of that name, which is the one a search finds. -/
def FindsMode (c : ArchConfig) (i : String) (m : Mode) : Prop :=
  ∃ instr, c.instructions.find? (fun instr => instr.name = i) = some instr ∧
    ∃ ms, instr.modes = some ms ∧ m ∈ ms

/-- The config enables a type in a list of a mode of an instruction. -/
def Enables (c : ArchConfig) (i mode : String) (slot : Slot) (t : OperandType) : Prop :=
  ∃ m, c.HasMode i m ∧ m.name = mode ∧ t ∈ m.listed slot

/-- No two instructions have one name, and no two modes of an instruction. -/
structure WellNamed (c : ArchConfig) : Prop where
  instructions : (c.instructions.map Instruction.name).Nodup
  modes : ∀ instr ∈ c.instructions, ∀ ms, instr.modes = some ms → (ms.map Mode.name).Nodup

end ArchConfig

theorem mem_intersectModes {self other : List Mode} {m : Mode} :
    (∃ ms, intersectModes self other = some ms ∧ m ∈ ms) ↔
      ∃ x ∈ self, ∃ y ∈ other, x.intersect y = some m := by
  have hmem : m ∈ self.flatMap (fun x => other.filterMap x.intersect) ↔
      ∃ x ∈ self, ∃ y ∈ other, x.intersect y = some m := by simp
  rw [← hmem, intersectModes]
  constructor
  · rintro ⟨ms, hms, hm⟩
    split_ifs at hms with hempty
    exact Option.some.inj hms ▸ hm
  · intro hm
    refine ⟨_, if_neg ?_, hm⟩
    rw [List.isEmpty_iff]
    exact List.ne_nil_of_mem hm

@[simp] theorem Instruction.intersect_name (instr : Instruction) (config : ArchConfig) :
    (instr.intersect config).name = instr.name := by
  unfold Instruction.intersect
  split
  · split <;> rfl
  · rfl

theorem Instruction.mem_modes_intersect {instr : Instruction} {config : ArchConfig} {m : Mode} :
    (∃ ms, (instr.intersect config).modes = some ms ∧ m ∈ ms) ↔
      ∃ x y, (∃ ms, instr.modes = some ms ∧ x ∈ ms) ∧ config.FindsMode instr.name y ∧
        x.intersect y = some m := by
  unfold Instruction.intersect ArchConfig.FindsMode
  cases hfind : config.instructions.find? (fun i => i.name = instr.name) with
  | none => simp
  | some other =>
      cases hself : instr.modes with
      | none => simp
      | some self =>
          cases hother : other.modes with
          | none => simp [hother]
          | some others =>
              simp only [mem_intersectModes, Option.some.injEq, exists_eq_left', hother]
              constructor
              · rintro ⟨x, hx, y, hy, h⟩
                exact ⟨x, y, hx, hy, h⟩
              · rintro ⟨x, y, hx, hy, h⟩
                exact ⟨x, hx, y, hy, h⟩

/-- A chain of modes, with their merge: one mode of an instruction, and one that each of the other
configs has under the same name. -/
structure Chain (instr : Instruction) (rest : List ArchConfig) (m x : Mode) (ys : List Mode) :
    Prop where
  head : ∃ ms, instr.modes = some ms ∧ x ∈ ms
  tail : List.Forall₂ (fun c y => c.FindsMode instr.name y) rest ys
  merge : x.merge ys = some m

section Fold

variable {first : ArchConfig} {rest : List ArchConfig} {instr : Instruction} {i : String} {m : Mode}

@[simp] theorem Instruction.foldl_intersect_name :
    (rest.foldl Instruction.intersect instr).name = instr.name := by
  induction rest generalizing instr with
  | nil => rfl
  | cons c rest ih => rw [List.foldl_cons, ih, Instruction.intersect_name]

/-- **A mode that is left of an instruction is the merge of a chain of modes.** -/
theorem Instruction.mem_modes_foldl_intersect :
    (∃ ms, (rest.foldl Instruction.intersect instr).modes = some ms ∧ m ∈ ms) ↔
      ∃ x ys, Chain instr rest m x ys := by
  -- the next config is merged into the instruction before the others are looked at
  induction rest generalizing instr with
  | nil =>
      constructor
      · intro h
        exact ⟨m, [], h, .nil, Mode.merge_nil.mpr rfl⟩
      · rintro ⟨x, ys, hx, hys, h⟩
        cases hys
        exact Mode.merge_nil.mp h ▸ hx
  | cons c rest ih =>
      rw [List.foldl_cons, ih]
      constructor
      · rintro ⟨z, ys, hz, hys, h⟩
        obtain ⟨x, y, hx, hy, hxy⟩ := Instruction.mem_modes_intersect.mp hz
        obtain ⟨hagree, rfl⟩ := Mode.intersect_eq_some.mp hxy
        rw [Instruction.intersect_name] at hys
        exact ⟨x, y :: ys, hx, .cons hy hys, Mode.merge_cons.mpr ⟨hagree, h⟩⟩
      · rintro ⟨x, ys, hx, hys, h⟩
        obtain _ | @⟨_, y, _, ys, hy, hys⟩ := hys
        obtain ⟨hagree, h⟩ := Mode.merge_cons.mp h
        have hxy := Mode.intersect_eq_some.mpr ⟨hagree, rfl⟩
        refine ⟨x.meet y, ys, Instruction.mem_modes_intersect.mpr ⟨x, y, hx, hy, hxy⟩, ?_, h⟩
        rwa [Instruction.intersect_name]

theorem instructions_foldl_intersect : (rest.foldl ArchConfig.intersect first).instructions =
    first.instructions.map (rest.foldl Instruction.intersect) := by
  induction rest generalizing first with
  | nil => exact (List.map_id' first.instructions).symm
  | cons c rest ih =>
      rw [List.foldl_cons, ih, ArchConfig.intersect, List.map_map]
      rfl

/-- **A mode of the result is the merge of a chain of modes, one of each config.** -/
theorem hasMode_foldl_intersect : (rest.foldl ArchConfig.intersect first).HasMode i m ↔
    ∃ x ys, first.HasMode i x ∧ List.Forall₂ (fun c y => c.FindsMode i y) rest ys ∧
      x.merge ys = some m := by
  unfold ArchConfig.HasMode
  rw [instructions_foldl_intersect]
  constructor
  · rintro ⟨instr', hinstr', hname, hm⟩
    obtain ⟨instr, hinstr, rfl⟩ := List.mem_map.mp hinstr'
    rw [Instruction.foldl_intersect_name] at hname
    subst hname
    obtain ⟨x, ys, h⟩ := Instruction.mem_modes_foldl_intersect.mp hm
    exact ⟨x, ys, ⟨instr, hinstr, rfl, h.head⟩, h.tail, h.merge⟩
  · rintro ⟨x, ys, ⟨instr, hinstr, rfl, hx⟩, hys, h⟩
    refine ⟨_, List.mem_map_of_mem hinstr, Instruction.foldl_intersect_name, ?_⟩
    exact Instruction.mem_modes_foldl_intersect.mpr ⟨x, ys, hx, hys, h⟩

end Fold

/-! ## Configs with unique names -/

namespace ArchConfig

variable {c : ArchConfig} {i : String} {x y : Mode}

theorem FindsMode.hasMode (h : c.FindsMode i y) : c.HasMode i y := by
  obtain ⟨instr, hfind, hm⟩ := h
  exact ⟨instr, List.mem_of_find?_eq_some hfind, by simpa using List.find?_some hfind, hm⟩

theorem WellNamed.eq_of_name (hc : c.WellNamed) {a b : Instruction} (ha : a ∈ c.instructions)
    (hb : b ∈ c.instructions) (h : a.name = b.name) : a = b :=
  List.inj_on_of_nodup_map hc.instructions ha hb h

theorem WellNamed.findsMode (hc : c.WellNamed) (h : c.HasMode i y) : c.FindsMode i y := by
  obtain ⟨instr, hinstr, rfl, hm⟩ := h
  cases hfind : c.instructions.find? (fun other => other.name = instr.name) with
  | none =>
      have := List.find?_eq_none.mp hfind instr hinstr
      simp at this
  | some other =>
      have hname : other.name = instr.name := by simpa using List.find?_some hfind
      obtain rfl := hc.eq_of_name (List.mem_of_find?_eq_some hfind) hinstr hname
      exact ⟨other, hfind, hm⟩

/-- A mode is determined by its name. -/
theorem WellNamed.mode_unique (hc : c.WellNamed) (hx : c.HasMode i x) (hy : c.HasMode i y)
    (h : x.name = y.name) : x = y := by
  obtain ⟨a, ha, rfl, ms, hms, hxm⟩ := hx
  obtain ⟨b, hb, hba, ms', hms', hym⟩ := hy
  obtain rfl := hc.eq_of_name hb ha hba
  obtain rfl : ms = ms' := Option.some.inj (hms.symm.trans hms')
  exact List.inj_on_of_nodup_map (hc.modes b hb ms hms) hxm hym h

end ArchConfig

section Exact

variable {first : ArchConfig} {rest : List ArchConfig} {i : String}

/-- A mode is present in the result if all configs have it and agree. -/
theorem exists_hasMode_foldl_iff (h : ∀ c ∈ first :: rest, c.WellNamed) {mode : String} :
    (∃ m, (rest.foldl ArchConfig.intersect first).HasMode i m ∧ m.name = mode) ↔
      ∃ resultType memory, ∀ c ∈ first :: rest, ∃ m, c.HasMode i m ∧ m.name = mode ∧
        m.resultType = resultType ∧ m.memory = memory := by
  constructor
  · rintro ⟨m, hm, rfl⟩
    obtain ⟨x, ys, hx, hys, hmerge⟩ := hasMode_foldl_intersect.mp hm
    obtain ⟨hxm, hagree⟩ := Mode.agrees_of_merge hmerge
    refine ⟨x.resultType, x.memory, List.forall_mem_cons.mpr ⟨?_, fun c hc => ?_⟩⟩
    · exact ⟨x, hx, hxm.name.symm, rfl, rfl⟩
    · obtain ⟨y, hy, hcy⟩ := ListEdit.exists_of_mem_left hys hc
      have hxy := hagree y hy
      exact ⟨y, hcy.hasMode, hxy.name.trans hxm.name.symm, hxy.resultType, hxy.memory⟩
  · rintro ⟨resultType, memory, hall⟩
    obtain ⟨⟨x, hx, rfl, rfl, rfl⟩, hrest⟩ := List.forall_mem_cons.mp hall
    -- one mode of each of the other configs, all of them like `x`
    have hchain : ∀ c ∈ rest, ∃ y, c.FindsMode i y ∧ x.Agrees y := by
      intro c hc
      obtain ⟨y, hy, hname, hresult, hmemory⟩ := hrest c hc
      exact ⟨y, (h c (List.mem_cons_of_mem _ hc)).findsMode hy, hname, hresult, hmemory⟩
    obtain ⟨ys, hys⟩ := ListEdit.exists_forall₂ hchain
    have hagree : ∀ y ∈ ys, x.Agrees y := by
      intro y hy
      obtain ⟨c, -, hc⟩ := ListEdit.exists_of_mem_right hys hy
      exact hc.2
    obtain ⟨m, hm⟩ := Mode.exists_merge hagree
    refine ⟨m, hasMode_foldl_intersect.mpr ⟨x, ys, hx, hys.imp fun _ _ => And.left, hm⟩, ?_⟩
    exact (Mode.agrees_of_merge hm).1.name

/-- A mode of the result lists the types that all configs list for it. -/
theorem mem_listed_foldl_iff (h : ∀ c ∈ first :: rest, c.WellNamed) {m : Mode}
    (hm : (rest.foldl ArchConfig.intersect first).HasMode i m) {slot : Slot} {t : OperandType} :
    t ∈ m.listed slot ↔
      ∀ c ∈ first :: rest, ∃ m', c.HasMode i m' ∧ m'.name = m.name ∧ t ∈ m'.listed slot := by
  obtain ⟨x, ys, hx, hys, hmerge⟩ := hasMode_foldl_intersect.mp hm
  obtain ⟨hxm, hagree⟩ := Mode.agrees_of_merge hmerge
  rw [Mode.mem_listed_merge hmerge]
  constructor
  · rintro ⟨htx, htys⟩
    refine List.forall_mem_cons.mpr ⟨⟨x, hx, hxm.name.symm, htx⟩, fun c hc => ?_⟩
    obtain ⟨y, hy, hcy⟩ := ListEdit.exists_of_mem_left hys hc
    exact ⟨y, hcy.hasMode, (hagree y hy).name.trans hxm.name.symm, htys y hy⟩
  · intro hall
    obtain ⟨⟨x', hx', hname, ht⟩, hrest⟩ := List.forall_mem_cons.mp hall
    refine ⟨?_, fun y hy => ?_⟩
    · rwa [(h first List.mem_cons_self).mode_unique hx hx' (hxm.name.symm.trans hname.symm)]
    · obtain ⟨c, hc, hcy⟩ := ListEdit.exists_of_mem_right hys hy
      obtain ⟨y', hy', hname', ht'⟩ := hrest c hc
      have hyname : y.name = y'.name := ((hagree y hy).name.trans hxm.name.symm).trans hname'.symm
      rwa [(h c (List.mem_cons_of_mem _ hc)).mode_unique hcy.hasMode hy' hyname]

/-- What the result enables, all configs enable, for a mode they agree on. -/
theorem enables_foldl_iff (h : ∀ c ∈ first :: rest, c.WellNamed) {mode : String} {slot : Slot}
    {t : OperandType} :
    (rest.foldl ArchConfig.intersect first).Enables i mode slot t ↔
      (∃ resultType memory, ∀ c ∈ first :: rest, ∃ m, c.HasMode i m ∧ m.name = mode ∧
        m.resultType = resultType ∧ m.memory = memory) ∧
      ∀ c ∈ first :: rest, c.Enables i mode slot t := by
  rw [← exists_hasMode_foldl_iff h]
  constructor
  · rintro ⟨m, hm, rfl, ht⟩
    exact ⟨⟨m, hm, rfl⟩, (mem_listed_foldl_iff h hm).mp ht⟩
  · rintro ⟨⟨m, hm, rfl⟩, hall⟩
    exact ⟨m, hm, rfl, (mem_listed_foldl_iff h hm).mpr hall⟩

end Exact

/-- **`config_intersection` enables what all configs enable.** Of any configs with unique names: a
mode is present in the result if every config has it and they agree on its result type and on
memory; then it lists a type if every config lists it there; and what is enabled does not depend
on the order of the configs. -/
theorem configIntersection_enables {configs : List ArchConfig} (hne : configs ≠ [])
    (h : ∀ c ∈ configs, c.WellNamed) :
    ∃ result, configIntersection configs = some result ∧
      (∀ i mode, (∃ m, result.HasMode i m ∧ m.name = mode) ↔
        ∃ resultType memory, ∀ c ∈ configs, ∃ m, c.HasMode i m ∧ m.name = mode ∧
          m.resultType = resultType ∧ m.memory = memory) ∧
      (∀ i m, result.HasMode i m → ∀ slot t, t ∈ m.listed slot ↔
        ∀ c ∈ configs, ∃ m', c.HasMode i m' ∧ m'.name = m.name ∧ t ∈ m'.listed slot) ∧
      ∀ configs', configs'.Perm configs →
        ∃ result', configIntersection configs' = some result' ∧
          ∀ i mode slot t, result'.Enables i mode slot t ↔ result.Enables i mode slot t := by
  cases configs with
  | nil => exact absurd rfl hne
  | cons first rest =>
      refine ⟨_, rfl, fun i mode => exists_hasMode_foldl_iff h,
        fun i m hm slot t => mem_listed_foldl_iff h hm, fun configs' hperm => ?_⟩
      cases configs' with
      | nil => exact absurd hperm.symm.eq_nil (List.cons_ne_nil _ _)
      | cons first' rest' =>
          have hmem : ∀ c, c ∈ first' :: rest' ↔ c ∈ first :: rest := fun c => hperm.mem_iff
          refine ⟨_, rfl, fun i mode slot t => ?_⟩
          rw [enables_foldl_iff h, enables_foldl_iff fun c hc => h c ((hmem c).mp hc)]
          simp only [hmem]

/-- The mode `default` of `iadd`, with the given operand types. -/
def iaddConfig (operandTypes types : List OperandType) : ArchConfig where
  operandTypes := operandTypes
  instructions := [⟨"iadd", some [{ name := "default", operandTypes := some types }]⟩]

theorem iaddConfig_wellNamed (operandTypes types : List OperandType) :
    (iaddConfig operandTypes types).WellNamed where
  instructions := List.nodup_singleton _
  modes instr hinstr ms hms := by
    obtain rfl := List.mem_singleton.mp hinstr
    obtain rfl := Option.some.inj hms
    exact List.nodup_singleton _

theorem configIntersection_enables_iadd :
    ∃ result, configIntersection [iaddConfig [.i8] [.i8, .i16], iaddConfig [.i8] [.i8, .i32]] =
        some result ∧
      ∀ i m, result.HasMode i m → ∀ slot t, t ∈ m.listed slot ↔
        ∀ c ∈ [iaddConfig [.i8] [.i8, .i16], iaddConfig [.i8] [.i8, .i32]],
          ∃ m', c.HasMode i m' ∧ m'.name = m.name ∧ t ∈ m'.listed slot := by
  obtain ⟨result, hresult, -, hlisted, -⟩ :=
    configIntersection_enables (List.cons_ne_nil (iaddConfig [.i8] [.i8, .i16])
      [iaddConfig [.i8] [.i8, .i32]]) (by simp [iaddConfig_wellNamed])
  exact ⟨result, hresult, hlisted⟩

end Clir
