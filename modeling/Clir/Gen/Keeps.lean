import Clir.Cf.Edits
import Clir.Ir.Values

set_option autoImplicit false

/-! # Edits that keep what has been defined

`Keeps n f g` says that `g` has everything that `f` has defined: blocks, the shapes of branches,
instructions and their results, values, stack slots, and the block parameters since value number
`n`. The generator only makes such edits, with `n` the number of values of the skeleton; the older
parameters are the conditions, which it removes. Under such an edit a definition stays
available wherever it was.
-/

namespace Clir

open Graph

/-- What the printed header of a function declares: its name, its signature, and the functions it
may call. -/
def Function.declaration (f : Function) : FuncName × Signature × PrimaryMap ExtFuncData :=
  (f.name, f.signature, f.extFuncs)

/-- What `f` has defined since value `n` is still there in `g`. -/
structure Keeps (n : ℕ) (f g : Function) : Prop where
  blocks : g.layout.blocks = f.layout.blocks
  shape : ∀ b, (g.terminator b).map Terminator.shape = (f.terminator b).map Terminator.shape
  tableOf : ∀ b, g.tableOf b = f.tableOf b
  tables_len : g.dfg.jumpTables.len = f.dfg.jumpTables.len
  insts : ∀ b, f.layout.insts b ⊆ g.layout.insts b
  insts_len : f.dfg.insts.len ≤ g.dfg.insts.len
  opcode : ∀ i < f.dfg.insts.len, (g.instData i).opcode = (f.instData i).opcode
  pinned : ∀ i < f.dfg.insts.len, (f.instData i).pinned = true → g.instData i = f.instData i
  args_lt : ∀ i < f.dfg.insts.len, (∀ v ∈ (f.instData i).arguments, v < f.dfg.values.len) →
    ∀ v ∈ (g.instData i).arguments, v < g.dfg.values.len
  argTypes : ∀ i < f.dfg.insts.len, (f.instData i).opcode.isTerminator = false →
    (∀ v ∈ (f.instData i).arguments, v < f.dfg.values.len) →
      (g.instData i).arguments.map g.valueType = (f.instData i).arguments.map f.valueType
  results : ∀ i < f.dfg.insts.len, g.dfg.results i = f.dfg.results i
  values_len : f.dfg.values.len ≤ g.dfg.values.len
  types : ∀ v < f.dfg.values.len, g.valueType v = f.valueType v
  values : ∀ v < f.dfg.values.len, g.dfg.values.get v = f.dfg.values.get v
  params : ∀ (b : Block) (k : ℕ) (v : Value), n ≤ v → (f.blockParams b)[k]? = some v →
    (g.blockParams b)[k]? = some v
  slots_len : f.sizedStackSlots.len ≤ g.sizedStackSlots.len
  slots : ∀ s < f.sizedStackSlots.len, g.sizedStackSlots.get s = f.sizedStackSlots.get s

namespace Keeps

variable {n : ℕ} {f g h : Function}

theorem refl (n : ℕ) (f : Function) : Keeps n f f :=
  ⟨rfl, fun _ => rfl, fun _ => rfl, rfl, fun _ => List.Subset.refl _, le_rfl, fun _ _ => rfl,
    fun _ _ _ => rfl, fun _ _ h => h, fun _ _ _ _ => rfl, fun _ _ => rfl, le_rfl, fun _ _ => rfl,
    fun _ _ => rfl, fun _ _ _ _ h => h, le_rfl, fun _ _ => rfl⟩

theorem trans (hfg : Keeps n f g) (hgh : Keeps n g h) : Keeps n f h where
  blocks := hgh.blocks.trans hfg.blocks
  shape b := (hgh.shape b).trans (hfg.shape b)
  tableOf b := (hgh.tableOf b).trans (hfg.tableOf b)
  tables_len := hgh.tables_len.trans hfg.tables_len
  insts b := List.Subset.trans (hfg.insts b) (hgh.insts b)
  insts_len := hfg.insts_len.trans hgh.insts_len
  opcode i hi := (hgh.opcode i (hi.trans_le hfg.insts_len)).trans (hfg.opcode i hi)
  pinned i hi hp := by
    have hg := hfg.pinned i hi hp
    exact (hgh.pinned i (hi.trans_le hfg.insts_len) (hg ▸ hp)).trans hg
  args_lt i hi hlt := hgh.args_lt i (hi.trans_le hfg.insts_len) (hfg.args_lt i hi hlt)
  argTypes i hi hterm hlt := by
    have hterm' : (g.instData i).opcode.isTerminator = false := by rwa [hfg.opcode i hi]
    rw [hgh.argTypes i (hi.trans_le hfg.insts_len) hterm' (hfg.args_lt i hi hlt),
      hfg.argTypes i hi hterm hlt]
  results i hi := (hgh.results i (hi.trans_le hfg.insts_len)).trans (hfg.results i hi)
  values_len := hfg.values_len.trans hgh.values_len
  types v hv := (hgh.types v (hv.trans_le hfg.values_len)).trans (hfg.types v hv)
  values v hv := (hgh.values v (hv.trans_le hfg.values_len)).trans (hfg.values v hv)
  params b k v hn hk := hgh.params b k v hn (hfg.params b k v hn hk)
  slots_len := hfg.slots_len.trans hgh.slots_len
  slots s hs := (hgh.slots s (hs.trans_le hfg.slots_len)).trans (hfg.slots s hs)

/-! ## Edges -/

theorem edge_iff (hfg : Keeps n f g) {u v : Block} : g.Edge u v ↔ f.Edge u v := by
  have hshape := hfg.shape u
  unfold Function.Edge
  constructor
  · rintro ⟨t, ht, hv⟩
    rw [ht, Option.map_some] at hshape
    obtain ⟨t', ht', heq⟩ := Option.map_eq_some_iff.mp hshape.symm
    have htargets : t'.targets = t.targets := congrArg Prod.snd heq
    exact ⟨t', ht', htargets ▸ hv⟩
  · rintro ⟨t, ht, hv⟩
    rw [ht, Option.map_some] at hshape
    obtain ⟨t', ht', heq⟩ := Option.map_eq_some_iff.mp hshape
    have htargets : t'.targets = t.targets := congrArg Prod.snd heq
    exact ⟨t', ht', htargets ▸ hv⟩

theorem edge_eq (hfg : Keeps n f g) : g.Edge = f.Edge :=
  funext₂ fun _ _ => propext hfg.edge_iff

/-! ## Definitions -/

variable {entry b c : Block} {v : Value} {i : Inst} {before before' : List Inst}

theorem isParam (hfg : Keeps n f g) (hv : n ≤ v) (h : f.IsParam v b) : g.IsParam v b := by
  obtain ⟨hlt, k, hsource, hk⟩ := h
  refine ⟨hlt.trans_le hfg.values_len, k, ?_, hfg.params b k v hv hk⟩
  rw [hfg.values v hlt]
  exact hsource

theorem isResult (hfg : Keeps n f g) (hi : i < f.dfg.insts.len)
    (h : f.IsResult v i) : g.IsResult v i := by
  obtain ⟨hlt, k, hsource, hk⟩ := h
  refine ⟨hlt.trans_le hfg.values_len, k, ?_, ?_⟩
  · rw [hfg.values v hlt]
    exact hsource
  · rw [hfg.results i hi]
    exact hk

theorem definedIn (hfg : Keeps n f g) (hv : n ≤ v) (h : f.DefinedIn b v) : g.DefinedIn b v := by
  obtain hp | ⟨i, hi, hmem, hterm⟩ := h
  · exact .inl (hfg.isParam hv hp)
  · have hlt := f.insts_lt b i hmem
    exact .inr ⟨i, hfg.isResult hlt hi, hfg.insts b hmem, by rw [hfg.opcode i hlt, hterm]⟩

theorem usable (hfg : Keeps n f g) (hv : n ≤ v) (h : f.Usable entry b v) :
    g.Usable entry b v := by
  obtain ⟨c, hc, hdom⟩ := h
  exact ⟨c, hfg.definedIn hv hc, by rwa [hfg.edge_eq]⟩

theorem available (hfg : Keeps n f g) (hv : n ≤ v) (hsub : before ⊆ before')
    (h : f.Available entry b before v) : g.Available entry b before' v := by
  unfold Function.Available
  rw [hfg.edge_eq]
  obtain ⟨c, hp, hdom⟩ | ⟨c, i, hi, hmem, hpos⟩ := h
  · exact .inl ⟨c, hfg.isParam hv hp, hdom⟩
  · refine .inr ⟨c, i, hfg.isResult (f.insts_lt c i hmem) hi, hfg.insts c hmem, ?_⟩
    exact hpos.imp_right fun ⟨hc, hb⟩ => ⟨hc, hsub hb⟩

end Keeps

/-! ## Attached values exist -/

theorem Function.DefinedIn.lt {f : Function} {b : Block} {v : Value} (h : f.DefinedIn b v) :
    v < f.dfg.values.len := by
  obtain h | ⟨i, h, -⟩ := h
  · exact h.1
  · exact h.1

theorem Function.Available.lt {f : Function} {entry b : Block} {before : List Inst} {v : Value}
    (h : f.Available entry b before v) : v < f.dfg.values.len := by
  obtain ⟨c, h, -⟩ | ⟨c, i, h, -⟩ := h
  · exact h.1
  · exact h.1

end Clir
