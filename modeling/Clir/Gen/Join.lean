import Clir.Gen.Fill

set_option autoImplicit false

/-! # The second pass

A block with two or more predecessors gets a parameter for each type it has used, each predecessor
passes it arguments of these types, and operands of its instructions are exchanged for the new
parameters. `Joined` is what holds between two visits: every block call passes an argument for
each parameter of its block, recorded with the type of the parameter. The pass cannot panic, since
a type that a block has used comes from a strict dominator, which dominates the predecessors too.
-/

namespace Clir

open Cmd Cursor Graph Relation

/-! ## Choices -/

section Choices

variable {δ : Type} {I : Halt → State δ → Prop} {s : State δ}

theorem ensures_chooseMultiple {σ α : Type} {I : Halt → σ → Prop} {s : σ} (hI : I .starved s)
    (n : ℕ) (l : List α) :
    Ensures I (chooseMultiple n l) s fun r s' =>
      s' = s ∧ ∃ rest, (r ++ rest).Perm l ∧ r.length = min n l.length := by
  induction n generalizing l with
  | zero => exact Ensures.pure ⟨rfl, l, .refl _, (Nat.zero_min _).symm⟩
  | succ n ih =>
      unfold chooseMultiple
      refine Ensures.ite (fun h => ?_) fun h => ?_
      · rw [List.isEmpty_iff.mp h]
        exact Ensures.pure ⟨rfl, [], .refl _, (Nat.min_zero _).symm⟩
      · have hlen : 0 < l.length := List.length_pos_of_ne_nil fun e => h (List.isEmpty_iff.mpr e)
        refine Ensures.pick (P := fun i => i < l.length) (Ensures.genRange hI
          (fun hle => absurd hlen (Nat.not_lt.mpr hle)) fun i _ hi => ⟨rfl, hi⟩) fun i hi => ?_
        refine Ensures.pick (P := fun a => l[i] = a) (Ensures.unwrap
          (fun hnone => absurd hi (Nat.not_lt.mpr (List.getElem?_eq_none_iff.mp hnone)))
          fun a ha => ⟨rfl, (List.getElem?_eq_some_iff.mp ha).2⟩) fun a ha => ?_
        refine Ensures.pick (ih (l.eraseIdx i)) fun r ⟨rest, hperm, hr⟩ => ?_
        refine Ensures.pure ⟨rfl, rest, ?_, ?_⟩
        · refine (hperm.cons a).trans ?_
          rw [← ha]
          exact List.getElem_cons_eraseIdx_perm hi
        · rw [List.length_cons, hr, List.length_eraseIdx_of_lt hi]
          omega

/-- Choosing as many as there are is choosing an order. -/
theorem ensures_chooseAll {α : Type} (hI : I .starved s) (l : List α) :
    Ensures I (chooseMultiple l.length l) s fun r s' => s' = s ∧ r.Perm l := by
  refine (ensures_chooseMultiple hI l.length l).mono ?_
  rintro r s' ⟨rfl, rest, hperm, hr⟩
  have hlen := hperm.length_eq
  rw [List.length_append, hr, Nat.min_self] at hlen
  obtain rfl : rest = [] := List.eq_nil_of_length_eq_zero (by omega)
  rw [List.append_nil] at hperm
  exact ⟨rfl, hperm⟩

/-- An operand stays or becomes a candidate of the same type. -/
theorem ensures_rewriteArg (hI : I .starved s) {limit : ℕ} {typeOf T : Value → ClifType}
    {t : ClifType} (htypeOf : ∀ a, T a = t → typeOf a = t) (cands : List (ClifType × Value))
    (hcands : ∀ p ∈ cands, T p.2 = p.1) {arg : Value} (harg : T arg = t) :
    Ensures I (rewriteArg limit typeOf cands arg) s fun a s' =>
      s' = s ∧ T a = t ∧ (a = arg ∨ ∃ p ∈ cands, p.2 = a) := by
  -- the candidate that is taken is offered the rest of the list, so `arg` varies
  induction cands generalizing arg with
  | nil => exact Ensures.pure ⟨rfl, harg, .inl rfl⟩
  | cons p cands ih =>
      obtain ⟨ty, cand⟩ := p
      have hrest : ∀ p ∈ cands, T p.2 = p.1 := fun p hp => hcands p (List.mem_cons_of_mem _ hp)
      have hskip : Ensures I (rewriteArg limit typeOf cands arg) s fun a s' =>
          s' = s ∧ T a = t ∧ (a = arg ∨ ∃ p ∈ (ty, cand) :: cands, p.2 = a) := by
        refine (ih hrest harg).mono ?_
        rintro a s' ⟨hs, ha, hor⟩
        exact ⟨hs, ha, hor.imp_right fun ⟨p, hp, hpa⟩ => ⟨p, List.mem_cons_of_mem _ hp, hpa⟩⟩
      unfold rewriteArg
      refine Ensures.ite (fun hty => ?_) fun _ => hskip
      refine Ensures.pick (P := fun _ => True) (Ensures.genRange hI (fun hle => by omega)
        fun _ _ _ => ⟨rfl, trivial⟩) fun n _ => ?_
      refine Ensures.ite (fun _ => ?_) fun _ => hskip
      have hcand : T cand = t := by
        rw [hcands (ty, cand) List.mem_cons_self, hty, htypeOf arg harg]
      refine (ih hrest hcand).mono ?_
      rintro a s' ⟨hs, ha, hor⟩
      refine ⟨hs, ha, .inr ?_⟩
      rcases hor with rfl | ⟨p, hp, hpa⟩
      · exact ⟨_, List.mem_cons_self, rfl⟩
      · exact ⟨p, List.mem_cons_of_mem _ hp, hpa⟩

/-- The next instruction, which is one of the same block. -/
theorem ensures_nextInst {b : Block} {i : Inst} (hpos : s.pos = .at_ i)
    (hi : i ∈ s.func.layout.insts b) :
    Ensures I nextInst s fun o s' => s'.func = s.func ∧ s'.locals = s.locals ∧
      o = ListEdit.next i (s.func.layout.insts b) ∧
      ∀ j, o = some j → j ∈ s.func.layout.insts b ∧ s'.pos = .at_ j := by
  unfold nextInst
  refine ensures_bind_func ?_
  refine Ensures.pick (P := fun p => p = .at_ i) (ensures_position ⟨rfl, hpos⟩) ?_
  rintro _ rfl
  simp only [Layout.instBlock_eq_some hi]
  cases hnext : ListEdit.next i (s.func.layout.insts b) with
  | none =>
      refine ensures_bind_setPosition ?_
      exact Ensures.pure ⟨rfl, rfl, rfl, by simp⟩
  | some j =>
      refine ensures_bind_setPosition ?_
      refine Ensures.pure ⟨rfl, rfl, rfl, fun k hk => ?_⟩
      obtain rfl := Option.some.inj hk
      exact ⟨ListEdit.mem_of_next hnext, rfl⟩

end Choices

/-! ## The state of the second pass -/

/-- The call passes an argument for each parameter of its block, recorded with the type of the
parameter. -/
def Passes (f : Function) (pools : ValueMap) (c : BlockCall) : Prop :=
  List.Forall₂ (fun a p => ∃ d tvs, pools.lookup d = some tvs ∧ ⟨a, f.valueType p⟩ ∈ tvs) c.args
    (f.blockParams c.block)

/-- What holds once every block is filled. -/
structure Ready (S : Setting) (f : Function) (L : Locals) : Prop where
  valid : Valid S (fun _ => True) f L.blockDefValues
  ended : ∀ c, ∀ i ∈ f.layout.insts c, (f.instData i).opcode.isTerminator = true →
    i ∈ S.start.layout.insts c
  nonempty : ∀ c ∈ S.start.layout.blocks, f.layout.insts c ≠ []
  uncalled : Uncalled S f
  seeded : S.Seeded f (f.layout.insts S.entry)
  defs : ∀ c ∈ S.start.layout.blocks, (L.blockDefValues.lookup c).isSome
  refs : ∀ c ∈ S.start.layout.blocks, ∃ tvs, L.blockRefValues.lookup c = some tvs ∧
    (c ≠ S.entry → ∀ tv ∈ tvs, S.Supplied L.blockDefValues c tv.ty)

/-- The blocks `joined` have been visited. Calls from one block to another that are `pending` have
not been given arguments yet. -/
structure Joined (S : Setting) (joined : List Block) (pending : Block → Block → Prop)
    (f : Function) (L : Locals) : Prop extends Ready S f L where
  passes : ∀ b t, f.branch b = some t → ∀ c ∈ t.targets, ¬ pending b c.block →
    Passes f L.blockDefValues c
  fresh : ∀ c ∈ S.start.layout.blocks, c ≠ S.entry → c ∉ joined → f.blockParams c = []
  joins : ∀ c ∈ S.start.layout.blocks, c ≠ S.entry → f.blockParams c ≠ [] →
    2 ≤ (predBlocks S.start c).length
  nodup : ∀ c ∈ S.start.layout.blocks, c ≠ S.entry →
    ((f.blockParams c).map f.valueType).Nodup
  made : ∀ c ∈ S.start.layout.blocks, c ≠ S.entry → ∀ p ∈ f.blockParams c, p < f.dfg.values.len

/-- The second pass only stops when the draws run out. -/
def Starved (S : Setting) (e : Halt) (s : State Locals) : Prop := e = .starved ∧ S.Published s

section States

variable {S : Setting} {done joined : List Block} {pending pending' : Block → Block → Prop}
  {f g : Function} {L L' : Locals} {s : State Locals} {b : Block}

theorem Ready.recorded (h : Ready S s.func s.locals) : S.Published s :=
  ⟨⟨_, h.valid⟩, h.defs S.entry Setting.entry_mem⟩

theorem Ready.starved (h : Ready S s.func s.locals) : Starved S .starved s := ⟨rfl, h.recorded⟩

theorem Starved.stop {e : Halt} (h : Starved S e s) : Stop S e s := h.2.stop fun _ => h.1

/-- The blocks that a branch calls are in the layout, and none is the entry block. -/
theorem Valid.call_block {settled : Block → Prop} {pools : ValueMap}
    (h : Valid S settled f pools) {t : Terminator BlockCall} {c : BlockCall}
    (ht : f.branch b = some t) (hc : c ∈ t.targets) :
    S.start.Edge b c.block ∧ c.block ∈ S.start.layout.blocks ∧ c.block ≠ S.entry := by
  have he : S.start.Edge b c.block := by
    rw [← h.frame.edge_iff]
    refine ⟨t.map BlockCall.block, by rw [Function.terminator, ht]; rfl, ?_⟩
    rw [Terminator.targets_map]
    exact List.mem_map_of_mem hc
  refine ⟨he, (S.skeleton.flow.edge_mem _ _ he).2, fun heq => ?_⟩
  exact S.skeleton.flow.no_pred b (heq ▸ he)

/-- A filled function is ready for the second pass. -/
theorem Filled.unjoined (h : Filled S done s) (hall : ∀ b ∈ S.start.layout.blocks, b ∈ done) :
    Joined S [] (fun _ _ => False) s.func s.locals := by
  have hf := h.filling S.entry
  have hparams : ∀ c ∈ S.start.layout.blocks, c ≠ S.entry → s.func.blockParams c = [] :=
    fun c hc hne => hf.params_done c (hall c hc) hne
  refine ⟨⟨?_, hf.ended, fun c hc => hf.nonempty c (hall c hc), hf.uncalled, ?_,
    fun c hc => ?_, fun c hc => h.refs c (hall c hc)⟩, ?_, fun c hc hne _ => hparams c hc hne,
    fun c hc hne hp => absurd (hparams c hc hne) hp, fun c hc hne => ?_, fun c hc hne p hp => ?_⟩
  · refine h.valid.edit (Keeps.refl _ _) (fun _ => rfl) fun c before i after hsplit v hv => .inl ?_
    have hi : i ∈ s.func.layout.insts c := by rw [hsplit]; simp
    refine hv.imp_right fun ⟨hmem, _⟩ => ⟨hmem, fun _ => hall c ?_⟩
    rw [← h.valid.frame.blocks]
    exact Layout.mem_blocks_of_mem_insts hi
  · exact h.seeded (List.ne_nil_of_mem (hall S.entry Setting.entry_mem))
  · exact (h.defs c).mpr (hall c hc)
  · intro b t ht c hc _
    obtain ⟨-, hblock, hne⟩ := h.valid.call_block ht hc
    rw [Passes, hparams c.block hblock hne, hf.noArgs b t ht c hc]
    exact .nil
  · rw [hparams c hc hne]
    exact List.nodup_nil
  · rw [hparams c hc hne] at hp
    exact absurd hp List.not_mem_nil

/-- Exchanged operands change no block call. -/
theorem Joined.withOperands {i : Inst} {vs : List Value} (h : Joined S joined pending f L)
    (hi : i ∈ f.layout.insts b) (hex : f.Exchange i vs)
    (hvs : ∀ before after, f.layout.insts b = before ++ i :: after → ∀ v ∈ vs,
      v ∈ (f.instData i).arguments ∨ S.base ≤ v ∧ f.Available S.entry b before v) :
    Joined S joined pending (f.withOperands i vs) L where
  valid := h.valid.withOperands hi hex (fun _ _ => .inl trivial) fun before after hsplit v hv =>
    (hvs before after hsplit v hv).imp_left fun hmem => ⟨hmem, fun _ => trivial⟩
  ended c j hj ht := h.ended c j hj (by rwa [Function.withOperands_opcode] at ht)
  nonempty := h.nonempty
  uncalled := h.uncalled.edited rfl Function.withOperands_opcode rfl
  seeded := h.seeded.keeps (Function.keeps_withOperands hex) rfl (List.Subset.refl _)
  defs := h.defs
  refs := h.refs
  passes c t ht := by
    have hshape := Function.callsKept_withOperands f i vs c
    rw [ht, Option.map_some] at hshape
    obtain ⟨t', ht', heq⟩ := Option.map_eq_some_iff.mp hshape.symm
    have htargets : t'.targets = t.targets := congrArg Prod.snd heq
    exact htargets ▸ h.passes c t' ht'
  fresh := h.fresh
  joins := h.joins
  nodup := h.nodup
  made := h.made

/-! ## New parameters -/

/-- The parameters `vs` of the given types have been added to block `v`, and recorded. -/
structure Extended (S : Setting) (v : Block) (types : List ClifType) (vs : List Value)
    (s s' : State Locals) : Prop where
  code : SameCode s.func s'.func
  keeps : Keeps S.base s.func s'.func
  slots : s'.func.sizedStackSlots = s.func.sizedStackSlots
  declaration : s'.func.declaration = s.func.declaration
  params : s'.func.blockParams v = s.func.blockParams v ++ vs
  other : ∀ c ≠ v, s'.func.blockParams c = s.func.blockParams c
  isParam : ∀ u ∈ vs, s'.func.IsParam u v
  types : vs.map s'.func.valueType = types
  new : ∀ u ∈ vs, s.func.dfg.values.len ≤ u
  refs : s'.locals.blockRefValues = s.locals.blockRefValues
  pools : ∀ c ≠ v, s'.locals.blockDefValues.lookup c = s.locals.blockDefValues.lookup c
  pool : ∃ old tvs, s.locals.blockDefValues.lookup v = some old ∧
    s'.locals.blockDefValues.lookup v = some tvs ∧ old ⊆ tvs ∧
      ∀ tv ∈ tvs, tv ∈ old ∨ tv.value ∈ vs ∧ s'.func.valueType tv.value = tv.ty

end States

section Extend

variable {S : Setting} {v : Block} {types types' : List ClifType} {vs vs' : List Value}
  {s s₁ s₂ : State Locals}

theorem Extended.refl (hv : (s.locals.blockDefValues.lookup v).isSome) :
    Extended S v [] [] s s := by
  obtain ⟨old, hold⟩ := Option.isSome_iff_exists.mp hv
  exact ⟨⟨rfl, rfl, rfl, rfl⟩, Keeps.refl _ _, rfl, rfl, (List.append_nil _).symm, fun _ _ => rfl,
    by simp, rfl, by simp, rfl, fun _ _ => rfl, old, old, hold, hold, List.Subset.refl _,
    fun _ => .inl⟩

theorem Extended.append (h₁ : Extended S v types vs s s₁) (h₂ : Extended S v types' vs' s₁ s₂)
    (hbase : S.base ≤ s.func.dfg.values.len) :
    Extended S v (types ++ types') (vs ++ vs') s s₂ where
  code := ⟨h₂.code.layout.trans h₁.code.layout, h₂.code.insts.trans h₁.code.insts,
    h₂.code.results.trans h₁.code.results, h₂.code.jumpTables.trans h₁.code.jumpTables⟩
  keeps := h₁.keeps.trans h₂.keeps
  slots := h₂.slots.trans h₁.slots
  declaration := h₂.declaration.trans h₁.declaration
  params := by rw [h₂.params, h₁.params, List.append_assoc]
  other c hc := (h₂.other c hc).trans (h₁.other c hc)
  isParam u hu := by
    rcases List.mem_append.mp hu with hu | hu
    · exact h₂.keeps.isParam (hbase.trans (h₁.new u hu)) (h₁.isParam u hu)
    · exact h₂.isParam u hu
  types := by
    rw [List.map_append, h₂.types, ← h₁.types]
    congr 1
    exact List.map_congr_left fun u hu => h₂.keeps.types u (h₁.isParam u hu).1
  new u hu := by
    rcases List.mem_append.mp hu with hu | hu
    · exact h₁.new u hu
    · exact h₁.keeps.values_len.trans (h₂.new u hu)
  refs := h₂.refs.trans h₁.refs
  pools c hc := (h₂.pools c hc).trans (h₁.pools c hc)
  pool := by
    obtain ⟨old, tvs, hold, htvs, hsub, hmem⟩ := h₁.pool
    obtain ⟨tvs', tvs'', htvs', htvs'', hsub', hmem'⟩ := h₂.pool
    obtain rfl : tvs = tvs' := Option.some.inj (htvs.symm.trans htvs')
    refine ⟨old, tvs'', hold, htvs'', List.Subset.trans hsub hsub', fun tv htv => ?_⟩
    rcases hmem' tv htv with htv | ⟨hvs, hty⟩
    · rcases hmem tv htv with htv | ⟨hvs, hty⟩
      · exact .inl htv
      · refine .inr ⟨List.mem_append_left _ hvs, ?_⟩
        rw [h₂.keeps.types _ (h₁.isParam _ hvs).1, hty]
    · exact .inr ⟨List.mem_append_right _ hvs, hty⟩

theorem Extended.grows (h : Extended S v types vs s s₁) :
    Grows s.locals.blockDefValues s₁.locals.blockDefValues := by
  intro c old hc
  by_cases hcv : c = v
  · subst hcv
    obtain ⟨old', tvs, hold, htvs, hsub, -⟩ := h.pool
    obtain rfl : old' = old := Option.some.inj (hold.symm.trans hc)
    exact ⟨tvs, htvs, hsub⟩
  · exact ⟨old, by rw [h.pools c hcv, hc], List.Subset.refl _⟩

theorem ensures_addJoinParam {I : Halt → State Locals → Prop} (t : ClifType)
    (hv : (s.locals.blockDefValues.lookup v).isSome) :
    Ensures I (addJoinParam v t) s fun u s' => Extended S v [t] [u] s s' := by
  obtain ⟨old, hold⟩ := Option.isSome_iff_exists.mp hv
  unfold addJoinParam appendBlockParam
  simp only [bind_assoc]
  refine ensures_bind_func ?_
  refine Ensures.bind (ensures_setFunc
    (Q := fun _ s' => s' = { s with func := s.func.appendBlockParam v t }) rfl) ?_
  rintro - _ rfl
  simp only [pure_bind]
  refine ensures_bind_locals ?_
  rw [hold]
  refine Ensures.pick (P := fun tvs => tvs = old) (Ensures.pure ⟨rfl, rfl⟩) ?_
  rintro _ rfl
  refine ensures_bind_setLocals ?_
  refine Ensures.pure ⟨s.func.sameCode_appendBlockParam v t,
    s.func.keeps_appendBlockParam S.base v t, rfl, rfl,
    s.func.appendBlockParam_blockParams_self v t,
    fun c hc => s.func.appendBlockParam_blockParams_of_ne t hc, fun u hu => ?_, ?_, fun u hu => ?_,
    rfl, fun c hc => AList.lookup_insert_ne hc, _, _, hold, AList.lookup_insert _,
    fun tv htv => List.mem_insert_of_mem htv, fun tv htv => ?_⟩
  · rw [List.mem_singleton.mp hu]
    exact s.func.appendBlockParam_isParam v t
  · exact congrArg (fun d : ValueData => [d.ty]) (s.func.appendBlockParam_value_new v t)
  · rw [List.mem_singleton.mp hu]
  · rcases List.mem_insert_iff.mp htv with rfl | htv
    · exact .inr ⟨List.mem_singleton_self _,
        congrArg ValueData.ty (s.func.appendBlockParam_value_new v t)⟩
    · exact .inl htv

/-- The loop that adds the parameters. -/
theorem ensures_addJoinParams {I : Halt → State Locals → Prop} (types : List ClifType)
    (hv : (s.locals.blockDefValues.lookup v).isSome) (hbase : S.base ≤ s.func.dfg.values.len) :
    Ensures I (types.mapM (addJoinParam v)) s fun vs s' => Extended S v types vs s s' := by
  induction types generalizing s with
  | nil => exact Ensures.pure (.refl hv)
  | cons t types ih =>
      rw [List.mapM_cons]
      refine Ensures.bind (ensures_addJoinParam (S := S) t hv) fun u s₁ h₁ => ?_
      have hv₁ : (s₁.locals.blockDefValues.lookup v).isSome := by
        obtain ⟨-, tvs, -, htvs, -⟩ := h₁.pool
        rw [htvs]
        rfl
      refine Ensures.bind (ih hv₁ (hbase.trans h₁.keeps.values_len)) fun vs s₂ h₂ => ?_
      exact Ensures.pure (h₁.append h₂ hbase)

/-- **New parameters.** The calls to the block are pending then. -/
theorem Joined.extended {joined : List Block}
    (h : Joined S joined (fun _ _ => False) s.func s.locals) (hx : Extended S v types vs s s₁)
    (hv : v ∈ S.start.layout.blocks) (hne : v ≠ S.entry) (hnew : v ∉ joined)
    (hnodup : types.Nodup) (hpreds : 2 ≤ (predBlocks S.start v).length) :
    Joined S (v :: joined) (fun b x => x = v ∧ b ∈ predBlocks S.start v) s₁.func s₁.locals := by
  have hparams : s₁.func.blockParams v = vs := by
    rw [hx.params, h.fresh v hv hne hnew, List.nil_append]
  have htypes : ∀ c ∈ S.start.layout.blocks, c ≠ S.entry → c ≠ v →
      (s₁.func.blockParams c).map s₁.func.valueType =
        (s.func.blockParams c).map s.func.valueType := by
    intro c hc hce hcv
    rw [hx.other c hcv]
    exact List.map_congr_left fun p hp => hx.keeps.types p (h.made c hc hce p hp)
  have hgrows := hx.grows
  refine ⟨⟨?_, ?_, ?_, ?_, ?_, ?_, ?_⟩, ?_, ?_, ?_, ?_, ?_⟩
  -- the pool of `v` has the new parameters besides its old values; no other pool changed
  · refine (h.valid.sameCode hx.keeps hx.code).record (fun c tvs hc tv htv => ?_)
      fun tvs htvs => ?_
    · by_cases hcv : c = v
      · subst hcv
        obtain ⟨old, tvs', hold, htvs', -, hmem⟩ := hx.pool
        obtain rfl : tvs' = tvs := Option.some.inj (htvs'.symm.trans hc)
        rcases hmem tv htv with htv | ⟨hvs, hty⟩
        · exact h.valid.keepsRecorded hx.keeps (h.valid.recorded c old hold tv htv)
        · exact ⟨h.valid.frame.values_len.trans (hx.new _ hvs), .inl (hx.isParam _ hvs),
            fun _ => .inl hty⟩
      · rw [hx.pools c hcv] at hc
        exact h.valid.keepsRecorded hx.keeps (h.valid.recorded c tvs hc tv htv)
    · rw [hx.pools S.entry hne.symm] at htvs
      exact h.valid.stocked tvs htvs
  · intro c i hi ht
    rw [hx.code.layout] at hi
    rw [hx.code.instData] at ht
    exact h.ended c i hi ht
  · intro c hc
    rw [hx.code.layout]
    exact h.nonempty c hc
  · exact h.uncalled.edited hx.code.layout (fun i => by rw [hx.code.instData]) hx.declaration
  · rw [hx.code.layout]
    exact h.seeded.keeps hx.keeps hx.slots (List.Subset.refl _)
  · intro c hc
    obtain ⟨tvs, htvs⟩ := Option.isSome_iff_exists.mp (h.defs c hc)
    obtain ⟨tvs', htvs', -⟩ := hgrows c tvs htvs
    rw [htvs']
    rfl
  · intro c hc
    obtain ⟨tvs, htvs, hsupplied⟩ := h.refs c hc
    exact ⟨tvs, by rw [hx.refs, htvs], fun hce tv htv => (hsupplied hce tv htv).grows hgrows⟩
  -- a call that is not pending leads to another block, whose parameters are the old ones
  · intro b t ht c hc hpending
    rw [hx.code.branch] at ht
    obtain ⟨he, hblock, hce⟩ := h.valid.call_block ht hc
    have hcv : c.block ≠ v := fun heq => hpending ⟨heq, mem_predBlocks.mpr (heq ▸ he)⟩
    have hold := h.passes b t ht c hc id
    unfold Passes at hold ⊢
    rw [hx.other c.block hcv]
    refine ListEdit.imp_of_mem hold fun a _ p hp ⟨d, tvs, htvs, hmem⟩ => ?_
    obtain ⟨tvs', htvs', hsub⟩ := hgrows d tvs htvs
    refine ⟨d, tvs', htvs', hsub ?_⟩
    rwa [hx.keeps.types p (h.made c.block hblock hce p hp)]
  -- which blocks have parameters, and that these are new and of different types
  · intro c hc hce hcj
    obtain ⟨hcv, hcj⟩ := not_or.mp (mt List.mem_cons.mpr hcj)
    rw [hx.other c hcv, h.fresh c hc hce hcj]
  · intro c hc hce hp
    by_cases hcv : c = v
    · rwa [hcv]
    · exact h.joins c hc hce (hx.other c hcv ▸ hp)
  · intro c hc hce
    by_cases hcv : c = v
    · rw [hcv, hparams, hx.types]
      exact hnodup
    · rw [htypes c hc hce hcv]
      exact h.nodup c hc hce
  · intro c hc hce p hp
    by_cases hcv : c = v
    · rw [hcv, hparams] at hp
      exact (hx.isParam p hp).1
    · rw [hx.other c hcv] at hp
      exact (h.made c hc hce p hp).trans_le hx.keeps.values_len

end Extend

/-! ## Passing arguments -/

/-- A call before and after arguments for block `v` were passed from block `p`. -/
structure Handed (S : Setting) (pools : ValueMap) (p v : Block) (types : List ClifType)
    (c c' : BlockCall) : Prop where
  block : c'.block = c.block
  other : c.block ≠ v → c' = c
  args : c.block = v → List.Forall₂ (fun t a => a ∈ S.pool pools p t) types c'.args

section Pass

variable {S : Setting} {p v : Block} {types : List ClifType} {joined rest : List Block}
  {f g : Function} {L : Locals} {s : State Locals} {pools : ValueMap}
  {I : Halt → State Locals → Prop}

theorem Handed.keep {c : BlockCall} (hc : c.block ≠ v) : Handed S pools p v types c c :=
  ⟨rfl, fun _ => rfl, fun heq => absurd heq hc⟩

theorem Handed.pass {c : BlockCall} {as : List Value} (hc : c.block = v)
    (has : List.Forall₂ (fun t a => a ∈ S.pool pools p t) types as) :
    Handed S pools p v types c ⟨c.block, as⟩ :=
  ⟨rfl, fun hne => absurd hc hne, fun _ => has⟩

/-- The arguments that were passed have the types of the parameters. -/
theorem Handed.passes {c c' : BlockCall} (h : Handed S pools p v types c c') (hc : c.block = v)
    (hparams : (f.blockParams v).map f.valueType = types) : Passes f pools c' := by
  have hargs := h.args hc
  rw [← hparams, List.forall₂_map_left_iff] at hargs
  rw [Passes, h.block, hc]
  refine hargs.flip.imp fun a u hmem => ?_
  obtain ⟨d, -, tvs, htvs, htv⟩ := mem_getDominatorValuesWithType.mp hmem
  exact ⟨d, tvs, htvs, htv⟩

theorem Joined.passed (h : Joined S joined (fun b x => x = v ∧ b ∈ p :: rest) f L)
    (hed : CallsEdited f g p) {t t' : Terminator BlockCall} (ht : f.branch p = some t)
    (ht' : g.branch p = some t')
    (hhand : List.Forall₂ (Handed S L.blockDefValues p v types) t.targets t'.targets)
    (hparams : (f.blockParams v).map f.valueType = types) :
    Joined S joined (fun b x => x = v ∧ b ∈ rest) g L := by
  have hkeeps : Keeps S.base f g := hed.keeps
  have hblockParams : ∀ c, g.blockParams c = f.blockParams c := fun c => by
    rw [Function.blockParams, hed.params]
    rfl
  have hvalueType : g.valueType = f.valueType := funext fun u => by
    rw [Function.valueType, hed.values]
    rfl
  have hpasses : ∀ c, Passes g L.blockDefValues c ↔ Passes f L.blockDefValues c := fun c => by
    rw [Passes, Passes, hblockParams, hvalueType]
  refine ⟨⟨?_, ?_, ?_, ?_, ?_, h.defs, h.refs⟩, ?_, ?_, ?_, ?_, ?_⟩
  -- an argument was there before, or it comes from the pool of a dominator of `p`
  · refine h.valid.callsEdited hed fun t'' ht'' c' hc' a ha => ?_
    obtain rfl : t' = t'' := Option.some.inj (ht'.symm.trans ht'')
    obtain ⟨c, hc, hcc⟩ := ListEdit.exists_of_mem_right hhand hc'
    by_cases hcv : c.block = v
    · obtain ⟨ty, -, hmem⟩ := ListEdit.exists_of_mem_right (hcc.args hcv) ha
      have huse := h.valid.mayUse hmem
      exact .inr ⟨huse.new, huse.usable⟩
    · exact .inl ⟨t, ht, c, hc, hcc.other hcv ▸ ha⟩
  · intro c i hi hterm
    rw [hed.layout] at hi
    rw [hed.opcode] at hterm
    exact h.ended c i hi hterm
  · intro c hc
    rw [hed.layout]
    exact h.nonempty c hc
  · exact h.uncalled.edited hed.layout hed.opcode hed.declaration
  · rw [hed.layout]
    exact h.seeded.keeps hkeeps hed.slots (List.Subset.refl _)
  -- the calls of `p` are no longer pending, and those of the other blocks stay as they were
  · intro b t'' ht'' c' hc' hpending
    rw [hpasses]
    by_cases hb : b = p
    · subst hb
      obtain rfl : t' = t'' := Option.some.inj (ht'.symm.trans ht'')
      obtain ⟨c, hc, hcc⟩ := ListEdit.exists_of_mem_right hhand hc'
      by_cases hcv : c.block = v
      · exact hcc.passes hcv hparams
      · rw [hcc.other hcv]
        exact h.passes b t ht c hc fun hp => hcv hp.1
    · rw [hed.other b hb] at ht''
      refine h.passes b t'' ht'' c' hc' fun hp => hpending ⟨hp.1, ?_⟩
      exact (List.mem_cons.mp hp.2).resolve_left hb
  · intro c hc hce hcj
    rw [hblockParams, h.fresh c hc hce hcj]
  · intro c hc hce hp
    exact h.joins c hc hce (hblockParams c ▸ hp)
  · intro c hc hce
    rw [hblockParams, hvalueType]
    exact h.nodup c hc hce
  · intro c hc hce u hu
    rw [hblockParams] at hu
    rw [hed.values]
    exact h.made c hc hce u hu

/-- One value of each type, from the pool of a block. -/
theorem ensures_selectArgs (hI : I .starved s)
    (hnil : ∀ t ∈ types, S.pool s.locals.blockDefValues p t = [] → ∀ m, I (.panic m) s) :
    Ensures I (selectArgs S.dominators p types) s fun as s' =>
      s' = s ∧ List.Forall₂ (fun t a => a ∈ S.pool s.locals.blockDefValues p t) types as := by
  refine Ensures.mapM (P := fun s' => s' = s) rfl ?_
  rintro t ht s rfl
  unfold valuesFor
  simp only [bind_assoc, pure_bind]
  refine ensures_bind_locals ?_
  exact ensures_selectValue _ hI (hnil t ht)

theorem ensures_passToEntry {args : M Locals (List Value)}
    (hargs : Ensures I args s fun as s' =>
      s' = s ∧ List.Forall₂ (fun t a => a ∈ S.pool pools p t) types as)
    {sofar : List Value} {c : BlockCall} (hsofar : c.block = v → sofar = []) :
    Ensures I (passToEntry v args sofar c) s fun r s' =>
      s' = s ∧ Handed S pools p v types c r.1 ∧ (c.block ≠ v → r.2 = sofar) := by
  unfold passToEntry
  refine Ensures.ite (fun hc => ?_) fun hc => ?_
  · refine Ensures.pick hargs fun as has => ?_
    rw [hsofar hc]
    exact Ensures.pure ⟨rfl, .pass hc has, fun hne => absurd hc hne⟩
  · exact Ensures.pure ⟨rfl, .keep hc, fun _ => rfl⟩

/-- One entry of a jump table at most leads to the block, so no arguments are passed twice. -/
theorem ensures_passToEntries {args : M Locals (List Value)}
    (hargs : Ensures I args s fun as s' =>
      s' = s ∧ List.Forall₂ (fun t a => a ∈ S.pool pools p t) types as)
    {sofar : List Value} {cs : List BlockCall} (hnodup : (cs.map BlockCall.block).Nodup)
    (hsofar : v ∈ cs.map BlockCall.block → sofar = []) :
    Ensures I (passToEntries v args sofar cs) s fun cs' s' =>
      s' = s ∧ List.Forall₂ (Handed S pools p v types) cs cs' := by
  induction cs generalizing sofar with
  | nil => exact Ensures.pure ⟨rfl, .nil⟩
  | cons c cs ih =>
      obtain ⟨hc, hcs⟩ := List.nodup_cons.mp hnodup
      unfold passToEntries
      refine Ensures.pick (ensures_passToEntry hargs fun heq =>
        hsofar (heq ▸ List.mem_cons_self)) fun r ⟨hhand, hr⟩ => ?_
      refine Ensures.pick (ih hcs fun hv => ?_) fun cs' hcs' => Ensures.pure ⟨rfl, .cons hhand hcs'⟩
      rw [hr fun heq => hc (heq ▸ hv)]
      exact hsofar (List.mem_cons_of_mem _ hv)

/-- The destinations of a branch are different blocks. -/
theorem Ready.targets_nodup (h : Ready S f L) {b : Block} {t : Terminator BlockCall}
    (ht : f.branch b = some t) : (t.targets.map BlockCall.block).Nodup := by
  have hshape := h.valid.frame.shape b
  rw [Function.terminator, ht, Option.map_some, Option.map_some] at hshape
  obtain ⟨t₀, ht₀, heq⟩ := Option.map_eq_some_iff.mp hshape.symm
  have htargets : t₀.targets = (t.map BlockCall.block).targets := congrArg Prod.snd heq
  rw [Terminator.targets_map] at htargets
  exact htargets ▸ S.skeleton.nodup b t₀ ht₀

theorem Ready.tablesApart (h : Ready S f L) : f.TablesApart := by
  intro b c k hb hc
  rw [h.valid.frame.tableOf] at hb hc
  exact S.skeleton.apart b c k hb hc

/-- The arguments that one predecessor passes. The values and the parameters stay. -/
structure Handing (S : Setting) (joined : List Block) (pending : Block → Block → Prop)
    (s s' : State Locals) : Prop where
  joined : Joined S joined pending s'.func s'.locals
  locals : s'.locals = s.locals
  values : s'.func.dfg.values = s.func.dfg.values
  params : s'.func.dfg.blocks = s.func.dfg.blocks

section HandingLemmas

variable {pending pending' : Block → Block → Prop} {s₁ s₂ : State Locals}

theorem Handing.blockParams (h : Handing S joined pending s s₁) (c : Block) :
    s₁.func.blockParams c = s.func.blockParams c := by
  rw [Function.blockParams, h.params]
  rfl

theorem Handing.valueType (h : Handing S joined pending s s₁) :
    s₁.func.valueType = s.func.valueType := by
  funext u
  rw [Function.valueType, h.values]
  rfl

theorem Handing.trans (h₁ : Handing S joined pending s s₁) (h₂ : Handing S joined pending' s₁ s₂) :
    Handing S joined pending' s s₂ :=
  ⟨h₂.joined, h₂.locals.trans h₁.locals, h₂.values.trans h₁.values, h₂.params.trans h₁.params⟩

end HandingLemmas

theorem Joined.handing (h : Joined S joined (fun b x => x = v ∧ b ∈ p :: rest) s.func s.locals)
    (hed : CallsEdited s.func g p) {t t' : Terminator BlockCall} (ht : s.func.branch p = some t)
    (ht' : g.branch p = some t')
    (hhand : List.Forall₂ (Handed S s.locals.blockDefValues p v types) t.targets t'.targets)
    (hparams : (s.func.blockParams v).map s.func.valueType = types) {pos : CursorPosition} :
    Handing S joined (fun b x => x = v ∧ b ∈ rest) s ⟨g, pos, s.locals⟩ :=
  ⟨h.passed hed ht ht' hhand hparams, rfl, hed.values, hed.params⟩

theorem Handed.map_block {cs cs' : List BlockCall}
    (h : List.Forall₂ (Handed S pools p v types) cs cs') :
    cs'.map BlockCall.block = cs.map BlockCall.block := by
  induction h with
  | nil => rfl
  | cons hc _ ih => rw [List.map_cons, List.map_cons, hc.block, ih]

theorem Function.replaceInst_branch {i : Inst} (hi : f.layout.lastInst p = some i)
    (data : InstructionData) :
    (f.replaceInst i data).branch p = (f.replaceInst i data).branchOf data := by
  rw [Function.branch, show (f.replaceInst i _).layout.lastInst p = some i from hi,
    Option.bind_some, Function.replaceInst_instData_self]

/-- A branch that is written again with other arguments. -/
theorem Joined.replaced {i : Inst} {data : InstructionData} {t t' : Terminator BlockCall}
    (h : Joined S joined (fun b x => x = v ∧ b ∈ p :: rest) s.func s.locals)
    (hi : s.func.layout.lastInst p = some i) (ht : s.func.branch p = some t)
    (ht' : (s.func.replaceInst i data).branchOf data = some t')
    (hed : CallsEdited s.func (s.func.replaceInst i data) p)
    (hhand : List.Forall₂ (Handed S s.locals.blockDefValues p v types) t.targets t'.targets)
    (hparams : (s.func.blockParams v).map s.func.valueType = types) {pos : CursorPosition} :
    Handing S joined (fun b x => x = v ∧ b ∈ rest) s ⟨s.func.replaceInst i data, pos, s.locals⟩ :=
  h.handing hed ht ((Function.replaceInst_branch hi data).trans ht') hhand hparams

/-- A jump that passes other arguments. -/
theorem Joined.replaced_jump {i : Inst} {c c' : BlockCall}
    (h : Joined S joined (fun b x => x = v ∧ b ∈ p :: rest) s.func s.locals)
    (hi : s.func.layout.lastInst p = some i) (hd : s.func.instData i = .jump c)
    (hc : Handed S s.locals.blockDefValues p v types c c')
    (hparams : (s.func.blockParams v).map s.func.valueType = types) {pos : CursorPosition} :
    Handing S joined (fun b x => x = v ∧ b ∈ rest) s
      ⟨s.func.replaceInst i (.jump c'), pos, s.locals⟩ := by
  have hold : s.func.branch p = some (.jump c) := by
    rw [Function.branch, hi, Option.bind_some, hd, Function.branchOf]
  refine h.replaced hi hold rfl ?_ (.cons hc .nil) hparams
  exact .replaceInst hi (by rw [hd]; rfl) (by rw [hd]; rfl) (by rw [hd]; rfl) (by simp [hd])
    (by simp) (by rw [hd]; simp [Function.branchOf, Terminator.map, hc.block])

/-- A conditional branch that passes other arguments. -/
theorem Joined.replaced_brif {i : Inst} {arg : Value} {c₁ c₂ c₁' c₂' : BlockCall}
    (h : Joined S joined (fun b x => x = v ∧ b ∈ p :: rest) s.func s.locals)
    (hi : s.func.layout.lastInst p = some i) (hd : s.func.instData i = .brif arg c₁ c₂)
    (h₁ : Handed S s.locals.blockDefValues p v types c₁ c₁')
    (h₂ : Handed S s.locals.blockDefValues p v types c₂ c₂')
    (hparams : (s.func.blockParams v).map s.func.valueType = types) {pos : CursorPosition} :
    Handing S joined (fun b x => x = v ∧ b ∈ rest) s
      ⟨s.func.replaceInst i (.brif arg c₁' c₂'), pos, s.locals⟩ := by
  have hold : s.func.branch p = some (.brif arg c₁ c₂) := by
    rw [Function.branch, hi, Option.bind_some, hd, Function.branchOf]
  refine h.replaced hi hold rfl ?_ (.cons h₁ (.cons h₂ .nil)) hparams
  exact .replaceInst hi (by rw [hd]; rfl) (by rw [hd]; rfl) (by rw [hd]; rfl) (by simp [hd])
    (by simp) (by rw [hd]; simp [Function.branchOf, Terminator.map, h₁.block, h₂.block])

/-- A jump table that is written again with other arguments. -/
theorem Joined.rewritten {i : Inst} {k : JumpTable} {arg : Value} {c : BlockCall}
    {cs : List BlockCall}
    (h : Joined S joined (fun b x => x = v ∧ b ∈ p :: rest) s.func s.locals)
    (hi : s.func.layout.lastInst p = some i) (hd : s.func.instData i = .branchTable arg k)
    (hhand : List.Forall₂ (Handed S s.locals.blockDefValues p v types)
      ((s.func.dfg.jumpTables.get k).defaultBlock :: (s.func.dfg.jumpTables.get k).table) (c :: cs))
    (hparams : (s.func.blockParams v).map s.func.valueType = types) {pos : CursorPosition} :
    Handing S joined (fun b x => x = v ∧ b ∈ rest) s
      ⟨s.func.setJumpTable k ⟨c, cs⟩, pos, s.locals⟩ := by
  have hk : s.func.tableOf p = some k := Function.tableOf_eq_some.mpr ⟨i, arg, hi, hd⟩
  have hbranch : (s.func.setJumpTable k ⟨c, cs⟩).branch p = some (.brTable arg c cs) := by
    rw [Function.branch, show (s.func.setJumpTable k _).layout.lastInst p = some i from hi,
      Option.bind_some, show (s.func.setJumpTable k _).instData i = .branchTable arg k from hd,
      Function.setJumpTable_branchOf]
    exact if_pos rfl
  have hold : s.func.branch p = some (.brTable arg (s.func.dfg.jumpTables.get k).defaultBlock
      (s.func.dfg.jumpTables.get k).table) := by
    rw [Function.branch, hi, Option.bind_some, hd, Function.branchOf]
  exact h.handing (.setJumpTable hk h.tablesApart (Handed.map_block hhand)) hold hbranch hhand
    hparams

/-- **One predecessor passes its arguments.** -/
theorem Joined.passArgs_spec
    (h : Joined S joined (fun b x => x = v ∧ b ∈ p :: rest) s.func s.locals)
    (hedge : S.start.Edge p v) (hpools : ∀ t ∈ types, S.pool s.locals.blockDefValues p t ≠ [])
    (hparams : (s.func.blockParams v).map s.func.valueType = types) :
    Ensures (Starved S) (passArgs S.dominators v types p) s fun _ =>
      Handing S joined (fun b x => x = v ∧ b ∈ rest) s := by
  obtain ⟨t₀, ht₀, hv⟩ : s.func.Edge p v := h.valid.frame.edge_iff.mpr hedge
  obtain ⟨i, t, hi, hbr, rfl⟩ := Function.exists_of_terminator ht₀
  rw [Terminator.targets_map] at hv
  have ht : s.func.branch p = some t := by rw [Function.branch, hi, Option.bind_some, hbr]
  have hnodup := h.targets_nodup ht
  unfold passArgs
  refine Ensures.bind (ensures_gotoLastInst hi
    (Q := fun _ s' => s' = { s with pos := .at_ i }) rfl) ?_
  rintro - _ rfl
  unfold currentInst
  rw [bind_assoc]
  refine ensures_bind_position ?_
  refine Ensures.pick (P := fun j => i = j) (Ensures.pure ⟨rfl, rfl⟩) ?_
  rintro _ rfl
  refine ensures_bind_func ?_
  have hstarved : Starved S .starved { s with pos := .at_ i } :=
    Ready.starved (s := { s with pos := .at_ i }) h.toReady
  have hargs : Ensures (Starved S) (selectArgs S.dominators p types) { s with pos := .at_ i }
      fun as s' => s' = { s with pos := .at_ i } ∧
        List.Forall₂ (fun t a => a ∈ S.pool s.locals.blockDefValues p t) types as :=
    ensures_selectArgs hstarved fun t ht hnil => absurd hnil (hpools t ht)
  -- the predecessor ends in a branch, so the arm that panics is not taken
  cases hd : s.func.instData i with
  | jump dest =>
      rw [hd, Function.branchOf, Option.some.injEq] at hbr
      subst hbr
      have hdest : dest.block = v := (List.mem_singleton.mp hv).symm
      refine Ensures.pick hargs fun as has => ?_
      refine ensures_bind_func ?_
      exact ensures_setFunc (h.replaced_jump hi hd (.pass hdest has) hparams)
  | brif arg blockThen blockElse =>
      rw [hd, Function.branchOf, Option.some.injEq] at hbr
      subst hbr
      have hne : blockThen.block ≠ blockElse.block := by
        simpa [Terminator.targets] using hnodup
      refine Ensures.pick hargs fun as has => ?_
      -- the arguments go to the else branch whenever it leads to the block
      refine Ensures.ite (fun helse => ?_) fun helse => ?_
      · refine ensures_bind_func ?_
        have hthen : blockThen.block ≠ v := fun hthen => hne (hthen.trans helse.symm)
        exact ensures_setFunc (h.replaced_brif hi hd (.keep hthen) (.pass helse has) hparams)
      · refine ensures_bind_func ?_
        have hthen : blockThen.block = v := by
          rcases List.mem_pair.mp hv with hv | hv
          · exact hv.symm
          · exact absurd hv.symm helse
        exact ensures_setFunc (h.replaced_brif hi hd (.pass hthen has) (.keep helse) hparams)
  | branchTable arg k =>
      rw [hd, Function.branchOf, Option.some.injEq] at hbr
      subst hbr
      refine ensures_bind_func ?_
      refine Ensures.pick (ensures_passToEntry hargs fun _ => rfl) fun r hentry => ?_
      obtain ⟨hdefault, hr⟩ := hentry
      obtain ⟨hnotin, hnodup'⟩ := List.nodup_cons.mp hnodup
      refine Ensures.pick (ensures_passToEntries hargs hnodup' fun hmem => hr fun heq =>
        hnotin (heq ▸ hmem)) fun cs' hcs' => ?_
      refine ensures_bind_func ?_
      exact ensures_setFunc (h.rewritten hi hd (.cons hdefault hcs') hparams)
  | _ => simp [hd, Function.branchOf] at hbr

end Pass

/-! ## Exchanging operands for parameters -/

theorem keepsOperands_eq (op : Opcode) : keepsOperands op = op.accessesMemory := by
  cases op <;> rfl

section Rewrite

variable {S : Setting} {v b : Block} {joined : List Block} {s : State Locals} {f : Function}
  {cands : List (ClifType × Value)} {i : Inst} {args : List Value}

/-- Operands of the same types, with the old ones kept where memory depends on them. -/
theorem Function.Exchange.of_forall₂ (hkeep : keepsOperands (f.instData i).opcode = false)
    (h : List.Forall₂ (fun u a => f.valueType a = f.valueType u ∧
      (a = u ∨ a < f.dfg.values.len)) (f.instData i).arguments args) : f.Exchange i args where
  length := h.length_eq.symm
  pinned hp := by
    rw [keepsOperands_eq] at hkeep
    have hnil : (f.instData i).arguments = [] := by
      cases hd : f.instData i with
      | stackLoad => rfl
      | _ =>
          rw [hd] at hp hkeep
          simp [InstructionData.pinned, hkeep] at hp
    rw [hnil] at h ⊢
    exact List.forall₂_nil_left_iff.mp h
  lt hlt a ha := by
    obtain ⟨u, hu, -, rfl | hlt'⟩ := ListEdit.exists_of_mem_right h ha
    · exact hlt a hu
    · exact hlt'
  types _ _ := ListEdit.map_eq_of_forall₂ (h.imp fun _ _ => And.left)

/-- The candidates are parameters of block `v`, each with its type. -/
def Candidates (S : Setting) (f : Function) (v : Block) (cands : List (ClifType × Value)) : Prop :=
  ∀ p ∈ cands, S.base ≤ p.2 ∧ f.IsParam p.2 v ∧ f.valueType p.2 = p.1

theorem Handing.candidate {pending : Block → Block → Prop} {s' : State Locals}
    (h : Handing S joined pending s s') {t : ClifType} {u : Value} (hbase : S.base ≤ u)
    (hu : s.func.IsParam u v) (ht : s.func.valueType u = t) :
    S.base ≤ u ∧ s'.func.IsParam u v ∧ s'.func.valueType u = t := by
  obtain ⟨hlt, k, hsource, hk⟩ := hu
  refine ⟨hbase, ⟨by rwa [h.values], k, by rwa [h.values], ?_⟩, by rw [h.valueType, ht]⟩
  rwa [h.blockParams]

/-- One instruction of the block. -/
theorem Joined.rewriteInst_spec (h : Joined S joined (fun _ _ => False) s.func s.locals)
    (hcands : Candidates S s.func v cands) (hi : i ∈ s.func.layout.insts v) :
    Ensures (Starved S) (rewriteInst cands i) s fun _ s' =>
      Handing S joined (fun _ _ => False) s s' ∧ s'.pos = s.pos ∧
        s'.func.layout = s.func.layout := by
  have hsame : Handing S joined (fun _ _ => False) s s := ⟨h, rfl, rfl, rfl⟩
  unfold rewriteInst
  refine ensures_bind_func ?_
  refine Ensures.ite (fun _ => Ensures.pure ⟨hsame, rfl, rfl⟩) fun hkeep => ?_
  refine Ensures.pick (Ensures.mapM (P := fun s' => s' = s) (R := fun u a =>
    s.func.valueType a = s.func.valueType u ∧ (a = u ∨ ∃ p ∈ cands, p.2 = a)) rfl ?_)
    fun args hargs => ?_
  · rintro u - s rfl
    exact ensures_rewriteArg h.starved (fun _ _ => rfl) cands (fun p hp => (hcands p hp).2.2) rfl
  refine Ensures.ite (fun _ => Ensures.pure ⟨hsame, rfl, rfl⟩) fun _ => ?_
  have hex : s.func.Exchange i args := .of_forall₂ (Bool.eq_false_iff.mpr hkeep)
    (hargs.imp fun u a ⟨hty, hor⟩ => ⟨hty, hor.imp_right fun ⟨p, hp, hpa⟩ =>
      hpa ▸ (hcands p hp).2.1.1⟩)
  refine ensures_setFunc ⟨⟨h.withOperands hi hex fun before after _ a ha => ?_, rfl, rfl, rfl⟩, rfl,
    rfl⟩
  obtain ⟨u, hu, -, rfl | ⟨p, hp, rfl⟩⟩ := ListEdit.exists_of_mem_right hargs ha
  · exact .inl hu
  · obtain ⟨hbase, hparam, -⟩ := hcands p hp
    exact .inr ⟨hbase, .inl ⟨v, hparam, Dominates.refl _ _ _⟩⟩

/-- The loop over the instructions behind the cursor. -/
theorem Joined.rewriteInsts_spec (h : Joined S joined (fun _ _ => False) s.func s.locals)
    (hcands : Candidates S s.func v cands) {j : Inst} (hj : j ∈ s.func.layout.insts v)
    (hpos : s.pos = .at_ j) (fuel : ℕ) :
    Ensures (Starved S) (rewriteInsts cands fuel) s fun _ =>
      Handing S joined (fun _ _ => False) s := by
  induction fuel generalizing s j with
  | zero => exact Ensures.pure ⟨h, rfl, rfl, rfl⟩
  | succ fuel ih =>
      unfold rewriteInsts
      refine Ensures.bind (ensures_nextInst hpos hj) ?_
      rintro o s₁ ⟨hfunc, hlocals, -, hnext⟩
      have h₁ : Joined S joined (fun _ _ => False) s₁.func s₁.locals := by
        rw [hfunc, hlocals]
        exact h
      cases o with
      | none => exact Ensures.pure ⟨h₁, hlocals, by rw [hfunc], by rw [hfunc]⟩
      | some i =>
          obtain ⟨hi, hpos₁⟩ := hnext i rfl
          have hcands₁ : Candidates S s₁.func v cands := by rwa [hfunc]
          refine Ensures.bind (h₁.rewriteInst_spec hcands₁ (by rwa [hfunc])) ?_
          rintro - s₂ ⟨h₂, hpos₂, hlayout⟩
          -- the parameters are still candidates after the operands of `i` were rewritten
          have hcands₂ : Candidates S s₂.func v cands := fun p hp =>
            h₂.candidate (hcands₁ p hp).1 (hcands₁ p hp).2.1 (hcands₁ p hp).2.2
          refine (ih h₂.joined hcands₂ (by rwa [hlayout, hfunc]) (hpos₂.trans hpos₁)).mono ?_
          intro _ s₃ h₃
          exact ⟨h₃.joined, h₃.locals.trans (h₂.locals.trans hlocals),
            by rw [h₃.values, h₂.values, hfunc], by rw [h₃.params, h₂.params, hfunc]⟩

end Rewrite

/-! ## Visiting the blocks -/

/-- What the visit of a block leaves of the locals, and the parameters that the block gets. -/
structure JoinVisit (S : Setting) (v : Block) (s s' : State Locals) : Prop where
  grows : Grows s.locals.blockDefValues s'.locals.blockDefValues
  refs : s'.locals.blockRefValues = s.locals.blockRefValues
  params : 2 ≤ (predBlocks S.start v).length → ∃ tvs, s.locals.blockRefValues.lookup v = some tvs ∧
    ((s'.func.blockParams v).map s'.func.valueType).Perm (tvs.map TypedValue.ty).dedup

section Visit

variable {S : Setting} {v : Block} {joined : List Block} {s s₁ : State Locals} {f : Function}
  {L : Locals}

theorem Joined.weaken {pending pending' : Block → Block → Prop} (h : Joined S joined pending f L)
    (hp : ∀ b x, pending b x → pending' b x) : Joined S joined pending' f L :=
  { h with passes := fun b t ht c hc hn => h.passes b t ht c hc fun hpend => hn (hp b _ hpend) }

/-- A block that gets no parameters. -/
theorem Joined.skip {pending : Block → Block → Prop} (h : Joined S joined pending f L) :
    Joined S (v :: joined) pending f L :=
  { h with
    fresh := fun c hc hne hcj => h.fresh c hc hne (mt (List.mem_cons_of_mem v) hcj) }

/-- The first block has no predecessors. -/
theorem Setting.ne_entry_of_preds (S : Setting) (hpreds : 2 ≤ (predBlocks S.start v).length) :
    v ≠ S.entry := by
  rintro rfl
  obtain ⟨p, hp⟩ := List.exists_mem_of_length_pos (Nat.lt_of_lt_of_le Nat.two_pos hpreds)
  exact S.skeleton.flow.no_pred p (mem_predBlocks.mp hp)

/-- The predecessors are those of the skeleton. -/
theorem Joined.predBlocks_eq {pending : Block → Block → Prop} (h : Joined S joined pending f L)
    (b : Block) : predBlocks f b = predBlocks S.start b := by
  rw [predBlocks, predBlocks, h.valid.preds_eq]

/-- Without predecessors in the list there is nothing to intersect with. -/
theorem getValueTypeIntersection_singleton (defs refs : ValueMap) (v : Block) :
    getValueTypeIntersection [v] defs refs =
      (refs.lookup v).map fun tvs => (tvs.map TypedValue.ty).dedup := by
  unfold getValueTypeIntersection
  cases hrefs : refs.lookup v <;> simp [hrefs]

/-- The types that the block has used, which its predecessors have values of. -/
theorem Joined.joinTypes_spec (h : Joined S joined (fun _ _ => False) s.func s.locals)
    (hv : v ∈ S.start.layout.blocks) (hne : v ≠ S.entry) :
    Ensures (Starved S) (joinTypes v) s fun types s' => s' = s ∧
      ∃ tvs, s.locals.blockRefValues.lookup v = some tvs ∧ types = (tvs.map TypedValue.ty).dedup ∧
        ∀ t ∈ types, S.Supplied s.locals.blockDefValues v t := by
  obtain ⟨tvs, htvs, hsupplied⟩ := h.refs v hv
  unfold joinTypes
  refine ensures_bind_locals ?_
  rw [getValueTypeIntersection_singleton, htvs]
  refine Ensures.pure ⟨rfl, tvs, rfl, rfl, fun t ht => ?_⟩
  obtain ⟨tv, htv, rfl⟩ := List.mem_map.mp (List.mem_dedup.mp ht)
  exact hsupplied hne tv htv

/-- The loop over the predecessors. -/
theorem Joined.passAll_spec {types : List ClifType} {rest : List Block}
    (h : Joined S joined (fun b x => x = v ∧ b ∈ rest) s.func s.locals)
    (hrest : ∀ p ∈ rest, S.start.Edge p v)
    (hsupplied : ∀ t ∈ types, S.Supplied s.locals.blockDefValues v t)
    (hparams : (s.func.blockParams v).map s.func.valueType = types) :
    Ensures (Starved S) (rest.forM (passArgs S.dominators v types)) s fun _ =>
      Handing S joined (fun _ _ => False) s := by
  -- the calls of the predecessors that are left are the pending ones
  refine (Ensures.forM (P := fun l s' => Handing S joined (fun b x => x = v ∧ b ∈ l) s s' ∧
    ∀ p ∈ l, S.start.Edge p v) ⟨⟨h, rfl, rfl, rfl⟩, hrest⟩ ?_).mono ?_
  · rintro p l s₁ ⟨h₁, hl⟩
    have hp := hl p List.mem_cons_self
    have hpools : ∀ t ∈ types, S.pool s₁.locals.blockDefValues p t ≠ [] := fun t ht => by
      rw [h₁.locals]
      exact (hsupplied t ht).pool_ne_nil hp
    have hparams₁ : (s₁.func.blockParams v).map s₁.func.valueType = types := by
      rw [h₁.blockParams, h₁.valueType, hparams]
    refine (h₁.joined.passArgs_spec hp hpools hparams₁).mono fun _ s₂ h₂ => ⟨h₁.trans h₂, ?_⟩
    exact fun q hq => hl q (List.mem_cons_of_mem _ hq)
  · rintro - s' ⟨h', -⟩
    exact { h' with joined := h'.joined.weaken fun _ _ hp => absurd hp.2 List.not_mem_nil }

/-- **The parameters of a join block.** They are the candidates for its operands. -/
theorem Joined.appendJoinParams_spec (h : Joined S joined (fun _ _ => False) s.func s.locals)
    (hv : v ∈ S.start.layout.blocks) (hnew : v ∉ joined)
    (hpreds : 2 ≤ (predBlocks S.start v).length) :
    Ensures (Starved S) (appendJoinParams S.dominators v (predBlocks S.start v)) s fun cands s' =>
      Joined S (v :: joined) (fun _ _ => False) s'.func s'.locals ∧ JoinVisit S v s s' ∧
        cands = (s'.func.blockParams v).map (fun p => (s'.func.valueType p, p)) ∧
        Candidates S s'.func v cands := by
  have hne := S.ne_entry_of_preds hpreds
  unfold appendJoinParams
  refine Ensures.pick (h.joinTypes_spec hv hne) ?_
  rintro _ ⟨tvs, htvs, rfl, hsupplied⟩
  refine Ensures.pick (ensures_chooseAll h.starved _) fun types hperm => ?_
  have hbase : S.base ≤ s.func.dfg.values.len := h.valid.frame.values_len
  refine Ensures.bind (ensures_addJoinParams (S := S) types (h.defs v hv) hbase) fun vs s₁ hx => ?_
  -- the parameters come first, in an order that is drawn, and the arguments afterwards
  have h₁ := h.extended hx hv hne hnew (hperm.nodup_iff.mpr (List.nodup_dedup _)) hpreds
  have hvs : s₁.func.blockParams v = vs := by
    rw [hx.params, h.fresh v hv hne hnew, List.nil_append]
  have hparams : (s₁.func.blockParams v).map s₁.func.valueType = types := by rw [hvs, hx.types]
  refine Ensures.bind (h₁.passAll_spec (fun p hp => mem_predBlocks.mp hp)
    (fun t ht => (hsupplied t (hperm.mem_iff.mp ht)).grows hx.grows) hparams) fun _ s₂ h₂ => ?_
  -- the candidates are the parameters of the block with their types
  have hcands : types.zip vs =
      (s₂.func.blockParams v).map fun p => (s₂.func.valueType p, p) := by
    rw [h₂.blockParams, h₂.valueType, hvs, ← hx.types, List.map_prod_right_eq_zip]
  refine Ensures.pure ⟨h₂.joined, ⟨?_, ?_, fun _ => ⟨tvs, htvs, ?_⟩⟩, hcands, ?_⟩
  · rw [h₂.locals]
    exact hx.grows
  · rw [h₂.locals]
    exact hx.refs
  · rw [h₂.blockParams, h₂.valueType, hparams]
    exact hperm
  · rw [hcands]
    rintro _ hq
    obtain ⟨u, hu, rfl⟩ := List.mem_map.mp hq
    have hu : u ∈ vs := by rwa [h₂.blockParams, hvs] at hu
    exact h₂.candidate (hbase.trans (hx.new u hu)) (hx.isParam u hu) (by rw [h₂.valueType])

/-- The loop that rewrites the operands of a block. -/
theorem Joined.substitute_spec {cands : List (ClifType × Value)}
    (h : Joined S joined (fun _ _ => False) s.func s.locals) (hcands : Candidates S s.func v cands)
    (hv : v ∈ S.start.layout.blocks) :
    Ensures (Starved S) (substitute cands v) s fun _ => Handing S joined (fun _ _ => False) s := by
  obtain ⟨j, hj⟩ : ∃ j, s.func.layout.firstInst v = some j := by
    obtain ⟨j, l, hl⟩ := List.exists_cons_of_ne_nil (h.nonempty v hv)
    exact ⟨j, by rw [Layout.firstInst, hl, List.head?_cons]⟩
  unfold substitute
  refine Ensures.bind (ensures_gotoFirstInst hj
    (Q := fun _ s' => s' = { s with pos := .at_ j }) rfl) ?_
  rintro - _ rfl
  refine ensures_bind_func ?_
  exact (Joined.rewriteInsts_spec (s := { s with pos := .at_ j }) h hcands
    (List.mem_of_mem_head? hj) rfl _).mono fun _ _ h => ⟨h.joined, h.locals, h.values, h.params⟩

/-- **The visit of a block in the second pass.** -/
theorem Joined.joinBlock_spec (h : Joined S joined (fun _ _ => False) s.func s.locals)
    (hv : v ∈ S.start.layout.blocks) (hnew : v ∉ joined) :
    Ensures (Starved S) (joinBlock S.dominators v) s fun _ s' =>
      Joined S (v :: joined) (fun _ _ => False) s'.func s'.locals ∧ JoinVisit S v s s' := by
  unfold joinBlock
  refine ensures_bind_func ?_
  simp only [h.predBlocks_eq]
  refine Ensures.ite (fun hpreds => ?_) fun hpreds => ?_
  swap
  · exact Ensures.pure ⟨h.skip, .refl _, rfl, fun hle => absurd hle hpreds⟩
  refine Ensures.bind (h.appendJoinParams_spec hv hnew hpreds) ?_
  rintro cands s₁ ⟨h₁, hvisit, -, hcands⟩
  refine (h₁.substitute_spec hcands hv).mono fun _ s₂ h₂ => ?_
  refine ⟨h₂.joined, ?_, ?_, fun hle => ?_⟩
  · rw [h₂.locals]
    exact hvisit.grows
  · rw [h₂.locals]
    exact hvisit.refs
  · rw [h₂.blockParams, h₂.valueType]
    exact hvisit.params hle

/-- **The second pass.** It only stops when the draws run out, and what the visits keep holds
afterwards. -/
theorem Joined.joinPass_rule {R : State Locals → Prop} {rest : List Block}
    (hstep : ∀ {joined : List Block} {v : Block} {s : State Locals},
      Joined S joined (fun _ _ => False) s.func s.locals → R s → v ∈ S.start.layout.blocks →
        v ∉ joined → Ensures (Starved S) (joinBlock S.dominators v) s fun _ s' =>
          Joined S (v :: joined) (fun _ _ => False) s'.func s'.locals ∧ R s')
    (h : Joined S joined (fun _ _ => False) s.func s.locals) (hR : R s)
    (hrest : ∀ b ∈ rest, b ∈ S.start.layout.blocks ∧ b ∉ joined) (hnodup : rest.Nodup) :
    Ensures (Starved S) (rest.forM (joinBlock S.dominators)) s fun _ s' =>
      Joined S (rest.reverse ++ joined) (fun _ _ => False) s'.func s'.locals ∧ R s' := by
  -- on the blocks to come; those that were visited are collected in `joined`
  induction rest generalizing joined s with
  | nil => exact Ensures.pure ⟨h, hR⟩
  | cons v rest ih =>
      obtain ⟨hv, hnew⟩ := hrest v List.mem_cons_self
      obtain ⟨hvrest, hnodup⟩ := List.nodup_cons.mp hnodup
      refine Ensures.bind (hstep h hR hv hnew) fun _ s₁ ⟨h₁, hR₁⟩ => ?_
      refine (ih h₁ hR₁ (fun b hb => ⟨(hrest b (List.mem_cons_of_mem _ hb)).1, ?_⟩) hnodup).mono ?_
      · intro hmem
        rcases List.mem_cons.mp hmem with rfl | hbj
        · exact hvrest hb
        · exact (hrest b (List.mem_cons_of_mem _ hb)).2 hbj
      · intro _ s' h'
        rwa [List.reverse_cons, List.append_assoc, List.singleton_append]

theorem Joined.joinPass_spec {rest : List Block}
    (h : Joined S joined (fun _ _ => False) s.func s.locals)
    (hrest : ∀ b ∈ rest, b ∈ S.start.layout.blocks ∧ b ∉ joined) (hnodup : rest.Nodup) :
    Ensures (Starved S) (rest.forM (joinBlock S.dominators)) s fun _ s' =>
      Joined S (rest.reverse ++ joined) (fun _ _ => False) s'.func s'.locals :=
  (Joined.joinPass_rule (R := fun _ => True) (fun h' _ hv hnew =>
    (h'.joinBlock_spec hv hnew).mono fun _ _ h => ⟨h.1, trivial⟩) h trivial hrest hnodup).mono
    fun _ _ => And.left

end Visit

end Clir
