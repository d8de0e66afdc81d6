import Clir.Gen.Guarantees

set_option autoImplicit false

/-! # The parameters of join blocks

The second pass visits the blocks in depth first order. A block with two or more predecessors gets
one parameter of each type that it has used. The call to `get_value_type_intersection` is meant to
leave only types that every predecessor has defined, but the predecessors never reach it. What the
predecessors pass need not be their own: a value of a type that the block has used comes from one
of its strict dominators, which dominates every predecessor.
-/

namespace Clir

open Cmd Cursor Graph Relation

/-! ## The intersection -/

section Intersection

variable {defs refs : ValueMap} {types : List ClifType} {blocks : List Block}

/-- The fold keeps the types that each of the blocks has defined. -/
theorem foldlM_filter_types (types : List ClifType)
    (hdefs : ∀ p ∈ blocks, (defs.lookup p).isSome) :
    ∃ ts, (blocks.foldlM (fun types preBlock => do
        let defValues ← defs.lookup preBlock
        return types.filter fun t => t ∈ defValues.map TypedValue.ty) types : Option _) = some ts ∧
      ts.Sublist types ∧ ∀ t, t ∈ ts ↔ t ∈ types ∧ ∀ p ∈ blocks, ∃ tvs, defs.lookup p = some tvs ∧
        t ∈ tvs.map TypedValue.ty := by
  -- `types` varies, as the fold filters it before it goes on
  induction blocks generalizing types with
  | nil => exact ⟨types, rfl, .refl _, fun t => by simp⟩
  | cons p blocks ih =>
      obtain ⟨tvs, htvs⟩ := Option.isSome_iff_exists.mp (hdefs p List.mem_cons_self)
      obtain ⟨ts, hfold, hsub, hmem⟩ :=
        ih (types.filter fun t => t ∈ tvs.map TypedValue.ty)
          fun q hq => hdefs q (List.mem_cons_of_mem p hq)
      refine ⟨ts, ?_, hsub.trans List.filter_sublist, fun t => ?_⟩
      · rw [List.foldlM_cons, htvs]
        exact hfold
      · rw [hmem, List.mem_filter, decide_eq_true_eq, List.forall_mem_cons, and_assoc]
        refine and_congr_right fun _ => and_congr_left fun _ => ?_
        simp [htvs]

/-- The intersection is all that the first block has used, if each of the other blocks has defined
it. -/
theorem getValueTypeIntersection_perm_iff {v : Block} {tvs : List TypedValue}
    (hrefs : refs.lookup v = some tvs) (hdefs : ∀ p ∈ blocks, (defs.lookup p).isSome)
    (htypes : types.Perm (tvs.map TypedValue.ty).dedup) :
    (∃ ts, getValueTypeIntersection (v :: blocks) defs refs = some ts ∧ types.Perm ts) ↔
      ∀ tv ∈ tvs, ∀ p ∈ blocks, ∃ ptvs, defs.lookup p = some ptvs ∧
        tv.ty ∈ ptvs.map TypedValue.ty := by
  obtain ⟨ts, hfold, hsub, hmem⟩ := foldlM_filter_types (tvs.map TypedValue.ty).dedup hdefs
  have heq : getValueTypeIntersection (v :: blocks) defs refs = some ts := by
    rw [getValueTypeIntersection, hrefs]
    exact hfold
  rw [heq]
  constructor
  · rintro ⟨_, ⟨⟩, hperm⟩ tv htv
    have hty : tv.ty ∈ (tvs.map TypedValue.ty).dedup :=
      List.mem_dedup.mpr (List.mem_map_of_mem htv)
    exact ((hmem _).mp (hperm.subset (htypes.symm.subset hty))).2
  · intro hall
    refine ⟨ts, rfl, htypes.trans (hsub.eq_of_length_le ?_ ▸ .refl _)⟩
    refine ((List.nodup_dedup _).subperm fun t ht => (hmem t).mpr ⟨ht, ?_⟩).length_le
    obtain ⟨tv, htv, rfl⟩ := List.mem_map.mp (List.mem_dedup.mp ht)
    exact hall tv htv

end Intersection

/-! ## The visit of a block -/

/-- In the run of the generator from `w`, the visit of block `v` in the second pass starts at
`w₂`. -/
structure VisitStarts (config : ArchConfig) (w : World (State Locals)) (v : Block)
    (w₂ : World (State Locals)) : Prop where
  passes : ∃ n r, passesUpTo config n w = .ok r w₂ ∧ (w.mem.func.dfsOrder 0)[n]? = some v

section Runs

variable {maxDepth : ℕ} {name : FuncName} {signature : Signature} {draws : List ℕ}
  {config : ArchConfig} {w₁ w₂ w₃ : World (State Locals)} {v : Block}

/-- Where a visit starts, the blocks before it have been visited. -/
theorem VisitStarts.joined (h : VisitStarts config w₁ v w₂)
    (hc : Constructed maxDepth name signature w₁) :
    v ∈ w₁.mem.func.layout.blocks ∧ ∃ joined, v ∉ joined ∧
      Joined (hc.setting config) joined (fun _ _ => False) w₂.mem.func w₂.mem.locals := by
  obtain ⟨n, r, hrun, hv⟩ := h.passes
  have hjoined := (((hc.filled config).passesUpTo_spec rfl n).of_ok hrun).2
  have hv : (hc.setting config).order[n]? = some v := hv
  refine ⟨Setting.mem_order.mp (List.mem_of_getElem? hv), _, fun hmem => ?_, hjoined⟩
  -- the order has no duplicates, and `v` is behind the first `n` blocks
  have hnodup : (hc.setting config).order.Nodup := w₁.mem.func.dfsOrder_nodup 0
  rw [← List.take_append_drop n (hc.setting config).order] at hnodup
  have hdrop : v ∈ (hc.setting config).order.drop n := by
    rw [List.mem_iff_getElem?]
    exact ⟨0, by rw [List.getElem?_drop, Nat.add_zero, hv]⟩
  exact (List.nodup_append.mp hnodup).2.2 v (List.mem_reverse.mp hmem) v hdrop rfl

/-- What the visit of a block does, from where it starts. -/
theorem VisitStarts.joinBlock_spec (h : VisitStarts config w₁ v w₂)
    (hc : Constructed maxDepth name signature w₁) :
    Ensures (Starved (hc.setting config)) (joinBlock (computeDominators w₁.mem.func 0) v) w₂.mem
      fun _ s' => JoinVisit (hc.setting config) v w₂.mem s' := by
  obtain ⟨hv, joined, hnew, hjoined⟩ := h.joined hc
  exact (hjoined.joinBlock_spec hv hnew).mono fun _ _ h => h.2

theorem VisitStarts.predBlocks_eq (h : VisitStarts config w₁ v w₂)
    (hc : Constructed maxDepth name signature w₁) :
    predBlocks w₂.mem.func v = predBlocks w₁.mem.func v := by
  obtain ⟨-, joined, -, hjoined⟩ := h.joined hc
  exact hjoined.predBlocks_eq v

/-- Every predecessor has recorded its values, and whatever type a join block has used is supplied
to it. -/
theorem VisitStarts.supplied (h : VisitStarts config w₁ v w₂)
    (hc : Constructed maxDepth name signature w₁)
    (hpreds : 2 ≤ (predBlocks w₁.mem.func v).length) :
    (∀ p ∈ predBlocks w₁.mem.func v, (w₂.mem.locals.blockDefValues.lookup p).isSome) ∧
      ∃ tvs, w₂.mem.locals.blockRefValues.lookup v = some tvs ∧
        ∀ tv ∈ tvs, (hc.setting config).Supplied w₂.mem.locals.blockDefValues v tv.ty := by
  obtain ⟨hv, joined, -, hjoined⟩ := h.joined hc
  refine ⟨fun p hp => hjoined.defs p (mem_predBlocks.mp hp).mem_blocks, ?_⟩
  obtain ⟨tvs, htvs, hsupplied⟩ := hjoined.refs v hv
  exact ⟨tvs, htvs, hsupplied ((hc.setting config).ne_entry_of_preds hpreds)⟩

/-- The types of the parameters of a block. -/
def paramTypes (f : Function) (v : Block) : List ClifType := (f.blockParams v).map f.valueType

/-- The visit of the block where the two branches of an `if` meet, and the state it starts in. -/
theorem ifDraws_joins : returnsWith (do
    withLocals [] (cfConstruct 0 none 0)
    let start ← func
    let _ ← passesUpTo addConfig 3
    let s ← mem
    joinBlock (computeDominators start 0) 5
    return (start, s))
    (buildStart (.user 1 0) ⟨[], [.i32]⟩ ifDraws) (fun (start, s) w =>
      (start.dfsOrder 0)[3]? = some 5 ∧ 2 ≤ (predBlocks s.func 5).length ∧
        paramTypes w.mem.func 5 = [.i32] ∧
        getValueTypeIntersection (5 :: predBlocks s.func 5) s.locals.blockDefValues
          s.locals.blockRefValues = some []) = true := by
  decide +kernel

theorem exists_ifJoin : ∃ w₁ w₂ w₃ : World (State Locals),
    withLocals [] (cfConstruct 0 none 0) (buildStart (.user 1 0) ⟨[], [.i32]⟩ ifDraws) =
      .ok () w₁ ∧ VisitStarts addConfig w₁ 5 w₂ ∧ 2 ≤ (predBlocks w₂.mem.func 5).length ∧
    joinBlock (computeDominators w₁.mem.func 0) 5 w₂ = .ok () w₃ ∧
    paramTypes w₃.mem.func 5 = [.i32] ∧
    getValueTypeIntersection (5 :: predBlocks w₂.mem.func 5) w₂.mem.locals.blockDefValues
      w₂.mem.locals.blockRefValues = some [] := by
  obtain ⟨⟨start, s⟩, w₃, hrun, hcheck⟩ := exists_of_returnsWith ifDraws_joins
  obtain ⟨⟨⟩, w₁, hcf, hrun⟩ := bind_eq_ok.mp hrun
  obtain ⟨start', w₁', hfunc, hrun⟩ := bind_eq_ok.mp hrun
  obtain ⟨rfl, rfl⟩ := EStateM.Result.ok.inj (show EStateM.Result.ok w₁.mem.func w₁ = _ from hfunc)
  obtain ⟨r, w₂, hpasses, hrun⟩ := bind_eq_ok.mp hrun
  obtain ⟨s', w₂', hmem, hrun⟩ := bind_eq_ok.mp hrun
  obtain ⟨rfl, rfl⟩ := EStateM.Result.ok.inj (show EStateM.Result.ok w₂.mem w₂ = _ from hmem)
  obtain ⟨⟨⟩, w₃', hjoin, hrun⟩ := bind_eq_ok.mp hrun
  obtain ⟨heq, rfl⟩ := EStateM.Result.ok.inj
    (show EStateM.Result.ok (w₁.mem.func, w₂.mem) w₃' = _ from hrun)
  obtain ⟨rfl, rfl⟩ := Prod.mk.inj heq
  obtain ⟨horder, hpreds, htypes, hinter⟩ := of_decide_eq_true hcheck
  exact ⟨w₁, w₂, w₃', hcf, ⟨3, r, hpasses, horder⟩, hpreds, hjoin, htypes, hinter⟩

/-- **The types of the parameters of a join block** are those of the values that the block has used.
They are the intersection with what the predecessors have defined just when each predecessor has
defined a value of each of them. -/
theorem joinBlock_intersects_iff
    (hcf : withLocals [] (cfConstruct maxDepth none 0) (buildStart name signature draws) =
      .ok () w₁)
    (hstart : VisitStarts config w₁ v w₂) (hpreds : 2 ≤ (predBlocks w₂.mem.func v).length)
    (hjoin : joinBlock (computeDominators w₁.mem.func 0) v w₂ = .ok () w₃) :
    ∃ tvs, w₂.mem.locals.blockRefValues.lookup v = some tvs ∧
      (∀ t, t ∈ paramTypes w₃.mem.func v ↔ t ∈ tvs.map TypedValue.ty) ∧
      ((∃ ts, getValueTypeIntersection (v :: predBlocks w₂.mem.func v)
          w₂.mem.locals.blockDefValues w₂.mem.locals.blockRefValues = some ts ∧
          (paramTypes w₃.mem.func v).Perm ts) ↔
        ∀ tv ∈ tvs, ∀ p ∈ predBlocks w₂.mem.func v,
          ∃ ptvs, w₂.mem.locals.blockDefValues.lookup p = some ptvs ∧
            tv.ty ∈ ptvs.map TypedValue.ty) := by
  have hc : Constructed maxDepth name signature w₁ := ⟨draws, hcf⟩
  rw [hstart.predBlocks_eq hc] at hpreds ⊢
  obtain ⟨hdefs, -⟩ := hstart.supplied hc hpreds
  obtain ⟨tvs, htvs, hperm⟩ := ((hstart.joinBlock_spec hc).of_ok hjoin).params hpreds
  refine ⟨tvs, htvs, fun t => ?_, getValueTypeIntersection_perm_iff htvs hdefs hperm⟩
  rw [paramTypes, hperm.mem_iff, List.mem_dedup]

theorem joinBlock_intersects_not_if : ∃ w₁ w₂ w₃ : World (State Locals),
    withLocals [] (cfConstruct 0 none 0) (buildStart (.user 1 0) ⟨[], [.i32]⟩ ifDraws) =
      .ok () w₁ ∧ VisitStarts addConfig w₁ 5 w₂ ∧ 2 ≤ (predBlocks w₂.mem.func 5).length ∧
    joinBlock (computeDominators w₁.mem.func 0) 5 w₂ = .ok () w₃ ∧
    ¬ ∃ ts, getValueTypeIntersection (5 :: predBlocks w₂.mem.func 5) w₂.mem.locals.blockDefValues
      w₂.mem.locals.blockRefValues = some ts ∧ (paramTypes w₃.mem.func 5).Perm ts := by
  obtain ⟨w₁, w₂, w₃, hcf, hstart, hpreds, hjoin, htypes, hinter⟩ := exists_ifJoin
  refine ⟨w₁, w₂, w₃, hcf, hstart, hpreds, hjoin, ?_⟩
  rintro ⟨ts, hts, hperm⟩
  rw [hinter] at hts
  obtain rfl := Option.some.inj hts
  rw [htypes] at hperm
  exact absurd hperm.eq_nil (List.cons_ne_nil _ _)

theorem joinBlock_intersects_iff_if : ∃ w₁ w₂ w₃ : World (State Locals),
    withLocals [] (cfConstruct 0 none 0) (buildStart (.user 1 0) ⟨[], [.i32]⟩ ifDraws) =
      .ok () w₁ ∧ VisitStarts addConfig w₁ 5 w₂ ∧ 2 ≤ (predBlocks w₂.mem.func 5).length ∧
    joinBlock (computeDominators w₁.mem.func 0) 5 w₂ = .ok () w₃ ∧
    ∃ tvs, w₂.mem.locals.blockRefValues.lookup 5 = some tvs ∧
      ∀ t, t ∈ paramTypes w₃.mem.func 5 ↔ t ∈ tvs.map TypedValue.ty := by
  obtain ⟨w₁, w₂, w₃, hcf, hstart, hpreds, hjoin, -⟩ := exists_ifJoin
  obtain ⟨tvs, htvs, htypes, -⟩ := joinBlock_intersects_iff hcf hstart hpreds hjoin
  exact ⟨w₁, w₂, w₃, hcf, hstart, hpreds, hjoin, tvs, htvs, htypes⟩

/-- **Every argument for a join block has a candidate**, so the second pass never panics. -/
theorem joinBlock_candidates
    (hcf : withLocals [] (cfConstruct maxDepth none 0) (buildStart name signature draws) =
      .ok () w₁)
    (hstart : VisitStarts config w₁ v w₂) (hpreds : 2 ≤ (predBlocks w₂.mem.func v).length) :
    (∀ tvs, w₂.mem.locals.blockRefValues.lookup v = some tvs → ∀ tv ∈ tvs,
      ∀ p ∈ predBlocks w₂.mem.func v,
        getDominatorValuesWithType (dominatorsOf (computeDominators w₁.mem.func 0) p)
          w₂.mem.locals.blockDefValues tv.ty ≠ []) ∧
    (∀ w₃, joinBlock (computeDominators w₁.mem.func 0) v w₂ = .ok () w₃ →
      ∀ t ∈ paramTypes w₃.mem.func v, ∀ p ∈ predBlocks w₂.mem.func v,
        getDominatorValuesWithType (dominatorsOf (computeDominators w₁.mem.func 0) p)
          w₃.mem.locals.blockDefValues t ≠ []) ∧
    ∀ e w₃, joinBlock (computeDominators w₁.mem.func 0) v w₂ = .error e w₃ → e = .starved := by
  have hc : Constructed maxDepth name signature w₁ := ⟨draws, hcf⟩
  rw [hstart.predBlocks_eq hc] at hpreds ⊢
  obtain ⟨-, tvs, htvs, hsupplied⟩ := hstart.supplied hc hpreds
  refine ⟨fun tvs' htvs' tv htv p hp => ?_, fun w₃ hjoin t ht p hp => ?_, fun e w₃ hjoin => ?_⟩
  · obtain rfl : tvs = tvs' := Option.some.inj (htvs.symm.trans htvs')
    exact (hsupplied tv htv).pool_ne_nil (mem_predBlocks.mp hp)
  · have hvisit := (hstart.joinBlock_spec hc).of_ok hjoin
    obtain ⟨tvs', htvs', hperm⟩ := hvisit.params hpreds
    obtain rfl : tvs = tvs' := Option.some.inj (htvs.symm.trans htvs')
    obtain ⟨tv, htv, rfl⟩ := List.mem_map.mp (List.mem_dedup.mp (hperm.subset ht))
    exact ((hsupplied tv htv).grows hvisit.grows).pool_ne_nil (mem_predBlocks.mp hp)
  · exact ((hstart.joinBlock_spec hc).of_error hjoin).1

theorem joinBlock_candidates_if : ∃ w₁ w₂ w₃ : World (State Locals),
    withLocals [] (cfConstruct 0 none 0) (buildStart (.user 1 0) ⟨[], [.i32]⟩ ifDraws) =
      .ok () w₁ ∧ VisitStarts addConfig w₁ 5 w₂ ∧ 2 ≤ (predBlocks w₂.mem.func 5).length ∧
    joinBlock (computeDominators w₁.mem.func 0) 5 w₂ = .ok () w₃ ∧
    paramTypes w₃.mem.func 5 = [.i32] ∧ ∀ p ∈ predBlocks w₂.mem.func 5,
      getDominatorValuesWithType (dominatorsOf (computeDominators w₁.mem.func 0) p)
        w₃.mem.locals.blockDefValues .i32 ≠ [] := by
  obtain ⟨w₁, w₂, w₃, hcf, hstart, hpreds, hjoin, htypes, -⟩ := exists_ifJoin
  refine ⟨w₁, w₂, w₃, hcf, hstart, hpreds, hjoin, htypes, ?_⟩
  exact (joinBlock_candidates hcf hstart hpreds).2.1 w₃ hjoin .i32 (by rw [htypes]; decide)

end Runs

end Clir
