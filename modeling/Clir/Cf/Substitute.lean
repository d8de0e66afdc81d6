import Clir.Cf.Append

set_option autoImplicit false

/-! # A construct in the place of a block

`update_predecessor` and `update_successor` put together, on a function that a construct has just
been appended to: the control flow graph afterwards is the old one with the construct substituted
for the replaced block.
-/

namespace Clir

open Cmd Cursor Graph

/-- What is asked of the branches of a function: they name blocks and tables that have been made,
the arms of a conditional branch differ, and a table has at least three destinations. -/
structure Function.BranchesOk (f : Function) : Prop where
  tables : f.TablesMade
  brif : ∀ b v x y, f.terminator b = some (.brif v x y) → x ≠ y
  table : ∀ b t, f.terminator b = some t → t.isTable → 3 ≤ t.targets.dedup.length
  made : ∀ b t, f.terminator b = some t → ∀ x ∈ t.targets, x < f.dfg.blocks.len

/-- What is asked of the blocks of a construct: its last block and no other one has no branch yet,
and its branches stay inside and have different destinations. -/
structure Placed.Ok (L : Placed) (first last : Block) : Prop where
  first_mem : first ∈ L.map Prod.fst
  last_mem : (last, none) ∈ L
  some_of_ne : ∀ p ∈ L, p.1 ≠ last → p.2.isSome
  closed : ∀ b t, (b, some t) ∈ L → ∀ x ∈ t.targets, x ∈ L.map Prod.fst
  brif : ∀ b v x y, (b, some (.brif v x y)) ∈ L → x ≠ y

/-- The edges inside a construct. -/
def Placed.Edge (L : Placed) (u v : Block) : Prop :=
  ∃ t, (u, some t) ∈ L ∧ v ∈ t.targets

namespace Appended

variable {f₀ f : Function} {L : Placed}

theorem notMem_of_lt (h : Appended f₀ f L) {b : ℕ} (hb : b < f₀.dfg.blocks.len) :
    b ∉ L.map Prod.fst := by
  intro hm
  obtain ⟨p, hp, rfl⟩ := List.mem_map.mp hm
  exact Nat.not_lt.mpr (h.fresh p hp) hb

theorem notMem_of_mem (h : Appended f₀ f L) {b : Block} (hb : b ∈ f₀.layout.blocks) :
    b ∉ L.map Prod.fst :=
  h.notMem_of_lt (f₀.blocks_lt b hb)

theorem nodup (h : Appended f₀ f L) : (L.map Prod.fst).Nodup := by
  have := f.layout.blocks_nodup
  rw [h.blocks] at this
  exact (List.nodup_append.mp this).2.1

theorem terminator_old (h : Appended f₀ f L) {b : Block} (hb : b ∉ L.map Prod.fst) :
    f.terminator b = f₀.terminator b :=
  Function.terminator_congr (h.branch_old b hb)

/-- The branches after the construct was appended. -/
theorem terminator_cases (h : Appended f₀ f L) {b : Block} {t : Terminator Block}
    (ht : f.terminator b = some t) : (b, some t) ∈ L ∨ f₀.terminator b = some t := by
  by_cases hb : b ∈ L.map Prod.fst
  · obtain ⟨p, hp, rfl⟩ := List.mem_map.mp hb
    left
    rw [← ht, h.terminator p hp]
    exact hp
  · right
    rw [← ht, h.terminator_old hb]

theorem edge_iff (h : Appended f₀ f L) {u v : Block} :
    f.Edge u v ↔ L.Edge u v ∨ f₀.Edge u v := by
  constructor
  · rintro ⟨t, ht, hv⟩
    exact (h.terminator_cases ht).imp (fun hp => ⟨t, hp, hv⟩) fun h₀ => ⟨t, h₀, hv⟩
  · rintro (⟨t, hp, hv⟩ | ⟨t, ht, hv⟩)
    · exact ⟨t, h.terminator _ hp, hv⟩
    · have hu := h.notMem_of_mem (Function.Edge.mem_blocks ⟨t, ht, hv⟩)
      exact ⟨t, (h.terminator_old hu).trans ht, hv⟩

theorem brif_ne (h : Appended f₀ f L) (h₀ : f₀.BranchesOk) {first last : Block}
    (hL : L.Ok first last) (b : Block) (v : Value) (x y : Block)
    (ht : f.terminator b = some (.brif v x y)) : x ≠ y :=
  (h.terminator_cases ht).elim (hL.brif b v x y) (h₀.brif b v x y)

end Appended

/-- Renaming a destination to one that is not there keeps the number of different destinations. -/
theorem Terminator.rename_dedup_length {R a : Block} {t : Terminator Block}
    (ha : a ∉ t.targets) : (t.rename R a).targets.dedup.length = t.targets.dedup.length := by
  have hinj : ∀ x ∈ t.targets.dedup, ∀ y ∈ t.targets.dedup,
      redirect R a x = redirect R a y → x = y := by
    intro x hx y hy hxy
    rw [List.mem_dedup] at hx hy
    by_cases hxR : x = R <;> by_cases hyR : y = R
    · rw [hxR, hyR]
    · rw [hxR, redirect_self, redirect_of_ne hyR] at hxy
      exact absurd (hxy ▸ hy) ha
    · rw [hyR, redirect_self, redirect_of_ne hxR] at hxy
      exact absurd (hxy ▸ hx) ha
    · rwa [redirect_of_ne hxR, redirect_of_ne hyR] at hxy
  have hnodup : (t.targets.dedup.map (redirect R a)).Nodup :=
    List.Nodup.map_on hinj (List.nodup_dedup _)
  have hperm : (t.rename R a).targets.dedup.Perm (t.targets.dedup.map (redirect R a)) := by
    refine (List.perm_ext_iff_of_nodup (List.nodup_dedup _) hnodup).mpr fun x => ?_
    simp [rename, List.mem_dedup]
  rw [hperm.length_eq, List.length_map]

theorem Terminator.rename_kind (R a : Block) (t : Terminator Block) :
    (t.rename R a).kind = t.kind := by
  cases t <;> rfl

theorem Terminator.rename_arg (R a : Block) (t : Terminator Block) :
    (t.rename R a).arg = t.arg := by
  cases t <;> rfl

theorem Terminator.isTable_iff (t : Terminator Block) : t.isTable ↔ t.kind = .brTable := by
  cases t <;> simp [isTable, kind]

section Replace

variable {δ : Type} {w : World (State δ)} {E : Halt → World (State δ) → Prop}
  {f₀ f : Function} {L : Placed} {R first last : Block} {t : Terminator Block}

/-- The function between the two updates: the construct is appended and every branch is renamed. -/
structure Redirected (f₀ f : Function) (L : Placed) (R first : Block) : Prop where
  blocks : f.layout.blocks = f₀.layout.blocks ++ L.map Prod.fst
  length_new : ∀ p ∈ L, (f.layout.insts p.1).length = if p.2.isSome then 1 else 0
  length_old : ∀ b, b ∉ L.map Prod.fst →
    (f.layout.insts b).length = (f₀.layout.insts b).length
  terminator_new : ∀ p ∈ L, f.terminator p.1 = p.2.map (Terminator.rename R first)
  terminator_old : ∀ b, b ∉ L.map Prod.fst →
    f.terminator b = (f₀.terminator b).map (Terminator.rename R first)
  noArgs_new : ∀ p ∈ L, f.NoArgs p.1
  noArgs_old : ∀ b, b ∉ L.map Prod.fst → f₀.NoArgs b → f.NoArgs b
  condParam : ∀ p ∈ L, f.CondParam p.1 p.2
  blocks_len : f₀.dfg.blocks.len ≤ f.dfg.blocks.len
  params_old : ∀ b < f₀.dfg.blocks.len, f.blockParams b = f₀.blockParams b
  values_len : f₀.dfg.values.len ≤ f.dfg.values.len
  values_old : ∀ v < f₀.dfg.values.len, f.dfg.values.get v = f₀.dfg.values.get v
  header : f.header = f₀.header
  tables : f.TablesMade
  apart : f₀.TablesApart → f.TablesApart

theorem Appended.redirected {f₁ f₂ : Function} (h : Appended f₀ f₁ L) (hedit : BranchEdit f₁ f₂)
    (hterm : ∀ b, f₂.terminator b = (f₁.terminator b).map (Terminator.rename R first)) :
    Redirected f₀ f₂ L R first where
  blocks := hedit.blocks.trans h.blocks
  length_new p hp := (hedit.length p.1).trans (h.length p hp)
  length_old b hb := by rw [hedit.length b, h.insts_old b hb]
  terminator_new p hp := by rw [hterm, h.terminator p hp]
  terminator_old b hb := by rw [hterm, h.terminator_old hb]
  noArgs_new p hp := hedit.noArgs p.1 (h.noArgs p hp)
  noArgs_old b hb hargs := hedit.noArgs b fun t ht => hargs t (by rwa [h.branch_old b hb] at ht)
  condParam p hp := by
    have := h.condParam p hp
    rwa [Function.CondParam, Function.blockParams, ← hedit.dfgBlocks, ← hedit.values] at this
  blocks_len := by
    rw [hedit.dfgBlocks]
    exact h.blocks_len
  params_old b hb := by
    rw [Function.blockParams, hedit.dfgBlocks]
    exact h.params_old b hb
  values_len := by
    rw [hedit.values]
    exact h.values_len
  values_old v hv := by
    rw [hedit.values]
    exact h.values_old v hv
  header := hedit.header.trans h.header
  tables := hedit.tables h.tables
  apart := hedit.apart ∘ h.apart

/-- The function after both updates. -/
structure Substituted (f₀ f : Function) (L : Placed) (R first last : Block)
    (t : Terminator Block) : Prop where
  blocks : f.layout.blocks = f₀.layout.blocks.erase R ++ L.map Prod.fst
  length_new : ∀ b ∈ L.map Prod.fst, (f.layout.insts b).length = 1
  length_old : ∀ b ∈ f₀.layout.blocks, b ≠ R →
    (f.layout.insts b).length = (f₀.layout.insts b).length
  terminator_new : ∀ b s, (b, some s) ∈ L → f.terminator b = some s
  terminator_old : ∀ b ∈ f₀.layout.blocks, b ≠ R →
    f.terminator b = (f₀.terminator b).map (Terminator.rename R first)
  terminator_last : ∃ s, f.terminator last = some s ∧ s.kind = t.kind ∧ s.arg = t.arg ∧
    s.targets.Pairwise (· < ·) ∧ ∀ x, x ∈ s.targets ↔ x ∈ (t.rename R first).targets
  noArgs_new : ∀ b ∈ L.map Prod.fst, f.NoArgs b
  noArgs_old : ∀ b ∈ f₀.layout.blocks, b ≠ R → f₀.NoArgs b → f.NoArgs b
  condParam : ∀ p ∈ L, f.CondParam p.1 p.2
  blocks_len : f₀.dfg.blocks.len ≤ f.dfg.blocks.len
  params_old : ∀ b < f₀.dfg.blocks.len, f.blockParams b = f₀.blockParams b
  values_len : f₀.dfg.values.len ≤ f.dfg.values.len
  values_old : ∀ v < f₀.dfg.values.len, f.dfg.values.get v = f₀.dfg.values.get v
  header : f.header = f₀.header
  tables : f.TablesMade
  apart : f₀.TablesApart → f.TablesApart

theorem Redirected.substituted {f₂ f₃ : Function} {s : Terminator Block}
    (h : Redirected f₀ f₂ L R first) (hL : L.Ok first last)
    (hfresh : ∀ b ∈ L.map Prod.fst, b ∉ f₀.layout.blocks) (hR : R ∈ f₀.layout.blocks)
    (hnodup : (L.map Prod.fst).Nodup) (ht : f₀.terminator R = some t)
    (hmoved : Moved f₂ f₃ last R s) (hkind : s.kind = (t.rename R first).kind)
    (harg : s.arg = (t.rename R first).arg)
    (htargets : s.targets = (ControlFlowGraph.withFunction f₂).succs R) :
    Substituted f₀ f₃ L R first last t := by
  have hRL : R ∉ L.map Prod.fst := fun hm => hfresh R hm hR
  have hlast : last ∈ L.map Prod.fst := List.mem_map_of_mem hL.last_mem
  have hout : ∀ b ∈ f₀.layout.blocks, b ∉ L.map Prod.fst ∧ b ≠ last := fun b hb =>
    ⟨fun hm => hfresh b hm hb, fun e => hfresh last hlast (e ▸ hb)⟩
  -- the entry of a block in the list is determined by the block
  have huniq : ∀ p ∈ L, p.1 = last → p.2 = none := by
    intro p hp hpl
    have := List.inj_on_of_nodup_map hnodup hp hL.last_mem hpl
    rw [this]
  have hRterm : f₂.terminator R = some (t.rename R first) := by
    rw [h.terminator_old R hRL, ht, Option.map_some]
  refine ⟨?_, ?_, ?_, ?_, ?_, ?_, ?_, ?_, ?_, ?_, ?_, ?_, ?_, ?_, hmoved.tables,
    hmoved.apart ∘ h.apart⟩
  · rw [hmoved.blocks, h.blocks, List.erase_append_left _ hR]
  · intro b hb
    by_cases hbl : b = last
    · obtain ⟨i, hi⟩ := hmoved.insts_last
      rw [hbl, hi]
      rfl
    · obtain ⟨p, hp, rfl⟩ := List.mem_map.mp hb
      have hpR : p.1 ≠ R := fun e => hRL (e ▸ hb)
      rw [hmoved.insts_other p.1 hbl hpR, h.length_new p hp, if_pos (hL.some_of_ne p hp hbl)]
  · intro b hb hbR
    rw [hmoved.insts_other b (hout b hb).2 hbR, h.length_old b (hout b hb).1]
  · intro b s' hs'
    have hbl : b ≠ last := fun e => by simpa using huniq _ hs' e
    have hbR : b ≠ R := fun e => hRL (e ▸ List.mem_map_of_mem (f := Prod.fst) hs')
    rw [Function.terminator_congr (hmoved.branch_other b hbl hbR), h.terminator_new _ hs',
      Option.map_some, Terminator.rename_eq_self fun hm => hRL (hL.closed b s' hs' R hm)]
  · intro b hb hbR
    rw [Function.terminator_congr (hmoved.branch_other b (hout b hb).2 hbR),
      h.terminator_old b (hout b hb).1]
  · refine ⟨s, hmoved.terminator_last, hkind.trans (t.rename_kind R first),
      harg.trans (t.rename_arg R first), ?_, fun x => ?_⟩
    · rw [htargets]
      exact ControlFlowGraph.succs_sorted f₂ R
    · rw [htargets, (succs_perm hRterm).mem_iff, List.mem_dedup]
  · intro b hb
    by_cases hbl : b = last
    · rw [hbl]
      exact hmoved.noArgs_last
    · obtain ⟨p, hp, rfl⟩ := List.mem_map.mp hb
      have hpR : p.1 ≠ R := fun e => hRL (e ▸ hb)
      intro t' ht'
      rw [hmoved.branch_other p.1 hbl hpR] at ht'
      exact h.noArgs_new p hp t' ht'
  · intro b hb hbR hargs t' ht'
    rw [hmoved.branch_other b (hout b hb).2 hbR] at ht'
    exact h.noArgs_old b (hout b hb).1 hargs t' ht'
  · intro p hp
    have := h.condParam p hp
    rwa [Function.CondParam, Function.blockParams, ← hmoved.dfgBlocks, ← hmoved.values] at this
  · rw [hmoved.dfgBlocks]
    exact h.blocks_len
  · intro b hb
    rw [Function.blockParams, hmoved.dfgBlocks]
    exact h.params_old b hb
  · rw [hmoved.values]
    exact h.values_len
  · intro v hv
    rw [hmoved.values]
    exact h.values_old v hv
  · exact hmoved.header.trans h.header

/-- **The edges after a replacement** are those of the graph substitution. -/
theorem Substituted.edge_iff (h : Substituted f₀ f L R first last t)
    (hL : L.Ok first last) (hR : R ∈ f₀.layout.blocks) (ht : f₀.terminator R = some t)
    {u v : Block} :
    f.Edge u v ↔ Subst f₀.Edge L.Edge R first last u v := by
  obtain ⟨s, hs, -, -, -, hmem⟩ := h.terminator_last
  have hrename : ∀ {t' : Terminator Block} {x : Block},
      x ∈ (t'.rename R first).targets ↔ ∃ y ∈ t'.targets, redirect R first y = x := by
    intro t' x
    simp [Terminator.rename]
  constructor
  · intro he
    have hu := he.mem_blocks
    rw [h.blocks] at hu
    obtain ⟨t', ht', hv⟩ := he
    rcases List.mem_append.mp hu with hu | hu
    -- a block that was there: its branch is the old one, renamed
    · obtain ⟨huR, hu⟩ := (List.Nodup.mem_erase_iff f₀.layout.blocks_nodup).mp hu
      rw [h.terminator_old u hu huR] at ht'
      obtain ⟨t₀, ht₀, rfl⟩ := Option.map_eq_some_iff.mp ht'
      obtain ⟨y, hy, rfl⟩ := hrename.mp hv
      exact .inr ⟨u, y, ⟨t₀, ht₀, hy⟩, redirect_of_ne huR, rfl⟩
    -- a block of the construct: the last one took over the branch of `R`
    · by_cases hul : u = last
      · subst hul
        rw [hs, Option.some.injEq] at ht'
        subst ht'
        obtain ⟨y, hy, rfl⟩ := hrename.mp ((hmem v).mp hv)
        exact .inr ⟨R, y, ⟨t, ht, hy⟩, redirect_self _ _, rfl⟩
      · obtain ⟨p, hp, rfl⟩ := List.mem_map.mp hu
        obtain ⟨s', hs'⟩ := Option.isSome_iff_exists.mp (hL.some_of_ne p hp hul)
        have hp' : (p.1, some s') ∈ L := hs' ▸ hp
        rw [h.terminator_new p.1 s' hp', Option.some.injEq] at ht'
        exact .inl ⟨s', hp', ht' ▸ hv⟩
  -- and each edge of the substitution is such an edge
  · rintro (⟨s', hs', hv⟩ | ⟨a, b, ⟨t₀, ht₀, hb⟩, rfl, rfl⟩)
    · exact ⟨s', h.terminator_new u s' hs', hv⟩
    · by_cases ha : a = R
      · subst ha
        rw [redirect_self]
        obtain rfl : t₀ = t := Option.some.inj (ht₀.symm.trans ht)
        exact ⟨s, hs, (hmem _).mpr (hrename.mpr ⟨b, hb, rfl⟩)⟩
      · rw [redirect_of_ne ha]
        refine ⟨t₀.rename R first, ?_, hrename.mpr ⟨b, hb, rfl⟩⟩
        rw [h.terminator_old a (Function.Edge.mem_blocks ⟨t₀, ht₀, hb⟩) ha, ht₀, Option.map_some]

end Replace

end Clir
