import Clir.Cf.Refinement

set_option autoImplicit false

/-! # The skeleton invariant

What `cf_construct` keeps true from level to level: the function is a *skeleton*, that is a flow
graph from the entry block to the end block in which every block but the end block holds one
instruction, its branch. Replacing a block by a construct gives a skeleton again.
-/

namespace Clir

open Cmd Cursor Graph

/-- A control flow skeleton between the blocks `entry` and `exit`. -/
structure Skeleton (f : Function) (entry exit : Block) : Prop where
  head : f.layout.blocks.head? = some entry
  flow : FlowGraph f.Edge {b | b ∈ f.layout.blocks} entry exit
  exit_empty : f.layout.insts exit = []
  one : ∀ b ∈ f.layout.blocks, b ≠ exit → (f.layout.insts b).length = 1
  branch : ∀ b ∈ f.layout.blocks, b ≠ exit → ∃ t, f.terminator b = some t
  nodup : ∀ b t, f.terminator b = some t → t.targets.Nodup
  table : ∀ b t, f.terminator b = some t → t.isTable → 3 ≤ t.targets.length
  irrefl : ∀ b, ¬ f.Edge b b
  entry_jump : ∃ d, f.terminator entry = some (.jump d)
  tables : f.TablesMade
  apart : f.TablesApart
  noArgs : ∀ b ∈ f.layout.blocks, f.NoArgs b
  condParam : ∀ b ∈ f.layout.blocks, f.CondParam b (f.terminator b)

theorem Skeleton.branchesOk {f : Function} {entry exit : Block} (h : Skeleton f entry exit) :
    f.BranchesOk where
  tables := h.tables
  brif b v x y ht := by
    have := h.nodup b _ ht
    simpa [Terminator.targets] using this
  table b t ht hkind := by
    rw [(h.nodup b t ht).dedup]
    exact h.table b t ht hkind
  made b t ht x hx := f.blocks_lt x (h.flow.edge_mem b x ⟨t, ht, hx⟩).2

/-- What a replacement needs to know about the branches of a construct. -/
structure Placed.Shaped (L : Placed) : Prop where
  sorted : ∀ b s, (b, some s) ∈ L → s.targets.Pairwise (· < ·)
  irrefl : ∀ b s, (b, some s) ∈ L → b ∉ s.targets
  table : ∀ b s, (b, some s) ∈ L → s.isTable → 3 ≤ s.targets.length

theorem ConstructKind.placed_shaped {k : ConstructKind} (hk : k.Drawn) (n v : ℕ) :
    (k.placed n v).Shaped where
  sorted b s hp := (branch_placed hp).2
  irrefl b s hp hm := ((branch_placed hp).1 b hm).2.2 rfl
  table b s hp hkind := by
    cases k with
    | sequential m =>
        rcases mem_chainPlaced_range.mp hp with ⟨-, -, h⟩ | ⟨-, -, h⟩ <;>
          simp only [Option.some.injEq, reduceCtorEq] at h
        simp [h, Terminator.isTable] at hkind
    | ifElse =>
        rcases mem_ifElsePlaced.mp hp with ⟨-, h⟩ | ⟨-, h⟩ | ⟨-, h⟩ | ⟨-, h⟩ <;>
          simp only [Option.some.injEq, reduceCtorEq] at h <;>
          simp [h, Terminator.isTable] at hkind
    | whileBlocks =>
        rcases mem_whilePlaced.mp hp with ⟨-, h⟩ | ⟨-, h⟩ | ⟨-, h⟩ <;>
          simp only [Option.some.injEq, reduceCtorEq] at h <;>
          simp [h, Terminator.isTable] at hkind
    | switch m =>
        have hm : 2 ≤ m := hk
        rcases mem_switchPlaced.mp hp with ⟨-, h⟩ | ⟨-, h⟩ | ⟨-, h⟩ | ⟨-, h⟩ <;>
          simp only [Option.some.injEq, reduceCtorEq] at h <;> subst h
        · simp only [Terminator.targets, List.length_cons, List.length_range']
          omega
        · simp [Terminator.isTable] at hkind
        · simp [Terminator.isTable] at hkind

section Step

variable {f₀ f : Function} {L : Placed} {R first last entry exit : Block} {t : Terminator Block}

theorem Terminator.rename_nodup {a : Block} (ha : a ∉ t.targets) (h : t.targets.Nodup) :
    (t.rename R a).targets.Nodup := by
  have hlen := rename_dedup_length (R := R) ha
  rw [h.dedup] at hlen
  have hmap : (t.rename R a).targets.length = t.targets.length := by
    rw [rename, targets_map, List.length_map]
  rw [← List.dedup_eq_self]
  exact (List.dedup_sublist _).eq_of_length (hlen.trans hmap.symm)

/-- The branch that the last block inherits has the same number of destinations. -/
theorem Substituted.last_length (h : Substituted f₀ f L R first last t) {s : Terminator Block}
    (hs : f.terminator last = some s) (hfirst : first ∉ t.targets) (hnodup : t.targets.Nodup) :
    s.kind = t.kind ∧ s.targets.Pairwise (· < ·) ∧ s.targets.length = t.targets.length := by
  obtain ⟨s', hs', hkind, -, hsorted, hmem⟩ := h.terminator_last
  obtain rfl : s' = s := Option.some.inj (hs'.symm.trans hs)
  have hperm : s'.targets.Perm (t.rename R first).targets :=
    (List.perm_ext_iff_of_nodup (hsorted.imp fun h => Nat.ne_of_lt h)
      (Terminator.rename_nodup hfirst hnodup)).mpr hmem
  refine ⟨hkind, hsorted, ?_⟩
  rw [hperm.length_eq, Terminator.rename, Terminator.targets_map, List.length_map]

/-- The branches after a replacement: those of the construct, the inherited one, and the old ones
renamed. -/
theorem Substituted.terminator_cases (h : Substituted f₀ f L R first last t)
    (hL : L.Ok first last) {b : Block} {s : Terminator Block} (hs : f.terminator b = some s) :
    (b, some s) ∈ L ∨ b = last ∨
      b ∈ f₀.layout.blocks ∧ b ≠ R ∧ ∃ s₀, f₀.terminator b = some s₀ ∧ s = s₀.rename R first := by
  obtain ⟨i, _, hi, -, -⟩ := Function.exists_of_terminator hs
  have hb : b ∈ f.layout.blocks :=
    Layout.mem_blocks_of_mem_insts (List.mem_of_mem_getLast? hi)
  rw [h.blocks, List.mem_append] at hb
  rcases hb with hb | hb
  · obtain ⟨hbR, hb⟩ := (List.Nodup.mem_erase_iff f₀.layout.blocks_nodup).mp hb
    rw [h.terminator_old b hb hbR] at hs
    obtain ⟨s₀, hs₀, rfl⟩ := Option.map_eq_some_iff.mp hs
    exact .inr (.inr ⟨hb, hbR, s₀, hs₀, rfl⟩)
  · by_cases hbl : b = last
    · exact .inr (.inl hbl)
    · obtain ⟨p, hp, rfl⟩ := List.mem_map.mp hb
      obtain ⟨s', hs'⟩ := Option.isSome_iff_exists.mp (hL.some_of_ne p hp hbl)
      have hp' : (p.1, some s') ∈ L := hs' ▸ hp
      rw [h.terminator_new p.1 s' hp', Option.some.injEq] at hs
      exact .inl (hs ▸ hp')

theorem Substituted.flow (h : Substituted f₀ f L R first last t) (hL : L.Ok first last)
    (hreg : Region L.Edge {b | b ∈ L.map Prod.fst} first last)
    (hout : ∀ b ∈ L.map Prod.fst, b ∉ f₀.layout.blocks)
    (hflow : FlowGraph f₀.Edge {b | b ∈ f₀.layout.blocks} entry exit)
    (hR : R ∈ f₀.layout.blocks) (hentry : entry ≠ R) (hexit : exit ≠ R)
    (ht : f₀.terminator R = some t) : FlowGraph f.Edge {b | b ∈ f.layout.blocks} entry exit := by
  have hdisj : Disjoint {b | b ∈ L.map Prod.fst} {b | b ∈ f₀.layout.blocks} :=
    Set.disjoint_left.mpr hout
  refine (hflow.subst hR hentry hexit hreg hdisj).congr (fun u v => (h.edge_iff hL hR ht).symm) ?_
  intro x
  simp only [Set.mem_union, Set.mem_sdiff, Set.mem_ofPred_eq, Set.mem_singleton_iff, h.blocks,
    List.mem_append, List.Nodup.mem_erase_iff f₀.layout.blocks_nodup, and_comm]

/-- A parameter that was there before is still the condition of its block. -/
theorem Substituted.condParam_old (h : Substituted f₀ f L R first last t) {b : Block}
    (hb : b ∈ f₀.layout.blocks) (hbR : b ≠ R) (h₀ : f₀.CondParam b (f₀.terminator b)) :
    f.CondParam b (f.terminator b) := by
  have hparams := h.params_old b (f₀.blocks_lt b hb)
  rcases h₀ with h₀ | ⟨v, s, h₁, h₂, h₃, h₄, h₅⟩
  · exact .inl (hparams.trans h₀)
  · refine .inr ⟨v, s.rename R first, hparams.trans h₁, lt_of_lt_of_le h₂ h.values_len,
      (h.values_old v h₂).trans h₃, ?_, ?_⟩
    · rw [h.terminator_old b hb hbR, h₄, Option.map_some]
    · rwa [Terminator.rename_kind]

theorem Substituted.condParam_new (h : Substituted f₀ f L R first last t) {b : Block}
    (hb : b ∈ L.map Prod.fst) :
    f.CondParam b (f.terminator b) := by
  obtain ⟨⟨b, o⟩, hp, rfl⟩ := List.mem_map.mp hb
  have hcond := h.condParam _ hp
  cases o with
  | none =>
      -- only a block with a branch of its own was given a parameter
      rcases hcond with hcond | ⟨v, s, -, -, -, hs, -⟩
      · exact .inl hcond
      · simp at hs
  | some s => rwa [h.terminator_new b s hp]

/-- **Replacing a block of a skeleton** by a construct gives a skeleton. -/
theorem Skeleton.substituted (hs : Skeleton f₀ entry exit)
    (h : Substituted f₀ f L R first last t) (hL : L.Ok first last) (hshape : L.Shaped)
    (hreg : Region L.Edge {b | b ∈ L.map Prod.fst} first last)
    (hfresh : ∀ b ∈ L.map Prod.fst, f₀.dfg.blocks.len ≤ b) (hR : R ∈ f₀.layout.blocks)
    (hentry : entry ≠ R) (hexit : exit ≠ R) (ht : f₀.terminator R = some t) :
    Skeleton f entry exit := by
  have hout : ∀ b ∈ L.map Prod.fst, b ∉ f₀.layout.blocks := fun b hb hm =>
    Nat.not_lt.mpr (hfresh b hb) (f₀.blocks_lt b hm)
  have hnew : ∀ b s, f₀.terminator b = some s → first ∉ s.targets := fun b s hb hm =>
    Nat.not_lt.mpr (hfresh first hL.first_mem) (hs.branchesOk.made b s hb first hm)
  have hlast := hout last hL.last_fst
  have hlen : ∀ {s}, f.terminator last = some s → s.kind = t.kind ∧
      s.targets.Pairwise (· < ·) ∧ s.targets.length = t.targets.length := fun hs' =>
    h.last_length hs' (hnew R t ht) (hs.nodup R t ht)
  have hmem : ∀ b, b ∈ f.layout.blocks ↔
      b ∈ f₀.layout.blocks ∧ b ≠ R ∨ b ∈ L.map Prod.fst := by
    intro b
    rw [h.blocks, List.mem_append, List.Nodup.mem_erase_iff f₀.layout.blocks_nodup, and_comm]
  have hexit_old := hs.flow.exit_mem
  refine ⟨?_, h.flow hL hreg hout hs.flow hR hentry hexit ht, ?_, ?_, ?_, ?_, ?_, ?_, ?_,
    h.tables, h.apart hs.apart, ?_, ?_⟩
  · obtain ⟨rest, hrest⟩ := List.head?_eq_some_iff.mp hs.head
    rw [h.blocks, hrest, List.erase_cons_tail (by simpa using hentry)]
    rfl
  · have := h.length_old exit hexit_old hexit
    rw [hs.exit_empty] at this
    exact List.length_eq_zero_iff.mp this
  · intro b hb hne
    rcases (hmem b).mp hb with ⟨hb, hbR⟩ | hb
    · rw [h.length_old b hb hbR]
      exact hs.one b hb hne
    · exact h.length_new b hb
  · intro b hb hne
    rcases (hmem b).mp hb with ⟨hb, hbR⟩ | hb
    · obtain ⟨s, hs'⟩ := hs.branch b hb hne
      exact ⟨_, by rw [h.terminator_old b hb hbR, hs', Option.map_some]⟩
    · by_cases hbl : b = last
      · obtain ⟨s, hs', -⟩ := h.terminator_last
        exact ⟨s, hbl ▸ hs'⟩
      · obtain ⟨p, hp, rfl⟩ := List.mem_map.mp hb
        obtain ⟨s, hs'⟩ := Option.isSome_iff_exists.mp (hL.some_of_ne p hp hbl)
        exact ⟨s, h.terminator_new p.1 s (hs' ▸ hp)⟩
  · intro b s hb
    rcases h.terminator_cases hL hb with hp | rfl | ⟨-, -, s₀, hs₀, rfl⟩
    · exact (hshape.sorted b s hp).imp fun h => Nat.ne_of_lt h
    · exact (hlen hb).2.1.imp fun h => Nat.ne_of_lt h
    · exact Terminator.rename_nodup (hnew b s₀ hs₀) (hs.nodup b s₀ hs₀)
  · intro b s hb hkind
    rcases h.terminator_cases hL hb with hp | rfl | ⟨-, -, s₀, hs₀, rfl⟩
    · exact hshape.table b s hp hkind
    · rw [(hlen hb).2.2]
      rw [Terminator.isTable_iff, (hlen hb).1, ← Terminator.isTable_iff] at hkind
      exact hs.table R t ht hkind
    · rw [Terminator.isTable_iff, Terminator.rename_kind, ← Terminator.isTable_iff] at hkind
      rw [Terminator.rename, Terminator.targets_map, List.length_map]
      exact hs.table b s₀ hs₀ hkind
  · intro b he
    rcases (h.edge_iff hL hR ht).mp he with ⟨s, hp, hb⟩ | ⟨a, c, hac, ha, hc⟩
    · exact hshape.irrefl b s hp hb
    · -- the two ends of an old edge differ, and at most one of them is replaced
      have hne : a ≠ c := fun e => hs.irrefl a (by rwa [← e] at hac)
      obtain ⟨ham, hcm⟩ := hs.flow.edge_mem a c hac
      by_cases haR : a = R
      · rw [haR, redirect_self] at ha
        rw [redirect_of_ne fun e => hne (haR.trans e.symm)] at hc
        exact hlast (by rw [ha, ← hc]; exact hcm)
      · rw [redirect_of_ne haR] at ha
        by_cases hcR : c = R
        · rw [hcR, redirect_self] at hc
          exact hout first hL.first_mem (by rw [hc, ← ha]; exact ham)
        · rw [redirect_of_ne hcR] at hc
          exact hne (ha.trans hc.symm)
  · obtain ⟨d, hd⟩ := hs.entry_jump
    exact ⟨_, by rw [h.terminator_old entry hs.flow.root_mem hentry, hd]; rfl⟩
  · intro b hb
    rcases (hmem b).mp hb with ⟨hb, hbR⟩ | hb
    · exact h.noArgs_old b hb hbR (hs.noArgs b hb)
    · exact h.noArgs_new b hb
  · intro b hb
    rcases (hmem b).mp hb with ⟨hb, hbR⟩ | hb
    · exact h.condParam_old hb hbR (hs.condParam b hb)
    · exact h.condParam_new hb

end Step

/-! ## The first construct -/

/-- The first construct between the entry block and the end block. -/
structure Rooted (f₀ f : Function) (L : Placed) (entry exit first last : Block) : Prop where
  blocks : f.layout.blocks = f₀.layout.blocks ++ L.map Prod.fst
  insts_entry : (f.layout.insts entry).length = 1
  insts_last : (f.layout.insts last).length = 1
  insts_exit : f.layout.insts exit = []
  insts_new : ∀ p ∈ L, p.1 ≠ last → (f.layout.insts p.1).length = if p.2.isSome then 1 else 0
  terminator_entry : f.terminator entry = some (.jump first)
  terminator_last : f.terminator last = some (.jump exit)
  terminator_exit : f.terminator exit = none
  terminator_new : ∀ p ∈ L, p.1 ≠ last → f.terminator p.1 = p.2
  noArgs : ∀ b ∈ f.layout.blocks, f.NoArgs b
  condParam : ∀ p ∈ L, f.CondParam p.1 p.2
  params_old : ∀ b ∈ f₀.layout.blocks, f.blockParams b = []
  tables : f.TablesMade
  apart : f.TablesApart

section Root

variable {f₀ f : Function} {L : Placed} {entry exit first last : Block}

theorem Rooted.terminator_cases (h : Rooted f₀ f L entry exit first last)
    (h₀ : f₀.layout.blocks = [entry, exit]) {b : Block} {s : Terminator Block}
    (hs : f.terminator b = some s) :
    (b, some s) ∈ L ∨ b = last ∧ s = .jump exit ∨ b = entry ∧ s = .jump first := by
  obtain ⟨i, _, hi, -, -⟩ := Function.exists_of_terminator hs
  have hb : b ∈ f.layout.blocks :=
    Layout.mem_blocks_of_mem_insts (List.mem_of_mem_getLast? hi)
  rw [h.blocks, h₀, List.mem_append, List.mem_cons, List.mem_singleton] at hb
  rcases hb with (rfl | rfl) | hb
  · rw [h.terminator_entry, Option.some.injEq] at hs
    exact .inr (.inr ⟨rfl, hs.symm⟩)
  · rw [h.terminator_exit] at hs
    simp at hs
  · by_cases hbl : b = last
    · rw [hbl, h.terminator_last, Option.some.injEq] at hs
      exact .inr (.inl ⟨hbl, hs.symm⟩)
    · obtain ⟨p, hp, rfl⟩ := List.mem_map.mp hb
      rw [h.terminator_new p hp hbl] at hs
      exact .inl (hs ▸ hp)

theorem Rooted.edge_iff (h : Rooted f₀ f L entry exit first last)
    (h₀ : f₀.layout.blocks = [entry, exit]) (huniq : ∀ s, (last, some s) ∉ L) {u v : Block} :
    f.Edge u v ↔ L.Edge u v ∨ u = entry ∧ v = first ∨ u = last ∧ v = exit := by
  constructor
  · rintro ⟨s, hs, hv⟩
    rcases h.terminator_cases h₀ hs with hp | ⟨rfl, rfl⟩ | ⟨rfl, rfl⟩
    · exact .inl ⟨s, hp, hv⟩
    · exact .inr (.inr ⟨rfl, List.mem_singleton.mp hv⟩)
    · exact .inr (.inl ⟨rfl, List.mem_singleton.mp hv⟩)
  · rintro (⟨s, hp, hv⟩ | ⟨rfl, rfl⟩ | ⟨rfl, rfl⟩)
    · have hne : u ≠ last := fun e => huniq s (e ▸ hp)
      exact ⟨s, h.terminator_new _ hp hne, hv⟩
    · exact ⟨_, h.terminator_entry, List.mem_singleton_self _⟩
    · exact ⟨_, h.terminator_last, List.mem_singleton_self _⟩

/-- The first construct is substituted for the middle of a line. -/
theorem Rooted.flow (h : Rooted f₀ f L entry exit first last)
    (h₀ : f₀.layout.blocks = [entry, exit]) (hne : entry ≠ exit)
    (huniq : ∀ s, (last, some s) ∉ L)
    (hreg : Region L.Edge {b | b ∈ L.map Prod.fst} first last)
    (hout : ∀ b ∈ L.map Prod.fst, b ∉ f₀.layout.blocks) :
    FlowGraph f.Edge {b | b ∈ f.layout.blocks} entry exit := by
  -- the middle of the line is a block that does not exist
  let R : Block := f.dfg.blocks.len
  have hlt : ∀ b ∈ f.layout.blocks, b ≠ R := fun b hb => Nat.ne_of_lt (f.blocks_lt b hb)
  have hmem : ∀ b, b ∈ f.layout.blocks ↔ (b = entry ∨ b = exit) ∨ b ∈ L.map Prod.fst := by
    intro b
    rw [h.blocks, h₀, List.mem_append, List.mem_cons, List.mem_singleton]
  have hentry : entry ≠ R := hlt entry ((hmem entry).mpr (.inl (.inl rfl)))
  have hexit : exit ≠ R := hlt exit ((hmem exit).mpr (.inl (.inr rfl)))
  have hdisj : Disjoint {b | b ∈ L.map Prod.fst} {entry, R, exit} := by
    refine Set.disjoint_left.mpr fun b hb hm => ?_
    have hb' : b ∉ f₀.layout.blocks := hout b hb
    rw [h₀, List.mem_cons, List.mem_singleton, not_or] at hb'
    rcases hm with rfl | rfl | rfl
    · exact hb'.1 rfl
    · exact hlt _ ((hmem _).mpr (.inr hb)) rfl
    · exact hb'.2 rfl
  refine ((FlowGraph.line hentry hexit.symm hne).subst (by simp) hentry hexit hreg hdisj).congr
    (fun u v => ?_) fun x => ?_
  · rw [h.edge_iff h₀ huniq]
    refine or_congr Iff.rfl ⟨?_, ?_⟩
    · rintro ⟨a, b, ⟨rfl, rfl⟩ | ⟨rfl, rfl⟩, rfl, rfl⟩
      · exact .inl ⟨redirect_of_ne hentry, redirect_self _ _⟩
      · exact .inr ⟨redirect_self _ _, redirect_of_ne hexit⟩
    · rintro (⟨rfl, rfl⟩ | ⟨rfl, rfl⟩)
      · exact ⟨u, R, .inl ⟨rfl, rfl⟩, redirect_of_ne hentry, redirect_self _ _⟩
      · exact ⟨R, v, .inr ⟨rfl, rfl⟩, redirect_self _ _, redirect_of_ne hexit⟩
  · simp only [Set.mem_union, Set.mem_sdiff, Set.mem_insert_iff, Set.mem_singleton_iff,
      Set.mem_ofPred_eq, hmem]
    refine or_congr ⟨?_, ?_⟩ Iff.rfl
    · rintro ⟨rfl | rfl | rfl, hx⟩
      · exact .inl rfl
      · exact absurd rfl hx
      · exact .inr rfl
    · rintro (rfl | rfl)
      · exact ⟨.inl rfl, hentry⟩
      · exact ⟨.inr (.inr rfl), hexit⟩

/-- Appending the construct and the two jumps. -/
theorem Appended.rooted {f₁ : Function} (h : Appended f₀ f₁ L)
    (h₀ : f₀.layout.blocks = [entry, exit]) (hne : entry ≠ exit) (hL : L.Ok first last)
    (hempty : ∀ b ∈ f₀.layout.blocks, f₀.layout.insts b = [])
    (hparams : ∀ b ∈ f₀.layout.blocks, f₀.blockParams b = []) (he : entry ∈ f₁.layout.blocks)
    (hl : last ∈ (f₁.pushInst entry (.jump ⟨first, []⟩) [] he).layout.blocks) :
    Rooted f₀ ((f₁.pushInst entry (.jump ⟨first, []⟩) [] he).pushInst last (.jump ⟨exit, []⟩) [] hl)
      L entry exit first last := by
  have hentry : entry ∈ f₀.layout.blocks := by simp [h₀]
  have hexit : exit ∈ f₀.layout.blocks := by simp [h₀]
  have hout := fun b (hb : b ∈ f₀.layout.blocks) => h.notMem_of_mem hb
  have hel : entry ≠ last := fun e => hout entry hentry (e ▸ hL.last_fst)
  have hxl : exit ≠ last := fun e => hout exit hexit (e ▸ hL.last_fst)
  have hpe : ∀ p ∈ L, p.1 ≠ entry := fun p hp e =>
    hout entry hentry (e ▸ List.mem_map.mpr ⟨p, hp, rfl⟩)
  have hbranch : ∀ b, b ≠ entry → b ≠ last →
      ((f₁.pushInst entry (.jump ⟨first, []⟩) [] he).pushInst last (.jump ⟨exit, []⟩) [] hl).branch
        b = f₁.branch b := fun b hbe hbl => by
    rw [Function.pushInst_branch_of_ne hbl, Function.pushInst_branch_of_ne hbe]
  have hentry₁ : ((f₁.pushInst entry (.jump ⟨first, []⟩) [] he).pushInst last (.jump ⟨exit, []⟩)
      [] hl).branch entry = some (.jump ⟨first, []⟩) := by
    rw [Function.pushInst_branch_of_ne hel, Function.pushInst_branch_self]
    rfl
  have hlast₁ : ((f₁.pushInst entry (.jump ⟨first, []⟩) [] he).pushInst last (.jump ⟨exit, []⟩)
      [] hl).branch last = some (.jump ⟨exit, []⟩) := by
    rw [Function.pushInst_branch_self]
    rfl
  have hempty₁ : ∀ b ∈ f₀.layout.blocks, f₁.layout.insts b = [] := fun b hb => by
    rw [h.insts_old b (hout b hb), hempty b hb]
  have hexit₁ : f₁.branch exit = none := by
    simp [Function.branch, Layout.lastInst, hempty₁ exit hexit]
  refine ⟨h.blocks, ?_, ?_, ?_, ?_, ?_, ?_, ?_, ?_, ?_, h.condParam, ?_, ?_, ?_⟩
  · rw [Function.pushInst_insts_of_ne hel, Function.pushInst_insts_self, hempty₁ entry hentry]
    rfl
  · have hlast₂ := h.length _ hL.last_mem
    rw [Function.pushInst_insts_self, Function.pushInst_insts_of_ne hel.symm, List.length_append]
    simpa using hlast₂
  · rw [Function.pushInst_insts_of_ne hxl, Function.pushInst_insts_of_ne hne.symm,
      hempty₁ exit hexit]
  · intro p hp hpl
    rw [Function.pushInst_insts_of_ne hpl, Function.pushInst_insts_of_ne (hpe p hp), h.length p hp]
  · rw [Function.terminator, hentry₁]
    rfl
  · rw [Function.terminator, hlast₁]
    rfl
  · rw [Function.terminator, hbranch exit hne.symm hxl, hexit₁]
    rfl
  · intro p hp hpl
    rw [Function.terminator_congr (hbranch p.1 (hpe p hp) hpl), h.terminator p hp]
  · intro b hb t ht c hc
    by_cases hbe : b = entry
    · rw [hbe, hentry₁, Option.some.injEq] at ht
      subst ht
      rw [List.mem_singleton.mp hc]
    by_cases hbl : b = last
    · rw [hbl, hlast₁, Option.some.injEq] at ht
      subst ht
      rw [List.mem_singleton.mp hc]
    rw [hbranch b hbe hbl] at ht
    rw [Function.pushInst_blocks, Function.pushInst_blocks, h.blocks, List.mem_append] at hb
    rcases hb with hb | hb
    · rw [h.branch_old b (hout b hb), Function.branch, Layout.lastInst, hempty b hb] at ht
      simp at ht
    · obtain ⟨p, hp, rfl⟩ := List.mem_map.mp hb
      exact h.noArgs p hp t ht c hc
  · intro b hb
    exact (h.params_old b (f₀.blocks_lt b hb)).trans (hparams b hb)
  · exact Function.pushInst_tablesMade (Function.pushInst_tablesMade h.tables (by simp)) (by simp)
  · refine Function.pushInst_tablesApart (Function.pushInst_tablesApart (h.apart ?_) (by simp))
      (by simp)
    -- the two blocks that were there before are empty
    intro b c k hb
    obtain ⟨i, v, hi, -⟩ := Function.tableOf_eq_some.mp hb
    have hmem : i ∈ f₀.layout.insts b := List.mem_of_mem_getLast? hi
    simp [hempty b (Layout.mem_blocks_of_mem_insts hmem)] at hmem

/-- **The first construct makes a skeleton.** -/
theorem Rooted.skeleton (h : Rooted f₀ f L entry exit first last)
    (h₀ : f₀.layout.blocks = [entry, exit]) (hne : entry ≠ exit) (hL : L.Ok first last)
    (hshape : L.Shaped) (hnodup : (L.map Prod.fst).Nodup)
    (hreg : Region L.Edge {b | b ∈ L.map Prod.fst} first last)
    (hout : ∀ b ∈ L.map Prod.fst, b ∉ f₀.layout.blocks) : Skeleton f entry exit := by
  have hpair : ∀ p ∈ L, p.1 = last → p.2 = none := fun p hp hpl => by
    rw [List.inj_on_of_nodup_map hnodup hp hL.last_mem hpl]
  have huniq : ∀ s, (last, some s) ∉ L := fun s hp => by simpa using hpair _ hp rfl
  have hentry : entry ∈ f₀.layout.blocks := by simp [h₀]
  have hexit : exit ∈ f₀.layout.blocks := by simp [h₀]
  have hmem : ∀ b, b ∈ f.layout.blocks ↔ (b = entry ∨ b = exit) ∨ b ∈ L.map Prod.fst := by
    intro b
    rw [h.blocks, h₀, List.mem_append, List.mem_cons, List.mem_singleton]
  -- a branch belongs to the construct, or it is one of the two jumps that tie it in
  have hcases : ∀ {b : Block} {s : Terminator Block}, f.terminator b = some s →
      (b, some s) ∈ L ∨ s.targets.length = 1 ∧ s.isTable = false := by
    intro b s hs
    rcases h.terminator_cases h₀ hs with hp | ⟨-, rfl⟩ | ⟨-, rfl⟩
    exacts [.inl hp, .inr ⟨rfl, rfl⟩, .inr ⟨rfl, rfl⟩]
  refine ⟨?_, h.flow h₀ hne huniq hreg hout, h.insts_exit, ?_, ?_, ?_, ?_, ?_,
    ⟨first, h.terminator_entry⟩, h.tables, h.apart, h.noArgs, ?_⟩
  · rw [h.blocks, h₀]
    rfl
  -- every block but the exit holds one instruction, its branch
  · intro b hb hbx
    rcases (hmem b).mp hb with (rfl | rfl) | hb
    · exact h.insts_entry
    · exact absurd rfl hbx
    · by_cases hbl : b = last
      · exact hbl ▸ h.insts_last
      · obtain ⟨p, hp, rfl⟩ := List.mem_map.mp hb
        rw [h.insts_new p hp hbl, if_pos (hL.some_of_ne p hp hbl)]
  · intro b hb hbx
    rcases (hmem b).mp hb with (rfl | rfl) | hb
    · exact ⟨_, h.terminator_entry⟩
    · exact absurd rfl hbx
    · by_cases hbl : b = last
      · exact ⟨_, hbl ▸ h.terminator_last⟩
      · obtain ⟨p, hp, rfl⟩ := List.mem_map.mp hb
        rw [h.terminator_new p hp hbl]
        exact Option.isSome_iff_exists.mp (hL.some_of_ne p hp hbl)
  · intro b s hs
    rcases hcases hs with hp | ⟨hlen, -⟩
    · exact (hshape.sorted b s hp).imp fun h => Nat.ne_of_lt h
    · obtain ⟨x, hx⟩ := List.length_eq_one_iff.mp hlen
      rw [hx]
      exact List.nodup_singleton x
  · intro b s hs hkind
    rcases hcases hs with hp | ⟨-, hk⟩
    · exact hshape.table b s hp hkind
    · rw [hk] at hkind
      simp at hkind
  -- no block branches to itself: the two jumps lead into the construct and out of it
  · intro b he
    rcases (h.edge_iff h₀ huniq).mp he with ⟨s, hp, hb⟩ | ⟨hb₁, hb₂⟩ | ⟨hb₁, hb₂⟩
    · exact hshape.irrefl b s hp hb
    · exact hout first hL.first_mem (by rw [← hb₂, hb₁]; exact hentry)
    · exact hout last hL.last_fst (by rw [← hb₁, hb₂]; exact hexit)
  -- only a block with a condition has a parameter
  · intro b hb
    rcases (hmem b).mp hb with hb | hb
    · refine .inl (h.params_old b ?_)
      rw [h₀]
      simpa using hb
    · obtain ⟨p, hp, rfl⟩ := List.mem_map.mp hb
      by_cases hbl : p.1 = last
      · rcases h.condParam p hp with hc | ⟨v, s, -, -, -, hs, -⟩
        · exact .inl hc
        · rw [hpair p hp hbl] at hs
          simp at hs
      · rw [h.terminator_new p hp hbl]
        exact h.condParam p hp

end Root

end Clir
