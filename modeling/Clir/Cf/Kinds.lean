import Clir.Cf.Substitute

set_option autoImplicit false

/-! # The four kinds of construct

One description of a construct for all four kinds: the blocks it places, its first and its last
block, and the value it is returned as.
-/

namespace Clir

open Cmd Cursor Graph

/-- A call of one of the four construct functions. -/
inductive ConstructKind
  | sequential (blockNum : ℕ)
  | ifElse
  | whileBlocks
  | switch (caseNum : ℕ)

namespace ConstructKind

/-- The call. -/
def make {δ : Type} : ConstructKind → M δ BlockType
  | sequential m => Clir.sequential m
  | ifElse => Clir.ifElse
  | whileBlocks => Clir.whileBlocks
  | switch m => Clir.switchBlocks m

/-- A sequence has a block. -/
def Valid : ConstructKind → Prop
  | sequential m => 0 < m
  | _ => True

/-- The calls that `cf_construct` makes: a sequence has at least two blocks, and a switch enough
cases for a table. -/
def Drawn : ConstructKind → Prop
  | sequential m => 2 ≤ m
  | switch m => 2 ≤ m
  | _ => True

theorem Drawn.valid {k : ConstructKind} (h : k.Drawn) : k.Valid := by
  cases k with
  | sequential m =>
      have : 2 ≤ m := h
      exact show 0 < m by omega
  | _ => trivial

/-- The blocks placed when `n` is the first free block and `v` the first free value. -/
def placed (n : Block) (v : Value) : ConstructKind → Placed
  | sequential m => chainPlaced (List.range' n m)
  | ifElse => ifElsePlaced n v
  | whileBlocks => whilePlaced n v
  | switch m => switchPlaced n v m

def last (n : ℕ) : ConstructKind → ℕ
  | sequential m => n + m - 1
  | ifElse => n + 3
  | whileBlocks => n + 2
  | switch _ => n + 2

/-- What the call returns. -/
def blockType (n : ℕ) : ConstructKind → BlockType
  | sequential m => .sequential ((List.range' n m).map .block)
  | ifElse => .ifElse (.block n) (.block (n + 1)) (.block (n + 2)) (.block (n + 3))
  | whileBlocks => .while_ (.block n) (.block (n + 1)) (.block (n + 2))
  | switch m =>
      .switch (.block n) (.block (n + 1)) ((List.range' (n + 3) m).map .block) (.block (n + 2))

section Runs

variable {δ : Type} {w : World (State δ)} {E : Halt → World (State δ) → Prop}

theorem make_spec {k : ConstructKind} (hk : k.Valid) (htab : w.mem.func.TablesMade) :
    Runs k.make w
      (fun c w' => c = k.blockType w.mem.func.dfg.blocks.len ∧
        Appended w.mem.func w'.mem.func
          (k.placed w.mem.func.dfg.blocks.len w.mem.func.dfg.values.len) ∧ Quiet w w') E := by
  cases k with
  | sequential m => exact sequential_spec htab hk
  | ifElse => exact ifElse_spec htab
  | whileBlocks => exact whileBlocks_spec htab
  | switch m => exact switchBlocks_spec htab m

theorem getFirstBlock_eq {k : ConstructKind} (hk : k.Valid) (n : ℕ) :
    (k.blockType n).getFirstBlock w = .ok n w := by
  cases k with
  | sequential m =>
      obtain ⟨m, rfl⟩ := Nat.exists_eq_succ_of_ne_zero (Nat.pos_iff_ne_zero.mp hk)
      rfl
  | _ => rfl

theorem getLastBlock_eq {k : ConstructKind} (hk : k.Valid) (n : ℕ) :
    (k.blockType n).getLastBlock w = .ok (k.last n) w := by
  cases k with
  | sequential m =>
      have hm : 0 < m := hk
      have hget : ((List.range' n m).map BlockType.block)[((List.range' n m).map
          BlockType.block).length - 1]? = some (.block (n + m - 1)) := by
        rw [List.getElem?_map, List.length_map, List.length_range', List.getElem?_range' (by omega)]
        have : n + 1 * (m - 1) = n + m - 1 := by omega
        simp only [Option.map_some, this]
      simp only [blockType, BlockType.getLastBlock, hget]
      rfl
  | _ => rfl

end Runs

/-! ## The shape of the placed blocks -/

theorem mem_chainPlaced_range {n m b : ℕ} {o : Option (Terminator Block)} :
    (b, o) ∈ chainPlaced (List.range' n m) ↔
      n ≤ b ∧ b + 1 < n + m ∧ o = some (.jump (b + 1)) ∨ n ≤ b ∧ b + 1 = n + m ∧ o = none := by
  -- on the length, since the last block of the chain is the one without a jump
  induction m generalizing n with
  | zero =>
      simp only [List.range'_zero, chainPlaced, List.not_mem_nil, false_iff]
      omega
  | succ m ih =>
      cases m with
      | zero =>
          have : (b = n ∧ o = none) ↔ (n ≤ b ∧ b + 1 < n + (0 + 1) ∧ o = some (.jump (b + 1)) ∨
              n ≤ b ∧ b + 1 = n + (0 + 1) ∧ o = none) := by
            constructor
            · rintro ⟨rfl, rfl⟩
              exact .inr ⟨le_rfl, rfl, rfl⟩
            · rintro (h | ⟨h₁, h₂, rfl⟩)
              · omega
              · exact ⟨by omega, rfl⟩
          simpa [chainPlaced] using this
      | succ m =>
          rw [List.range'_succ, List.range'_succ, chainPlaced, ← List.range'_succ, List.mem_cons,
            ih, Prod.mk.injEq]
          constructor
          · rintro (⟨rfl, rfl⟩ | ⟨h₁, h₂, rfl⟩ | ⟨h₁, h₂, rfl⟩)
            · exact .inl ⟨le_rfl, by omega, rfl⟩
            · exact .inl ⟨by omega, by omega, rfl⟩
            · exact .inr ⟨by omega, by omega, rfl⟩
          · rintro (⟨h₁, h₂, rfl⟩ | ⟨h₁, h₂, rfl⟩)
            · rcases Nat.eq_or_lt_of_le h₁ with rfl | h
              · exact .inl ⟨rfl, rfl⟩
              · exact .inr (.inl ⟨by omega, by omega, rfl⟩)
            · exact .inr (.inr ⟨by omega, by omega, rfl⟩)

theorem mem_ifElsePlaced {n v b : ℕ} {o : Option (Terminator Block)} :
    (b, o) ∈ ifElsePlaced n v ↔
      b = n ∧ o = some (.brif v (n + 1) (n + 2)) ∨ b = n + 1 ∧ o = some (.jump (n + 3)) ∨
        b = n + 2 ∧ o = some (.jump (n + 3)) ∨ b = n + 3 ∧ o = none := by
  simp [ifElsePlaced]

theorem mem_whilePlaced {n v b : ℕ} {o : Option (Terminator Block)} :
    (b, o) ∈ whilePlaced n v ↔
      b = n ∧ o = some (.brif v (n + 1) (n + 2)) ∨ b = n + 1 ∧ o = some (.jump n) ∨
        b = n + 2 ∧ o = none := by
  simp [whilePlaced]

theorem mem_switchPlaced {n v m b : ℕ} {o : Option (Terminator Block)} :
    (b, o) ∈ switchPlaced n v m ↔
      b = n ∧ o = some (.brTable v (n + 1) (List.range' (n + 3) m)) ∨
        (n + 3 ≤ b ∧ b < n + 3 + m) ∧ o = some (.jump (n + 2)) ∨
        b = n + 1 ∧ o = some (.jump (n + 2)) ∨ b = n + 2 ∧ o = none := by
  simp only [switchPlaced, List.cons_append, List.mem_cons, Prod.mk.injEq, List.mem_append,
    List.mem_map, List.not_mem_nil, or_false]
  have : (∃ a ∈ List.range' (n + 3) m, a = b ∧ some (.jump (n + 2)) = o) ↔
      (n + 3 ≤ b ∧ b < n + 3 + m) ∧ o = some (.jump (n + 2)) := by
    rw [← List.mem_range'_1]
    constructor
    · rintro ⟨a, ha, rfl, rfl⟩
      exact ⟨ha, rfl⟩
    · rintro ⟨ha, rfl⟩
      exact ⟨b, ha, rfl, rfl⟩
  rw [this]

/-- The number of blocks of a construct. -/
def size : ConstructKind → ℕ
  | sequential m => m
  | ifElse => 4
  | whileBlocks => 3
  | switch m => m + 3

theorem mem_placed_fst {k : ConstructKind} {n v b : ℕ} :
    b ∈ (k.placed n v).map Prod.fst ↔ n ≤ b ∧ b < n + k.size := by
  cases k with
  | sequential m =>
      rw [placed, chainPlaced_fst]
      exact List.mem_range'_1
  | ifElse =>
      simp only [placed, ifElsePlaced, List.map_cons, List.map_nil, List.mem_cons,
        List.not_mem_nil, or_false, size]
      omega
  | whileBlocks =>
      simp only [placed, whilePlaced, List.map_cons, List.map_nil, List.mem_cons,
        List.not_mem_nil, or_false, size]
      omega
  | switch m =>
      have h : ((List.range' (n + 3) m).map fun b : ℕ =>
          (b, some (Terminator.jump (n + 2)))).map Prod.fst = List.range' (n + 3) m := by
        simp [Function.comp_def]
      simp only [placed, switchPlaced, List.cons_append, List.map_cons, List.map_append, h,
        List.map_nil, List.mem_cons, List.mem_append, List.mem_range'_1, List.not_mem_nil,
        or_false, size]
      omega

theorem last_mem {k : ConstructKind} (hk : k.Valid) (n v : ℕ) :
    (k.last n, none) ∈ k.placed n v := by
  cases k with
  | sequential m =>
      have hm : 0 < m := hk
      exact mem_chainPlaced_range.mpr (.inr ⟨by simp only [last]; omega,
        by simp only [last]; omega, rfl⟩)
  | ifElse => exact mem_ifElsePlaced.mpr (by simp [last])
  | whileBlocks => exact mem_whilePlaced.mpr (by simp [last])
  | switch m => exact mem_switchPlaced.mpr (by simp [last])

/-- A jump to another block of the construct satisfies what is asked of its branches. -/
private theorem branch_jump {n b s c : ℕ} (h : n ≤ c ∧ c < n + s ∧ c ≠ b) :
    (∀ x : ℕ, x ∈ (Terminator.jump c).targets → n ≤ x ∧ x < n + s ∧ x ≠ b) ∧
      (Terminator.jump c).targets.Pairwise (· < ·) := by
  refine ⟨fun x hx => ?_, List.pairwise_singleton _ _⟩
  obtain rfl : x = c := List.mem_singleton.mp hx
  exact h

/-- The branches of a construct lead to its other blocks, and their destinations increase. -/
theorem branch_placed {k : ConstructKind} {n v b : ℕ} {t : Terminator Block}
    (h : (b, some t) ∈ k.placed n v) :
    (∀ x : ℕ, x ∈ t.targets → n ≤ x ∧ x < n + k.size ∧ x ≠ b) ∧ t.targets.Pairwise (· < ·) := by
  cases k with
  | sequential m =>
      rcases mem_chainPlaced_range.mp h with ⟨h₁, h₂, h₃⟩ | ⟨-, -, h₃⟩
      · obtain rfl : t = .jump (b + 1) := Option.some.inj h₃
        exact branch_jump (by simp only [size]; omega)
      · simp at h₃
  | ifElse =>
      rcases mem_ifElsePlaced.mp h with ⟨rfl, h₃⟩ | ⟨rfl, h₃⟩ | ⟨rfl, h₃⟩ | ⟨-, h₃⟩ <;>
        simp only [Option.some.injEq, reduceCtorEq] at h₃ <;> subst h₃ <;>
        simp [Terminator.targets, size]
  | whileBlocks =>
      rcases mem_whilePlaced.mp h with ⟨rfl, h₃⟩ | ⟨rfl, h₃⟩ | ⟨-, h₃⟩ <;>
        simp only [Option.some.injEq, reduceCtorEq] at h₃ <;> subst h₃ <;>
        simp [Terminator.targets, size]
  | switch m =>
      rcases mem_switchPlaced.mp h with ⟨rfl, h₃⟩ | ⟨⟨h₁, h₂⟩, h₃⟩ | ⟨rfl, h₃⟩ | ⟨-, h₃⟩
      · obtain rfl : t = .brTable v (b + 1) (List.range' (b + 3) m) := Option.some.inj h₃
        -- the default block is numbered before the exit, the cases after it
        have hcase : ∀ x : ℕ, x ∈ List.range' (b + 3) m → b + 3 ≤ x ∧ x < b + 3 + m :=
          fun x hx => List.mem_range'_1.mp hx
        refine ⟨fun x hx => ?_, List.pairwise_cons.mpr ⟨fun x hx => ?_, List.pairwise_lt_range'⟩⟩
        · rcases List.mem_cons.mp hx with hx | hx
          · have hx : x = b + 1 := hx
            simp only [size]
            omega
          · have := hcase x hx
            simp only [size]
            omega
        · have := (hcase x hx).1
          exact show b + 1 < (x : ℕ) by omega
      · obtain rfl : t = .jump (n + 2) := Option.some.inj h₃
        exact branch_jump (by simp only [size]; omega)
      · obtain rfl : t = .jump (n + 2) := Option.some.inj h₃
        exact branch_jump (by simp only [size]; omega)
      · simp at h₃

theorem some_of_ne_last {k : ConstructKind} {n v b : ℕ} {o : Option (Terminator Block)}
    (h : (b, o) ∈ k.placed n v) (hb : b ≠ k.last n) : ∃ t, o = some t := by
  cases k with
  | sequential m =>
      rcases mem_chainPlaced_range.mp h with ⟨-, -, rfl⟩ | ⟨h₁, h₂, -⟩
      · exact ⟨_, rfl⟩
      · simp only [last] at hb
        omega
  | ifElse =>
      rcases mem_ifElsePlaced.mp h with ⟨-, rfl⟩ | ⟨-, rfl⟩ | ⟨-, rfl⟩ | ⟨rfl, -⟩
      exacts [⟨_, rfl⟩, ⟨_, rfl⟩, ⟨_, rfl⟩, absurd rfl hb]
  | whileBlocks =>
      rcases mem_whilePlaced.mp h with ⟨-, rfl⟩ | ⟨-, rfl⟩ | ⟨rfl, -⟩
      exacts [⟨_, rfl⟩, ⟨_, rfl⟩, absurd rfl hb]
  | switch m =>
      rcases mem_switchPlaced.mp h with ⟨-, rfl⟩ | ⟨-, rfl⟩ | ⟨-, rfl⟩ | ⟨rfl, -⟩
      exacts [⟨_, rfl⟩, ⟨_, rfl⟩, ⟨_, rfl⟩, absurd rfl hb]

theorem placed_ok {k : ConstructKind} (hk : k.Valid) (n v : ℕ) :
    (k.placed n v).Ok n (k.last n) where
  first_mem := by
    refine mem_placed_fst.mpr ⟨le_rfl, ?_⟩
    cases k with
    | sequential m => exact Nat.lt_add_of_pos_right hk
    | _ => simp [size]
  last_mem := last_mem hk n v
  some_of_ne := by
    rintro ⟨b, o⟩ hp hne
    obtain ⟨t, rfl⟩ := some_of_ne_last hp hne
    rfl
  closed := by
    intro b t hp x hx
    obtain ⟨h₁, h₂, -⟩ := (branch_placed hp).1 x hx
    exact mem_placed_fst.mpr ⟨h₁, h₂⟩
  brif := by
    intro b v x y hp
    have := (branch_placed hp).2
    simp only [Terminator.targets, List.pairwise_cons, List.mem_singleton, forall_eq] at this
    exact ne_of_lt this.1

/-- The rank of a block: its number, but the exit of a switch comes after its cases. -/
def rank (k : ConstructKind) (n x : ℕ) : ℕ :=
  match k with
  | switch m => if x = n + 2 then n + 3 + m else x
  | _ => x

/-- How many steps it takes at most from a block to the last one. Only a loop's body goes back to
get there. -/
def distance (k : ConstructKind) (n x : ℕ) : ℕ :=
  match k with
  | sequential m => n + m - x
  | ifElse => n + 3 - x
  | whileBlocks => if x = n + 2 then 0 else x + 1 - n
  | switch _ => if x = n + 2 then 0 else if x = n then 2 else 1

/-- The edges of a construct whose first block is `n`, in numbers. -/
def EdgeAt (k : ConstructKind) (n a b : ℕ) : Prop :=
  match k with
  | sequential m => n ≤ a ∧ a + 1 < n + m ∧ b = a + 1
  | ifElse => a = n ∧ (b = n + 1 ∨ b = n + 2) ∨ (a = n + 1 ∨ a = n + 2) ∧ b = n + 3
  | whileBlocks => a = n ∧ (b = n + 1 ∨ b = n + 2) ∨ a = n + 1 ∧ b = n
  | switch m =>
      a = n ∧ (b = n + 1 ∨ n + 3 ≤ b ∧ b < n + 3 + m) ∨
        (a = n + 1 ∨ n + 3 ≤ a ∧ a < n + 3 + m) ∧ b = n + 2

theorem edge_placed {k : ConstructKind} {n v a b : ℕ} :
    (k.placed n v).Edge a b ↔ k.EdgeAt n a b := by
  -- for each kind, the edges are read off the list of its blocks
  cases k with
  | sequential m =>
      simp only [Placed.Edge, placed, mem_chainPlaced_range, EdgeAt]
      constructor
      · rintro ⟨t, ⟨h₁, h₂, h₃⟩ | ⟨-, -, h₃⟩, hb⟩
        · obtain rfl := Option.some.inj h₃
          exact ⟨h₁, h₂, List.mem_singleton.mp hb⟩
        · simp at h₃
      · rintro ⟨h₁, h₂, rfl⟩
        exact ⟨_, .inl ⟨h₁, h₂, rfl⟩, List.mem_singleton_self _⟩
  | ifElse =>
      simp only [Placed.Edge, placed, mem_ifElsePlaced, EdgeAt]
      constructor
      · rintro ⟨t, ⟨rfl, h₃⟩ | ⟨rfl, h₃⟩ | ⟨rfl, h₃⟩ | ⟨-, h₃⟩, hb⟩ <;>
          simp only [Option.some.injEq, reduceCtorEq] at h₃ <;> subst h₃ <;>
          simpa [Terminator.targets] using hb
      · rintro (⟨rfl, hb⟩ | ⟨rfl | rfl, rfl⟩)
        · exact ⟨_, .inl ⟨rfl, rfl⟩, by simpa [Terminator.targets] using hb⟩
        · exact ⟨_, .inr (.inl ⟨rfl, rfl⟩), List.mem_singleton_self _⟩
        · exact ⟨_, .inr (.inr (.inl ⟨rfl, rfl⟩)), List.mem_singleton_self _⟩
  | whileBlocks =>
      simp only [Placed.Edge, placed, mem_whilePlaced, EdgeAt]
      constructor
      · rintro ⟨t, ⟨rfl, h₃⟩ | ⟨rfl, h₃⟩ | ⟨-, h₃⟩, hb⟩ <;>
          simp only [Option.some.injEq, reduceCtorEq] at h₃ <;> subst h₃ <;>
          simpa [Terminator.targets] using hb
      · rintro (⟨rfl, hb⟩ | ⟨rfl, rfl⟩)
        · exact ⟨_, .inl ⟨rfl, rfl⟩, by simpa [Terminator.targets] using hb⟩
        · exact ⟨_, .inr (.inl ⟨rfl, rfl⟩), List.mem_singleton_self _⟩
  | switch m =>
      simp only [Placed.Edge, placed, mem_switchPlaced, EdgeAt]
      constructor
      · rintro ⟨t, ⟨rfl, h₃⟩ | ⟨ha, h₃⟩ | ⟨rfl, h₃⟩ | ⟨-, h₃⟩, hb⟩ <;>
          simp only [Option.some.injEq, reduceCtorEq] at h₃ <;> subst h₃
        · exact .inl ⟨rfl, by simpa [Terminator.targets, List.mem_range'_1] using hb⟩
        · exact .inr ⟨.inr ha, List.mem_singleton.mp hb⟩
        · exact .inr ⟨.inl rfl, List.mem_singleton.mp hb⟩
      · rintro (⟨rfl, hb⟩ | ⟨rfl | ha, rfl⟩)
        · exact ⟨_, .inl ⟨rfl, rfl⟩, by simpa [Terminator.targets, List.mem_range'_1] using hb⟩
        · exact ⟨_, .inr (.inr (.inl ⟨rfl, rfl⟩)), List.mem_singleton_self _⟩
        · exact ⟨_, .inr (.inl ⟨ha, rfl⟩), List.mem_singleton_self _⟩

theorem edgeAt_rank {k : ConstructKind} {n a b : ℕ} (h : k.EdgeAt n a b) :
    k.rank n a < k.rank n b ∨ b = n := by
  cases k <;> simp only [EdgeAt, rank] at * <;> grind

/-- The predecessor through which a block other than the first is reached first. -/
theorem exists_edgeAt_to {k : ConstructKind} {n x : ℕ} (h₁ : n < x) (h₂ : x < n + k.size) :
    ∃ y, k.EdgeAt n y x ∧ k.rank n y < k.rank n x := by
  cases k with
  | sequential m =>
      refine ⟨x - 1, ?_⟩
      simp only [EdgeAt, rank, size] at *
      omega
  | ifElse =>
      refine ⟨if x = n + 3 then n + 1 else n, ?_⟩
      simp only [EdgeAt, rank, size] at *
      split_ifs <;> omega
  | whileBlocks =>
      have hx : x = n + 1 ∨ x = n + 2 := by
        simp only [size] at h₂
        omega
      exact ⟨n, .inl ⟨rfl, hx⟩, h₁⟩
  | switch m =>
      refine ⟨if x = n + 2 then n + 1 else n, ?_⟩
      simp only [EdgeAt, rank, size] at *
      split_ifs <;> omega

/-- The successor that leads a block other than the last towards the last. -/
theorem exists_edgeAt_from {k : ConstructKind} {n x : ℕ} (h₁ : n ≤ x) (h₂ : x < n + k.size)
    (h₃ : x ≠ k.last n) : ∃ y, k.EdgeAt n x y ∧ k.distance n y < k.distance n x := by
  cases k with
  | sequential m =>
      simp only [last, size] at h₂ h₃
      exact ⟨x + 1, ⟨h₁, by omega, rfl⟩, by simp only [distance]; omega⟩
  | ifElse =>
      refine ⟨if x = n then n + 1 else n + 3, ?_⟩
      simp only [EdgeAt, distance, last, size] at *
      split_ifs <;> omega
  | whileBlocks =>
      refine ⟨if x = n then n + 2 else n, ?_⟩
      simp only [EdgeAt, distance, last, size] at *
      split_ifs <;> omega
  | switch m =>
      refine ⟨if x = n then n + 1 else n + 2, ?_⟩
      simp only [EdgeAt, distance, last, size] at *
      split_ifs <;> omega

/-- **Every construct is a region** from its first to its last block. -/
theorem region {k : ConstructKind} (hk : k.Valid) (n v : ℕ) :
    Region (k.placed n v).Edge {b | b ∈ (k.placed n v).map Prod.fst} n (k.last n) := by
  have hok := placed_ok hk n v
  refine Region.of_measures (k.rank n) (k.distance n) (n + k.size + 1) hok.first_mem
    (List.mem_map.mpr ⟨_, hok.last_mem, rfl⟩) ?_ ?_ ?_ ?_ ?_
  · rintro a b ⟨t, hp, hb⟩
    exact ⟨List.mem_map.mpr ⟨_, hp, rfl⟩, hok.closed a t hp b hb⟩
  · intro x hx
    have := mem_placed_fst.mp hx
    cases k <;> simp only [rank, size] at * <;> try omega
    split_ifs <;> omega
  · intro a b h
    exact edgeAt_rank (edge_placed.mp h)
  · intro x hx hne
    obtain ⟨h₁, h₂⟩ := mem_placed_fst.mp hx
    obtain ⟨y, hy, hlt⟩ := exists_edgeAt_to (lt_of_le_of_ne h₁ (Ne.symm hne)) h₂
    exact ⟨y, edge_placed.mpr hy, hlt⟩
  · intro x hx hne
    obtain ⟨h₁, h₂⟩ := mem_placed_fst.mp hx
    obtain ⟨y, hy, hlt⟩ := exists_edgeAt_from h₁ h₂ hne
    exact ⟨y, edge_placed.mpr hy, hlt⟩

end ConstructKind

end Clir
