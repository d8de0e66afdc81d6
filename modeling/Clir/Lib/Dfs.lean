import Clir.Lib.Graph
import Mathlib.Data.List.Nodup
import Mathlib.Data.List.Perm.Basic
import Mathlib.Logic.Relation
import Mathlib.Tactic.Common

set_option autoImplicit false

/-! # Depth first search

A search with an explicit bound on its depth that records the nodes in the order they are entered
(`pre`) and in the order they are left (`post`). Only nodes with successors can deepen the search,
so a bound above their number is never reached.
-/

namespace Dfs

open Relation

variable {α : Type*}

/-- The nodes entered and the nodes left so far. -/
structure Visit (α : Type*) where
  pre : List α
  post : List α

/-- Search from `n`, which has not been entered yet. -/
def visit [DecidableEq α] (succs : α → List α) : ℕ → α → Visit α → Visit α
  | 0, _, s => s
  | fuel + 1, n, s =>
      let t := (succs n).foldl (fun t m => if m ∈ t.pre then t else visit succs fuel m t)
        ⟨s.pre ++ [n], s.post⟩
      ⟨t.pre, t.post ++ [n]⟩

/-! ## Lists that grow one element at a time -/

section Grown

variable {β : Type*} {P Q : List β → β → Prop} {l m k : List β}

/-- `m` is `l` with elements added at the end, and each one stood in the relation `P` to what was
there when it was added. -/
inductive Grown (P : List β → β → Prop) (l : List β) : List β → Prop
  | refl : Grown P l l
  | snoc {m : List β} {x : β} : Grown P l m → P m x → Grown P l (m ++ [x])

theorem Grown.isPrefix (h : Grown P l m) : l <+: m := by
  induction h with
  | refl => exact List.prefix_rfl
  | snoc _ _ ih => exact ih.trans (List.prefix_append _ _)

theorem Grown.trans (h : Grown P l m) (h' : Grown P m k) : Grown P l k := by
  induction h' with
  | refl => exact h
  | snoc _ hx ih => exact ih.snoc hx

theorem Grown.mono (h : Grown P l m) (hPQ : ∀ k x, l <+: k → P k x → Q k x) : Grown Q l m := by
  induction h with
  | refl => exact .refl
  | snoc hm hx ih => exact ih.snoc (hPQ _ _ hm.isPrefix hx)

/-- What holds when an element is added to a list that starts empty, about any of its elements. -/
theorem Grown.exists_before (h : Grown P [] l) {x : β} (hx : x ∈ l) :
    ∃ before after, l = before ++ x :: after ∧ P before x := by
  induction h with
  | refl => exact absurd hx List.not_mem_nil
  | @snoc m y _ hy ih =>
      rcases List.mem_append.mp hx with hx | hx
      · obtain ⟨before, after, rfl, hP⟩ := ih hx
        exact ⟨before, after ++ [y], by simp, hP⟩
      · rw [List.mem_singleton.mp hx]
        exact ⟨m, [], rfl, hy⟩

/-- A list of nodes that starts with `n`, each other one the successor of a node before it: every
node is reached from `n` by a walk through nodes before it. -/
theorem Grown.walks {E : β → β → Prop} {n : β}
    (h : Grown (fun before x => x = n ∨ ∃ p ∈ before, E p x) [] l) :
    Grown (fun before x => ∃ p, Graph.Walk E n x p ∧ ∀ y ∈ p, y = x ∨ y ∈ before) [] l := by
  induction h with
  | refl => exact .refl
  | snoc _ hx ih =>
      refine ih.snoc ?_
      rcases hx with rfl | ⟨p, hp, he⟩
      · exact ⟨_, .start, fun y hy => .inl (List.mem_singleton.mp hy)⟩
      · -- the walk to the predecessor, whose nodes are before it, and the edge
        obtain ⟨before, after, rfl, q, hq, hmem⟩ := ih.exists_before hp
        refine ⟨_, hq.step he, fun y hy => ?_⟩
        rcases List.mem_cons.mp hy with hy | hy
        · exact .inl hy
        · refine .inr (List.mem_append.mpr ?_)
          rcases hmem y hy with rfl | hy
          · exact .inr List.mem_cons_self
          · exact .inl hy

end Grown

/-! ## What a search adds -/

/-- What a search from the nodes `roots` adds. -/
structure Explored (succs : α → List α) (roots : List α) (s t : Visit α) : Prop where
  exists_new : ∃ new left, t.pre = s.pre ++ new ∧ t.post = s.post ++ left ∧ left.Perm new
  nodup : s.pre.Nodup → t.pre.Nodup
  roots_mem : ∀ r ∈ roots, r ∈ t.pre
  closed : ∀ x ∈ t.pre, x ∉ s.pre → ∀ y ∈ succs x, y ∈ t.pre
  reached : ∀ x ∈ t.pre, x ∉ s.pre → ∃ r ∈ roots, ReflTransGen (fun a b => b ∈ succs a) r x
  /-- What is entered is a root, or the successor of a node that was entered before. -/
  entered : Grown (fun before x => x ∈ roots ∨ ∃ p ∈ before, x ∈ succs p) s.pre t.pre
  /-- When a node below the roots is left, its successors have been left, or it is below them, or
  they were entered and not left when the search began. -/
  finished : Grown (fun before x => (∃ r ∈ roots, ReflTransGen (fun a b => b ∈ succs a) r x) ∧
      ∀ y ∈ succs x, y ∈ before ∨ ReflTransGen (fun a b => b ∈ succs a) y x ∨
        y ∈ s.pre ∧ y ∉ s.post) s.post t.post

section Rules

variable {succs : α → List α} {s t u : Visit α} {roots : List α} {n : α}

theorem Explored.mono (h : Explored succs roots s t) {x : α} (hx : x ∈ s.pre) : x ∈ t.pre := by
  obtain ⟨new, left, hpre, -, -⟩ := h.exists_new
  rw [hpre]
  exact List.mem_append_left _ hx

theorem Explored.nil : Explored succs [] s s where
  exists_new := ⟨[], [], by simp, by simp, .refl _⟩
  nodup := id
  roots_mem _ h := absurd h List.not_mem_nil
  closed x hx hx' := absurd hx hx'
  reached x hx hx' := absurd hx hx'
  entered := .refl
  finished := .refl

/-- A root that was entered before adds nothing. -/
theorem Explored.skip (hn : n ∈ s.pre) : Explored succs [n] s s :=
  { (Explored.nil : Explored succs [] s s) with
    roots_mem := fun r hr => by rwa [List.mem_singleton.mp hr]
    reached := fun x hx hx' => absurd hx hx'
    entered := .refl
    finished := .refl }

/-- What a search leaves open was open when it began: it leaves every node it enters. -/
theorem Explored.open_before (h : Explored succs roots s t) {x : α} (hpre : x ∈ t.pre)
    (hpost : x ∉ t.post) : x ∈ s.pre ∧ x ∉ s.post := by
  obtain ⟨new, left, hnew, hleft, hperm⟩ := h.exists_new
  rw [hnew, List.mem_append] at hpre
  rw [hleft, List.mem_append, not_or] at hpost
  exact ⟨hpre.resolve_right fun hx => hpost.2 (hperm.mem_iff.mpr hx), hpost.1⟩

/-- One root after others. -/
theorem Explored.append (h : Explored succs roots s t) (h' : Explored succs [n] t u) :
    Explored succs (roots ++ [n]) s u where
  exists_new := by
    obtain ⟨new, left, hpre, hpost, hperm⟩ := h.exists_new
    obtain ⟨new', left', hpre', hpost', hperm'⟩ := h'.exists_new
    exact ⟨new ++ new', left ++ left', by rw [hpre', hpre, List.append_assoc],
      by rw [hpost', hpost, List.append_assoc], hperm.append hperm'⟩
  nodup hs := h'.nodup (h.nodup hs)
  roots_mem r hr := by
    rcases List.mem_append.mp hr with hr | hr
    · exact h'.mono (h.roots_mem r hr)
    · exact h'.roots_mem r hr
  -- a node was entered below the first roots or below the last one
  closed x hx hxs y hy := by
    by_cases hxt : x ∈ t.pre
    · exact h'.mono (h.closed x hxt hxs y hy)
    · exact h'.closed x hx hxt y hy
  reached x hx hxs := by
    by_cases hxt : x ∈ t.pre
    · obtain ⟨r, hr, hreach⟩ := h.reached x hxt hxs
      exact ⟨r, List.mem_append_left _ hr, hreach⟩
    · obtain ⟨r, hr, hreach⟩ := h'.reached x hx hxt
      exact ⟨r, List.mem_append_right _ hr, hreach⟩
  entered := by
    refine (h.entered.mono fun before x _ hx => ?_).trans (h'.entered.mono fun before x _ hx => ?_)
    · exact hx.imp_left (List.mem_append_left _)
    · exact hx.imp_left (List.mem_append_right _)
  finished := by
    refine (h.finished.mono fun before x _ hx => ?_).trans
      (h'.finished.mono fun before x _ hx => ?_)
    · obtain ⟨⟨r, hr, hreach⟩, hsuccs⟩ := hx
      exact ⟨⟨r, List.mem_append_left _ hr, hreach⟩, hsuccs⟩
    · obtain ⟨⟨r, hr, hreach⟩, hsuccs⟩ := hx
      refine ⟨⟨r, List.mem_append_right _ hr, hreach⟩, fun y hy => ?_⟩
      exact (hsuccs y hy).imp_right (Or.imp_right fun hopen => h.open_before hopen.1 hopen.2)

/-- Entering `n`, exploring its successors, leaving `n`. -/
theorem Explored.node (hn : n ∉ s.pre)
    (h : Explored succs (succs n) ⟨s.pre ++ [n], s.post⟩ t) :
    Explored succs [n] s ⟨t.pre, t.post ++ [n]⟩ where
  exists_new := by
    obtain ⟨new, left, hpre, hpost, hperm⟩ := h.exists_new
    refine ⟨n :: new, left ++ [n], ?_, ?_, ?_⟩
    · rw [hpre, List.append_assoc]
      rfl
    · rw [hpost, List.append_assoc]
    · exact (List.perm_append_singleton n left).trans (hperm.cons n)
  nodup hs := h.nodup
    ((List.perm_append_singleton n s.pre).nodup_iff.mpr (List.nodup_cons.mpr ⟨hn, hs⟩))
  roots_mem r hr := by
    rw [List.mem_singleton.mp hr]
    exact h.mono (List.mem_append_right _ List.mem_cons_self)
  closed x hx hxs y hy := by
    by_cases hxn : x = n
    · exact h.roots_mem y (hxn ▸ hy)
    · exact h.closed x hx (by simp [hxs, hxn]) y hy
  reached x hx hxs := by
    refine ⟨n, List.mem_singleton_self n, ?_⟩
    by_cases hxn : x = n
    · rw [hxn]
    · obtain ⟨r, hr, hreach⟩ := h.reached x hx (by simp [hxs, hxn])
      exact .head hr hreach
  entered := by
    have hn : Grown (fun before x => x ∈ [n] ∨ ∃ p ∈ before, x ∈ succs p) s.pre (s.pre ++ [n]) :=
      Grown.refl.snoc (.inl (List.mem_singleton_self n))
    refine hn.trans (h.entered.mono fun before x hbefore hx => .inr ?_)
    rcases hx with hx | hx
    · exact ⟨n, hbefore.subset (List.mem_append_right _ (List.mem_singleton_self n)), hx⟩
    · exact hx
  finished := by
    refine (h.finished.mono fun before x _ hx => ?_).snoc
      ⟨⟨n, List.mem_singleton_self n, .refl⟩, fun y hy => ?_⟩
    · obtain ⟨⟨r, hr, hreach⟩, hsuccs⟩ := hx
      refine ⟨⟨n, List.mem_singleton_self n, .head hr hreach⟩, fun y hy => ?_⟩
      -- a successor that is still open was open before `n`, or is `n`, which `x` is below
      refine (hsuccs y hy).imp_right fun hy' => ?_
      rcases hy' with hy' | ⟨hpre, hpost⟩
      · exact .inl hy'
      · rcases List.mem_append.mp hpre with hpre | hpre
        · exact .inr ⟨hpre, hpost⟩
        · rw [List.mem_singleton.mp hpre]
          exact .inl (.head hr hreach)
    · by_cases hleft : y ∈ t.post
      · exact .inl hleft
      · obtain ⟨hpre, hpost⟩ := h.open_before (h.roots_mem y hy) hleft
        rcases List.mem_append.mp hpre with hpre | hpre
        · exact .inr (.inr ⟨hpre, hpost⟩)
        · rw [List.mem_singleton.mp hpre]
          exact .inr (.inl .refl)

end Rules

section Search

variable [DecidableEq α] {succs : α → List α} {U : List α}

/-- The nodes with successors that have not been entered. -/
private def unseen (U : List α) (s : Visit α) : ℕ := (U.filter (· ∉ s.pre)).length

omit [DecidableEq α] in
private theorem length_filter_lt {p q : α → Bool} {l : List α} (h : ∀ x ∈ l, q x → p x) {a : α}
    (ha : a ∈ l) (hp : p a) (hq : ¬ q a) : (l.filter q).length < (l.filter p).length := by
  have hsub : l.filter q = (l.filter p).filter q := by
    rw [List.filter_filter]
    refine List.filter_congr fun x hx => ?_
    cases hqx : q x with
    | false => simp
    | true => simp [h x hx hqx]
  rw [hsub]
  exact List.length_filter_lt_length_iff_exists.mpr ⟨a, List.mem_filter.mpr ⟨ha, hp⟩, hq⟩

/-- **The search explores everything** below its root, given enough depth. -/
theorem visit_explored (hU : ∀ x, succs x ≠ [] → x ∈ U) (fuel : ℕ) (n : α) (s : Visit α)
    (hn : n ∉ s.pre) (hfuel : unseen U s < fuel) :
    Explored succs [n] s (visit succs fuel n s) := by
  induction fuel generalizing n s with
  | zero => omega
  | succ fuel ih =>
      refine Explored.node hn ?_
      -- the successors one by one; once `n` is entered there is less left to enter
      have hloop : ∀ ms done t, Explored succs done ⟨s.pre ++ [n], s.post⟩ t →
          (ms ≠ [] → succs n ≠ []) → Explored succs (done ++ ms) ⟨s.pre ++ [n], s.post⟩
            (ms.foldl (fun t m => if m ∈ t.pre then t else visit succs fuel m t) t) := by
        intro ms
        induction ms with
        | nil =>
            intro done t h _
            rw [List.append_nil]
            exact h
        | cons m ms ihm =>
            intro done t h hms
            have hnU := hU n (hms (by simp))
            have hstep : Explored succs [m] t
                (if m ∈ t.pre then t else visit succs fuel m t) := by
              split_ifs with hm
              · exact Explored.skip hm
              · refine ih m t hm (Nat.lt_of_lt_of_le ?_ (Nat.le_of_lt_succ hfuel))
                have hnt : n ∈ t.pre := h.mono (List.mem_append_right _ List.mem_cons_self)
                refine length_filter_lt (fun x _ hx => ?_) hnU (by simpa using hn)
                  (by simpa using hnt)
                simp only [decide_eq_true_eq] at hx ⊢
                exact fun hxs => hx (h.mono (List.mem_append_left _ hxs))
            have := ihm (done ++ [m]) _ (h.append hstep) fun _ => hms (by simp)
            rwa [List.append_assoc] at this
      simpa using hloop (succs n) [] _ Explored.nil id

/-- A search from the start: every node entered is reachable, and every reachable node is
entered. -/
theorem mem_visit_iff (hU : ∀ x, succs x ≠ [] → x ∈ U) {fuel : ℕ} (hfuel : U.length < fuel)
    (n x : α) : x ∈ (visit succs fuel n ⟨[], []⟩).pre ↔
      ReflTransGen (fun a b => b ∈ succs a) n x := by
  have h := visit_explored hU fuel n ⟨[], []⟩ List.not_mem_nil
    (Nat.lt_of_le_of_lt (List.length_filter_le _ _) hfuel)
  constructor
  · intro hx
    obtain ⟨r, hr, hreach⟩ := h.reached x hx List.not_mem_nil
    rwa [List.mem_singleton.mp hr] at hreach
  · intro hreach
    induction hreach with
    | refl => exact h.roots_mem n (List.mem_singleton_self n)
    | tail _ he ih => exact h.closed _ ih List.not_mem_nil _ he

theorem visit_pre_nodup (hU : ∀ x, succs x ≠ [] → x ∈ U) {fuel : ℕ} (hfuel : U.length < fuel)
    (n : α) : (visit succs fuel n ⟨[], []⟩).pre.Nodup :=
  (visit_explored hU fuel n ⟨[], []⟩ List.not_mem_nil
    (Nat.lt_of_le_of_lt (List.length_filter_le _ _) hfuel)).nodup List.nodup_nil

/-- A loop that only adds to the nodes entered. -/
private theorem exists_foldl_pre {step : α → Visit α → Visit α}
    (h : ∀ m t, ∃ new, (step m t).pre = t.pre ++ new) (ms : List α) (t : Visit α) :
    ∃ new, (ms.foldl (fun t m => if m ∈ t.pre then t else step m t) t).pre = t.pre ++ new := by
  induction ms generalizing t with
  | nil => exact ⟨[], (List.append_nil _).symm⟩
  | cons m ms ih =>
      obtain ⟨new, hnew⟩ := ih (if m ∈ t.pre then t else step m t)
      rw [List.foldl_cons, hnew]
      split_ifs
      · exact ⟨new, rfl⟩
      · obtain ⟨new', hnew'⟩ := h m t
        exact ⟨new' ++ new, by rw [hnew', List.append_assoc]⟩

private theorem exists_visit_pre (fuel : ℕ) (n : α) (s : Visit α) :
    ∃ new, (visit succs fuel n s).pre = s.pre ++ new := by
  induction fuel generalizing n s with
  | zero => exact ⟨[], (List.append_nil _).symm⟩
  | succ fuel ih =>
      obtain ⟨new, hnew⟩ := exists_foldl_pre ih (succs n) ⟨s.pre ++ [n], s.post⟩
      exact ⟨n :: new, hnew.trans (List.append_assoc _ _ _)⟩

/-- The root is entered first. -/
theorem visit_pre_head (fuel : ℕ) (n : α) :
    (visit succs (fuel + 1) n ⟨[], []⟩).pre.head? = some n := by
  obtain ⟨new, hnew⟩ := exists_foldl_pre (exists_visit_pre fuel) (succs n) ⟨[n], []⟩
  exact (congrArg List.head? hnew).trans rfl

/-- Along the order of entering, every node but the root comes after one it is a successor of. -/
theorem visit_pre_entered (hU : ∀ x, succs x ≠ [] → x ∈ U) {fuel : ℕ} (hfuel : U.length < fuel)
    (n : α) : Grown (fun before x => x = n ∨ ∃ p ∈ before, x ∈ succs p) []
      (visit succs fuel n ⟨[], []⟩).pre :=
  (visit_explored hU fuel n ⟨[], []⟩ List.not_mem_nil
    (Nat.lt_of_le_of_lt (List.length_filter_le _ _) hfuel)).entered.mono
      fun _ _ _ hx => hx.imp_left List.mem_singleton.mp

/-- Along the order of leaving, a node comes after its successors, apart from those it is below. -/
theorem visit_post_finished (hU : ∀ x, succs x ≠ [] → x ∈ U) {fuel : ℕ} (hfuel : U.length < fuel)
    (n : α) : Grown (fun before x => ∀ y ∈ succs x,
        y ∈ before ∨ ReflTransGen (fun a b => b ∈ succs a) y x) []
      (visit succs fuel n ⟨[], []⟩).post :=
  (visit_explored hU fuel n ⟨[], []⟩ List.not_mem_nil
    (Nat.lt_of_le_of_lt (List.length_filter_le _ _) hfuel)).finished.mono
      fun _ _ _ hx y hy => (hx.2 y hy).imp_right
        fun h => h.resolve_right fun hopen => List.not_mem_nil hopen.1

/-- The root is left last. -/
theorem visit_post_getLast (fuel : ℕ) (n : α) :
    (visit succs (fuel + 1) n ⟨[], []⟩).post.getLast? = some n :=
  List.getLast?_concat

/-- The nodes left are the nodes entered. -/
theorem visit_post_perm (hU : ∀ x, succs x ≠ [] → x ∈ U) {fuel : ℕ} (hfuel : U.length < fuel)
    (n : α) : (visit succs fuel n ⟨[], []⟩).post.Perm (visit succs fuel n ⟨[], []⟩).pre := by
  obtain ⟨new, left, hpre, hpost, hperm⟩ := (visit_explored hU fuel n ⟨[], []⟩ List.not_mem_nil
    (Nat.lt_of_le_of_lt (List.length_filter_le _ _) hfuel)).exists_new
  rw [hpre, hpost]
  exact hperm

end Search

end Dfs
