import Mathlib.Data.List.Nodup
import Mathlib.Data.List.Range
import Mathlib.Data.List.Sort
import Mathlib.Order.Lattice

/-!
# Bounded breadth-first traversals

A queue holds what is left to visit; visiting an element appends its children, and at most `n`
elements are visited.

* **`visit_eq_take_levels`**: these are the first `n` elements level by level;
* `nodup_levels`: where every element has one parent and the root none, nothing is met twice;
* `pairwise_insertionSort`: sorting by a key;
* `mem_take_iff`: the first `n` elements of an ordered list are those with fewer than `n` before them.
-/

set_option autoImplicit false

namespace McpgSdk

namespace Traverse

variable {α : Type} (children : α → List α)

/-- Visit at most `n` elements, breadth first. -/
def visit : ℕ → List α → List α
  | 0, _ => []
  | _ + 1, [] => []
  | n + 1, a :: queue => a :: visit n (queue ++ children a)

/-- The elements `n` steps below `start`, in order. -/
def level (start : List α) : ℕ → List α
  | 0 => start
  | n + 1 => (level start n).flatMap children

/-- The first `n` levels, one after the other. -/
def levels (n : ℕ) (start : List α) : List α := (List.range n).flatMap (level children start)

theorem level_succ (start : List α) (n : ℕ) :
    level children start (n + 1) = level children (start.flatMap children) n := by
  induction n with
  | zero => rfl
  | succ n ih => rw [level, ih, level]

theorem levels_succ (n : ℕ) (start : List α) :
    levels children (n + 1) start = start ++ levels children n (start.flatMap children) := by
  unfold levels
  rw [List.range_succ_eq_map, List.flatMap_cons, List.flatMap_map]
  have hlevel : (fun i => level children start (Nat.succ i)) =
      level children (start.flatMap children) := by
    funext i
    exact level_succ children start i
  rw [hlevel]
  rfl

theorem levels_nil (n : ℕ) : levels children n [] = [] := by
  induction n with
  | zero => rfl
  | succ n ih => rw [levels_succ, List.flatMap_nil, ih, List.append_nil]

/-- In the middle of a level: `current` is what is left of it and `next` what is already known of the
level below. -/
theorem visit_append {n k : ℕ} {current next : List α} (h : n ≤ k + current.length) :
    visit children n (current ++ next) =
      (current ++ levels children k (next ++ current.flatMap children)).take n := by
  induction n generalizing k current next with
  | zero => simp [visit]
  | succ n ih =>
    cases current with
    | cons a current =>
      have hlen : n ≤ k + current.length := by
        rw [List.length_cons] at h
        omega
      rw [List.cons_append, visit, List.append_assoc, ih hlen, List.flatMap_cons, List.cons_append,
        List.take_succ_cons, List.append_assoc]
    | nil =>
      rw [List.length_nil, Nat.add_zero] at h
      cases next with
      | nil => simp [visit, levels_nil]
      | cons a next =>
        obtain ⟨k, rfl⟩ : ∃ m, k = m + 1 := ⟨k - 1, by omega⟩
        rw [List.nil_append, visit, ih (Nat.le_trans (Nat.le_of_succ_le_succ h) (Nat.le_add_right _ _)),
          List.flatMap_nil, List.append_nil, List.nil_append, levels_succ, List.flatMap_cons,
          List.cons_append, List.take_succ_cons]

/-- **A bounded breadth-first traversal visits the first elements level by level.** -/
theorem visit_eq_take_levels (n : ℕ) (start : List α) :
    visit children n start = (levels children n start).take n := by
  have h : visit children n ([] ++ start) =
      ([] ++ levels children n (start ++ [].flatMap children)).take n :=
    visit_append children (Nat.le_add_right n 0)
  simpa using h

section Tree

variable {children} {root : α}

theorem level_unique (hparent : ∀ a b c, c ∈ children a → c ∈ children b → a = b)
    (hroot : ∀ a, root ∉ children a) {i j : ℕ} {x : α} (hi : x ∈ level children [root] i)
    (hj : x ∈ level children [root] j) : i = j := by
  induction i generalizing j x with
  | zero =>
    obtain rfl := List.mem_singleton.mp hi
    cases j with
    | zero => rfl
    | succ j =>
      obtain ⟨a, -, ha⟩ := List.mem_flatMap.mp hj
      exact absurd ha (hroot a)
  | succ i ih =>
    obtain ⟨a, hai, ha⟩ := List.mem_flatMap.mp hi
    cases j with
    | zero =>
      obtain rfl := List.mem_singleton.mp hj
      exact absurd ha (hroot a)
    | succ j =>
      obtain ⟨b, hbj, hb⟩ := List.mem_flatMap.mp hj
      obtain rfl := hparent a b x ha hb
      rw [ih hai hbj]

theorem nodup_level (hparent : ∀ a b c, c ∈ children a → c ∈ children b → a = b)
    (hnodup : ∀ a, (children a).Nodup) (i : ℕ) : (level children [root] i).Nodup := by
  induction i with
  | zero => exact List.nodup_singleton root
  | succ i ih =>
    refine List.nodup_flatMap.mpr ⟨fun a _ => hnodup a, ?_⟩
    refine ih.imp_of_mem fun {a b} _ _ hne => ?_
    intro c hca hcb
    exact hne (hparent a b c hca hcb)

theorem nodup_levels (hparent : ∀ a b c, c ∈ children a → c ∈ children b → a = b)
    (hroot : ∀ a, root ∉ children a) (hnodup : ∀ a, (children a).Nodup) (n : ℕ) :
    (levels children n [root]).Nodup := by
  refine List.nodup_flatMap.mpr ⟨fun i _ => nodup_level hparent hnodup i, ?_⟩
  refine List.nodup_range.imp_of_mem fun {i j} _ _ hne => ?_
  intro x hi hj
  exact hne (level_unique hparent hroot hi hj)

end Tree

theorem pairwise_insertionSort {β κ : Type} [LinearOrder κ] (f : β → κ) (l : List β) :
    (l.insertionSort fun a b => f a ≤ f b).Pairwise fun a b => f a ≤ f b := by
  have : Std.Total (fun a b : β => f a ≤ f b) := ⟨fun a b => le_total (f a) (f b)⟩
  have : IsTrans β (fun a b => f a ≤ f b) := ⟨fun a b c => le_trans⟩
  exact List.pairwise_insertionSort _ l

theorem mem_take_iff {β κ : Type} [LinearOrder κ] {f : β → κ} {l : List β}
    (h : l.Pairwise fun a b => f a < f b) {n : ℕ} {x : β} :
    x ∈ l.take n ↔ x ∈ l ∧ l.countP (fun y => decide (f y < f x)) < n := by
  induction l generalizing n with
  | nil => simp
  | cons a l ih =>
    obtain ⟨ha, hl⟩ := List.pairwise_cons.mp h
    cases n with
    | zero => simp
    | succ n =>
      rw [List.take_succ_cons, List.mem_cons, List.mem_cons, List.countP_cons]
      by_cases hxa : x = a
      · subst hxa
        have hzero : l.countP (fun y => decide (f y < f x)) = 0 :=
          List.countP_eq_zero.mpr fun y hy => by simpa using (ha y hy).le
        simp [hzero]
      · rw [ih hl]
        by_cases hxl : x ∈ l
        · have hlt := ha x hxl
          simp [hxa, hxl, hlt]
        · simp [hxa, hxl]

end Traverse

end McpgSdk
