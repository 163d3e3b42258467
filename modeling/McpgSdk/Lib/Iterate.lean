import Mathlib.Order.Nat
import Mathlib.Tactic.Choose

/-!
# Loops whose measure may stand still

A partial step is taken until there is none. Each step keeps or raises a bounded measure, so that a loop
without an end is at one measure from some point on.

* `after`: where some steps lead, `none` when the loop stops before;
* `Stutters`: steps without an end at one measure;
* **`stops_iff`**: the loop stops exactly when it does not come to stutter.
-/

set_option autoImplicit false

namespace McpgSdk

namespace Iterate

variable {α : Type} (f : α → Option α) (μ : α → ℕ)

/-- Where `n` steps lead. -/
def after : ℕ → α → Option α
  | 0, a => some a
  | n + 1, a => (f a).bind (after n)

/-- From `a` on every step is followed by another one, none of which changes the measure. -/
def Stutters (a : α) : Prop :=
  ∃ x : ℕ → α, x 0 = a ∧ ∀ i, f (x i) = some (x (i + 1)) ∧ μ (x (i + 1)) = μ (x i)

variable {f μ}

theorem after_add (n m : ℕ) (a : α) : after f (n + m) a = (after f n a).bind (after f m) := by
  induction n generalizing a with
  | zero => rw [Nat.zero_add, after, Option.bind_some]
  | succ n ih =>
    rw [Nat.succ_add, after, after, Option.bind_assoc]
    apply congrArg
    funext b
    exact ih b

theorem after_succ (n : ℕ) (a : α) : after f (n + 1) a = (after f n a).bind f := by
  have hone : after f 1 = f := by
    funext b
    exact Option.bind_fun_some (f b)
  rw [after_add, hone]

theorem after_eq_none_of_le {n m : ℕ} (h : n ≤ m) {a : α} (hn : after f n a = none) :
    after f m a = none := by
  obtain ⟨k, rfl⟩ := Nat.exists_eq_add_of_le h
  rw [after_add, hn]
  rfl

theorem after_of_chain {x : ℕ → α} (hx : ∀ i, f (x i) = some (x (i + 1))) (n : ℕ) :
    after f n (x 0) = some (x n) := by
  induction n with
  | zero => rfl
  | succ n ih => rw [after_succ, ih, Option.bind_some, hx n]

/-- A loop that goes on for ever at one measure stutters. -/
theorem stutters_of_after {a : α} (h : ∀ n, ∃ b, after f n a = some b ∧ μ b = μ a) :
    Stutters f μ a := by
  choose x hx hμ using h
  refine ⟨x, (Option.some.inj (hx 0)).symm, fun i => ⟨?_, (hμ (i + 1)).trans (hμ i).symm⟩⟩
  have hsucc := hx (i + 1)
  rw [after_succ, hx i, Option.bind_some] at hsucc
  exact hsucc

theorem measure_after {bound : ℕ} (hstep : ∀ a b, f a = some b → μ a ≤ μ b ∧ μ b ≤ bound) {n : ℕ}
    {a b : α} (h : after f n a = some b) : μ a ≤ μ b ∧ (b = a ∨ μ b ≤ bound) := by
  induction n generalizing b with
  | zero =>
    obtain rfl := Option.some.inj h
    exact ⟨le_rfl, .inl rfl⟩
  | succ n ih =>
    rw [after_succ] at h
    obtain ⟨c, hc, hcb⟩ := Option.bind_eq_some_iff.mp h
    obtain ⟨hle, hbound⟩ := hstep c b hcb
    exact ⟨(ih hc).1.trans hle, .inr hbound⟩

/-- **A loop with a bounded measure that does not fall stops** if and only if it leads to no state from
which it stutters. -/
theorem stops_iff {bound : ℕ} (hstep : ∀ a b, f a = some b → μ a ≤ μ b ∧ μ b ≤ bound) (a : α) :
    (∃ n, after f n a = none) ↔ ∀ n b, after f n a = some b → ¬ Stutters f μ b := by
  constructor
  · rintro ⟨n, hn⟩ m b hb ⟨x, rfl, hx⟩
    have hlong : after f (m + n) a = none := after_eq_none_of_le (Nat.le_add_left n m) hn
    rw [after_add, hb, Option.bind_some, after_of_chain fun i => (hx i).1] at hlong
    cases hlong
  · -- what is left to the bound falls each time the measure rises
    induction hk : bound - μ a using Nat.strong_induction_on generalizing a with
    | _ k ih =>
      intro hnever
      have hrises := mt stutters_of_after (hnever 0 a rfl)
      obtain ⟨n, hn⟩ := not_forall.mp hrises
      cases hafter : after f n a with
      | none => exact ⟨n, hafter⟩
      | some b =>
        have hne : μ b ≠ μ a := fun heq => hn ⟨b, hafter, heq⟩
        obtain ⟨hle, hbound⟩ := measure_after hstep hafter
        have hbound : μ b ≤ bound := hbound.resolve_left fun heq => hne (congrArg μ heq)
        have hless : bound - μ b < k := by omega
        obtain ⟨m, hm⟩ := ih _ hless b rfl fun i c hc => hnever (n + i) c (by
          rw [after_add, hafter]
          exact hc)
        refine ⟨n + m, ?_⟩
        rw [after_add, hafter]
        exact hm

end Iterate

end McpgSdk
