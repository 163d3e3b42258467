import Mathlib.Logic.Relation

/-!
# Guarded runs

A system takes labelled steps. `Reach step ok s₀ s` holds when `s` is reached from `s₀` by steps
each of which meets the guard `ok` in the state it starts from. The guard carries what a result
assumes about the environment: which inputs and which interleavings are allowed.

* **`Reach.invariant`**: what holds at the start and is kept by every guarded step holds throughout;
* `Reach.mono`, `Reach.trans`: a weaker guard reaches more; runs compose;
* `Reach.of_foldl`, `Reach.of_foldlM`, `end_of_run`: runs of a step function, evaluated;
* `append_split`: where an element of a growing trace stands;
* `forall_split_of_get`: a property of every step of a run, step by step.
-/

set_option autoImplicit false

namespace McpgSdk

variable {σ α : Type}

/-- `s` is reached from `s₀` by guarded steps. -/
inductive Reach (step : σ → α → σ → Prop) (ok : σ → α → Prop) (s₀ : σ) : σ → Prop
  | refl : Reach step ok s₀ s₀
  | tail {s t : σ} {a : α} : Reach step ok s₀ s → ok s a → step s a t → Reach step ok s₀ t

/-- No guard: every step is allowed. -/
def anyStep (_ : σ) (_ : α) : Prop := True

namespace Reach

variable {step : σ → α → σ → Prop} {ok ok' : σ → α → Prop} {s₀ s t : σ}

/-- **Invariants.** What holds at the start and is kept by every guarded step holds throughout. -/
theorem invariant {I : σ → Prop} (h : Reach step ok s₀ s) (h₀ : I s₀)
    (hstep : ∀ ⦃u a v⦄, I u → ok u a → step u a v → I v) : I s := by
  induction h with
  | refl => exact h₀
  | tail _ hok hs ih => exact hstep ih hok hs

theorem mono (hok : ∀ u a, ok u a → ok' u a) (h : Reach step ok s₀ s) : Reach step ok' s₀ s := by
  induction h with
  | refl => exact .refl
  | tail _ ho hs ih => exact .tail ih (hok _ _ ho) hs

theorem trans (h : Reach step ok s₀ s) (h' : Reach step ok s t) : Reach step ok s₀ t := by
  induction h' with
  | refl => exact h
  | tail _ ho hs ih => exact .tail ih ho hs

theorem of_foldl {f : σ → α → σ} (hf : ∀ s a, step s a (f s a)) (s : σ) (as : List α)
    (hok : ∀ pre a post, as = pre ++ a :: post → ok (pre.foldl f s) a) :
    Reach step ok s (as.foldl f s) := by
  induction as generalizing s with
  | nil => exact .refl
  | cons a as ih =>
    have hfirst : Reach step ok s (f s a) := .tail .refl (hok [] a as rfl) (hf s a)
    refine hfirst.trans (ih (f s a) fun pre b post has => hok (a :: pre) b post ?_)
    rw [has, List.cons_append]

theorem of_foldlM {g : σ → α → Option σ} (hg : ∀ s a t, g s a = some t → ok s a ∧ step s a t)
    {s t : σ} {as : List α} (h : as.foldlM g s = some t) : Reach step ok s t := by
  induction as generalizing s with
  | nil =>
    obtain rfl := Option.some.inj h
    exact .refl
  | cons a as ih =>
    obtain ⟨s₁, h₁, h⟩ := Option.bind_eq_some_iff.mp h
    obtain ⟨ho, hs⟩ := hg s a s₁ h₁
    have hfirst : Reach step ok s s₁ := .tail .refl ho hs
    exact hfirst.trans (ih h)

end Reach

theorem end_of_run {r : Option σ} {P : σ → Prop} [DecidablePred P]
    (h : r.any (fun s => decide (P s)) = true) : ∃ s, r = some s ∧ P s := by
  obtain ⟨s, hs, hp⟩ := (Option.any_eq_true _ r).mp h
  exact ⟨s, hs, of_decide_eq_true hp⟩

theorem nil_ne_split {pre post : List α} {a : α} : [] ≠ pre ++ a :: post :=
  (List.append_ne_nil_of_right_ne_nil pre (List.cons_ne_nil a post)).symm

theorem append_split {old new pre post : List α} {x : α} (h : old ++ new = pre ++ x :: post) :
    (∃ more, old = pre ++ x :: more) ∨ ∃ add, pre = old ++ add ∧ new = add ++ x :: post := by
  rcases List.append_eq_append_iff.mp h with ⟨add, h1, h2⟩ | ⟨rest, h1, h2⟩
  · exact .inr ⟨add, h1, h2⟩
  · cases rest with
    | nil => exact .inr ⟨[], by simpa using h1.symm, by simpa using h2.symm⟩
    | cons y rest =>
      obtain ⟨rfl, -⟩ := List.cons.inj h2
      exact .inl ⟨rest, h1⟩

/-- What holds of every position of a list holds wherever the list is split. -/
theorem forall_split_of_get {as : List α} {P : List α → α → Prop}
    (h : ∀ i : Fin as.length, P (as.take i) (as.get i)) (pre : List α) (a : α) (post : List α)
    (hsplit : as = pre ++ a :: post) : P pre a := by
  subst hsplit
  have hpos : pre.length < (pre ++ a :: post).length := by
    rw [List.length_append, List.length_cons]
    omega
  have hat := h ⟨pre.length, hpos⟩
  simpa [List.take_left, List.getElem_append_right (Nat.le_refl _)] using hat

end McpgSdk
