import McpgSdk.Lib.Run
import Mathlib.Order.WellFounded
import Mathlib.Logic.Function.Iterate
import Mathlib.Data.List.GetD

/-!
# Fair executions

An `Execution` goes on for ever. A process is a set of actions; an execution is fair to it when the
process does not wait for ever while it can go on. `LeadsTo P Q` says that whenever `P` holds, `Q` holds
then or later.

* `Execution.always`: what every step keeps holds throughout;
* **`leadsTo_of_timed_rank`**: a rank that no step raises and that the helpful process of each state
  lowers, once its time has come, leads to the goal; `leadsTo_of_rank`, where it need not wait;
* `leadsTo_of_fair`: one step of one process leads to the goal;
* `leadsTo_after`: with a clock that passes every bound, waiting for a time to come;
* `after`: an execution from some time on, with only the actions that are still taken;
* `exists_turns`, `fair_of_turns`: processes that take turns;
* `exists_execution`, `exists_fair_execution`: a finite run that goes on for ever by a rule, or rests.
-/

set_option autoImplicit false

namespace McpgSdk

variable {σ α : Type}

/-- A run that goes on for ever. -/
structure Execution (step : σ → α → σ → Prop) where
  state : ℕ → σ
  act : ℕ → α
  next : ∀ n, step (state n) (act n) (state (n + 1))

/-- The process can take a step. -/
def Enabled (step : σ → α → σ → Prop) (p : α → Prop) (s : σ) : Prop := ∃ a t, p a ∧ step s a t

namespace Execution

variable {step : σ → α → σ → Prop}

/-- A process that can go on from some time on takes a step after it. -/
def Fair (r : Execution step) (p : α → Prop) : Prop :=
  ∀ n, (∀ m, n ≤ m → Enabled step p (r.state m)) → ∃ m, n ≤ m ∧ p (r.act m)

/-- Whenever `P` holds, `Q` holds then or later. -/
def LeadsTo (r : Execution step) (P Q : σ → Prop) : Prop :=
  ∀ n, P (r.state n) → ∃ m, n ≤ m ∧ Q (r.state m)

/-- The clock passes every bound. -/
def Diverges (r : Execution step) (clock : σ → ℕ) : Prop := ∀ t, ∃ n, t ≤ clock (r.state n)

variable {r : Execution step} {P P' Q Q' R : σ → Prop}

/-! ## Throughout -/

theorem always {I : σ → Prop} (h₀ : I (r.state 0)) (hstep : ∀ ⦃s a t⦄, I s → step s a t → I t)
    (n : ℕ) : I (r.state n) := by
  induction n with
  | zero => exact h₀
  | succ n ih => exact hstep ih (r.next n)

theorem reach_of_ok {ok : σ → α → Prop} {s₀ : σ} (h₀ : Reach step ok s₀ (r.state 0))
    (hok : ∀ n, ok (r.state n) (r.act n)) (n : ℕ) : Reach step ok s₀ (r.state n) := by
  induction n with
  | zero => exact h₀
  | succ n ih => exact .tail ih (hok n) (r.next n)

theorem reach {s₀ : σ} (h₀ : Reach step anyStep s₀ (r.state 0)) (n : ℕ) :
    Reach step anyStep s₀ (r.state n) :=
  reach_of_ok h₀ (fun _ => trivial) n

/-- What holds and does not end unless `Q` comes holds from then on, as long as `Q` stays away. -/
theorem stays {n : ℕ} (hn : P (r.state n))
    (hkeep : ∀ m, n ≤ m → P (r.state m) → P (r.state (m + 1)) ∨ Q (r.state (m + 1)))
    (hnot : ∀ m, n ≤ m → ¬ Q (r.state m)) {m : ℕ} (hm : n ≤ m) : P (r.state m) := by
  induction m, hm using Nat.le_induction with
  | base => exact hn
  | succ m hm ih => exact (hkeep m hm ih).resolve_right (hnot (m + 1) (Nat.le_succ_of_le hm))

/-! ## Leads to -/

namespace LeadsTo

theorem refl : r.LeadsTo P P := fun n h => ⟨n, le_refl n, h⟩

theorem of_imp (h : ∀ s, P s → Q s) : r.LeadsTo P Q := fun n hp => ⟨n, le_refl n, h _ hp⟩

theorem trans (h : r.LeadsTo P Q) (h' : r.LeadsTo Q R) : r.LeadsTo P R := by
  intro n hp
  obtain ⟨m, hnm, hq⟩ := h n hp
  obtain ⟨k, hmk, hr⟩ := h' m hq
  exact ⟨k, hnm.trans hmk, hr⟩

theorem or (h : r.LeadsTo P R) (h' : r.LeadsTo Q R) : r.LeadsTo (fun s => P s ∨ Q s) R :=
  fun n hpq => hpq.elim (h n) (h' n)

theorem trans_or (h : r.LeadsTo P fun s => Q s ∨ R s) (h' : r.LeadsTo Q R) : r.LeadsTo P R :=
  h.trans (h'.or refl)

/-- What does not last ends in what every step that ends it leads to. -/
theorem of_leaves (h : r.LeadsTo P fun s => ¬ P s)
    (hstep : ∀ n, P (r.state n) → P (r.state (n + 1)) ∨ Q (r.state (n + 1))) : r.LeadsTo P Q := by
  intro n hn
  by_contra hnone
  obtain ⟨m, hm, hnot⟩ := h n hn
  exact hnot (stays hn (fun m _ => hstep m) (fun m hm hq => hnone ⟨m, hm, hq⟩) hm)

end LeadsTo

/-! ## Progress -/

section Progress

variable {I : σ → Prop}

/-- **Progress by rank.** Each state before the goal has a helpful process, which can go on once a time
has come; a step reaches the goal or lowers the rank, or it is not the helpful process's and changes
neither the rank, nor who helps, nor when. Then the goal is reached. -/
theorem leadsTo_of_timed_rank {π β : Type} [Preorder β] [WellFoundedLT β] {clock : σ → ℕ}
    (hI : ∀ n, I (r.state n)) (owns : π → α → Prop) (hfair : ∀ i, r.Fair (owns i))
    (hmono : ∀ s a t, step s a t → clock s ≤ clock t) (helper : σ → π) (rank : σ → β)
    (wakeAt : σ → ℕ) (hwake : ∀ s, P s → ∃ n, wakeAt s ≤ clock (r.state n))
    (henabled : ∀ s, I s → P s → wakeAt s ≤ clock s → Enabled step (owns (helper s)) s)
    (hstep : ∀ s a t, I s → P s → step s a t → Q t ∨ P t ∧ (rank t < rank s ∨
      (rank t = rank s ∧ helper t = helper s ∧ wakeAt t = wakeAt s) ∧ ¬ owns (helper s) a)) :
    r.LeadsTo P Q := by
  suffices h : ∀ b n, rank (r.state n) = b → P (r.state n) → ∃ m, n ≤ m ∧ Q (r.state m) from
    fun n hn => h _ n rfl hn
  intro b
  induction b using WellFoundedLT.induction with
  | ind b ih =>
    rintro n rfl hn
    by_contra hnone
    have hnot : ∀ m, n ≤ m → ¬ Q (r.state m) := fun m hm hq => hnone ⟨m, hm, hq⟩
    -- below the rank the goal is reached, so the rank stays, and so does the helper
    let same (m : ℕ) : Prop := P (r.state m) ∧ rank (r.state m) = rank (r.state n) ∧
      helper (r.state m) = helper (r.state n) ∧ wakeAt (r.state m) = wakeAt (r.state n)
    have hmoves : ∀ m, n ≤ m → same m → same (m + 1) ∧ ¬ owns (helper (r.state n)) (r.act m) := by
      rintro m hm ⟨hp, hrank, hhelper, htime⟩
      rcases hstep _ _ _ (hI m) hp (r.next m) with hq | ⟨hp', hlt | ⟨⟨heq, hsame, htime'⟩, hown⟩⟩
      · exact absurd hq (hnot (m + 1) (Nat.le_succ_of_le hm))
      · obtain ⟨k, hk, hq⟩ := ih _ (hrank ▸ hlt) (m + 1) rfl hp'
        exact absurd hq (hnot k ((Nat.le_succ_of_le hm).trans hk))
      · exact ⟨⟨hp', heq.trans hrank, hsame.trans hhelper, htime'.trans htime⟩, hhelper ▸ hown⟩
    have hsame : ∀ m, n ≤ m → same m := by
      intro m hm
      induction m, hm using Nat.le_induction with
      | base => exact ⟨hn, rfl, rfl, rfl⟩
      | succ m hm ihm => exact (hmoves m hm ihm).1
    -- once its time has come the helper can go on, and it does
    obtain ⟨k, hk⟩ := hwake _ hn
    have hclock : Monotone fun m => clock (r.state m) :=
      monotone_nat_of_le_succ fun m => hmono _ _ _ (r.next m)
    obtain ⟨m, hm, hown⟩ := hfair (helper (r.state n)) (max n k) fun m hm => by
      obtain ⟨hp, -, hhelper, htime⟩ := hsame m ((le_max_left n k).trans hm)
      rw [← hhelper]
      exact henabled _ (hI m) hp (htime ▸ hk.trans (hclock ((le_max_right n k).trans hm)))
    have hnm : n ≤ m := (le_max_left n k).trans hm
    exact (hmoves m hnm (hsame m hnm)).2 hown

/-- Progress by rank, with helpers that need not wait for a time. -/
theorem leadsTo_of_rank {π β : Type} [Preorder β] [WellFoundedLT β] (hI : ∀ n, I (r.state n))
    (owns : π → α → Prop) (hfair : ∀ i, r.Fair (owns i)) (helper : σ → π) (rank : σ → β)
    (henabled : ∀ s, I s → P s → Enabled step (owns (helper s)) s)
    (hstep : ∀ s a t, I s → P s → step s a t → Q t ∨ P t ∧ (rank t < rank s ∨
      (rank t = rank s ∧ helper t = helper s) ∧ ¬ owns (helper s) a)) : r.LeadsTo P Q := by
  refine leadsTo_of_timed_rank hI owns hfair (fun _ _ _ _ => le_refl 0) helper
    rank (fun _ => 0) (fun _ _ => ⟨0, le_refl 0⟩) (fun s hs hp _ => henabled s hs hp) ?_
  intro s a t hs hp ht
  refine (hstep s a t hs hp ht).imp_right fun h => ⟨h.1, h.2.imp_right fun h => ⟨?_, h.2⟩⟩
  exact ⟨h.1.1, h.1.2, rfl⟩

/-- One process, whose steps lower a rank that no other step changes. -/
theorem leadsTo_of_measure {p : α → Prop} (hI : ∀ n, I (r.state n)) (hfair : r.Fair p)
    (rank : σ → ℕ) (henabled : ∀ s, I s → P s → Enabled step p s)
    (hhelp : ∀ s a t, I s → P s → p a → step s a t → Q t ∨ P t ∧ rank t < rank s)
    (hother : ∀ s a t, I s → P s → ¬ p a → step s a t → Q t ∨ P t ∧ rank t = rank s) :
    r.LeadsTo P Q := by
  refine leadsTo_of_rank (π := Unit) hI (fun _ => p) (fun _ => hfair) (fun _ => ()) rank henabled ?_
  intro s a t hs hp ht
  by_cases ha : p a
  · exact (hhelp s a t hs hp ha ht).imp_right fun h => ⟨h.1, .inl h.2⟩
  · exact (hother s a t hs hp ha ht).imp_right fun h => ⟨h.1, .inr ⟨⟨h.2, rfl⟩, ha⟩⟩

theorem leadsTo_of_fair {p : α → Prop} (hI : ∀ n, I (r.state n)) (hfair : r.Fair p)
    (henabled : ∀ s, I s → P s → Enabled step p s)
    (hhelp : ∀ s a t, I s → P s → p a → step s a t → Q t)
    (hother : ∀ s a t, I s → P s → ¬ p a → step s a t → Q t ∨ P t) : r.LeadsTo P Q :=
  leadsTo_of_measure hI hfair (fun _ => 0) henabled
    (fun s a t hs hp ha ht => .inl (hhelp s a t hs hp ha ht))
    fun s a t hs hp ha ht => (hother s a t hs hp ha ht).imp_right fun h => ⟨h, rfl⟩

/-- **Waiting for a time.** What does not end before `Q` is still there when the time comes. -/
theorem leadsTo_after {clock : σ → ℕ} (hI : ∀ n, I (r.state n)) (hdiverges : r.Diverges clock)
    (hmono : ∀ s a t, step s a t → clock s ≤ clock t)
    (hkeep : ∀ s a t, I s → P s → step s a t → P t ∨ Q t) (d : ℕ) :
    r.LeadsTo P fun s => (P s ∧ d ≤ clock s) ∨ Q s := by
  intro n hn
  by_cases hq : ∃ m, n ≤ m ∧ Q (r.state m)
  · obtain ⟨m, hm, hq⟩ := hq
    exact ⟨m, hm, .inr hq⟩
  · have hclock : Monotone fun m => clock (r.state m) :=
      monotone_nat_of_le_succ fun m => hmono _ _ _ (r.next m)
    obtain ⟨k, hk⟩ := hdiverges d
    have hp : P (r.state (max n k)) := stays hn (fun m _ hp => hkeep _ _ _ (hI m) hp (r.next m))
      (fun m hm h => hq ⟨m, hm, h⟩) (le_max_left n k)
    exact ⟨max n k, le_max_left n k, .inl ⟨hp, hk.trans (hclock (le_max_right n k))⟩⟩

end Progress

/-! ## From some time on -/

section After

variable {ok : α → Prop} {n : ℕ} (hok : ∀ m, n ≤ m → ok (r.act m))

/-- The execution from a time on, after which only some actions are taken. -/
def after (r : Execution step) (ok : α → Prop) (n : ℕ) (hok : ∀ m, n ≤ m → ok (r.act m)) :
    Execution fun s a t => step s a t ∧ ok a where
  state m := r.state (n + m)
  act m := r.act (n + m)
  next m := ⟨r.next (n + m), hok _ (Nat.le_add_right n m)⟩

theorem Fair.after {p : α → Prop} (h : r.Fair p) : (r.after ok n hok).Fair p := by
  intro m hall
  have hat : ∀ k, n + m ≤ k → n + (k - n) = k := fun k hk => by omega
  obtain ⟨k, hk, hp⟩ := h (n + m) fun k hk => by
    obtain ⟨a, t, ha, hs, -⟩ := hall (k - n) (by omega)
    exact ⟨a, t, ha, hat k hk ▸ hs⟩
  refine ⟨k - n, by omega, ?_⟩
  show p (r.act (n + (k - n)))
  rwa [hat k hk]

theorem Diverges.after {clock : σ → ℕ} (h : r.Diverges clock)
    (hmono : ∀ s a t, step s a t → clock s ≤ clock t) : (r.after ok n hok).Diverges clock := by
  intro t
  obtain ⟨m, hm⟩ := h t
  have hclock : Monotone fun m => clock (r.state m) :=
    monotone_nat_of_le_succ fun m => hmono _ _ _ (r.next m)
  exact ⟨m, hm.trans (hclock (Nat.le_add_left m n))⟩

end After

theorem fair_of_disabled {p : α → Prop} (h : ∀ n, ∃ m, n ≤ m ∧ ¬ Enabled step p (r.state m)) :
    r.Fair p := by
  intro n hall
  obtain ⟨m, hm, hnot⟩ := h n
  exact absurd (hall m hm) hnot

theorem diverges_of_ticks {clock : σ → ℕ} (hmono : ∀ s a t, step s a t → clock s ≤ clock t)
    (h : ∀ n, ∃ m, n ≤ m ∧ clock (r.state m) < clock (r.state (m + 1))) : r.Diverges clock := by
  have hclock : Monotone fun m => clock (r.state m) :=
    monotone_nat_of_le_succ fun m => hmono _ _ _ (r.next m)
  intro t
  induction t with
  | zero => exact ⟨0, Nat.zero_le _⟩
  | succ t ih =>
    obtain ⟨n, hn⟩ := ih
    obtain ⟨m, hm, hlt⟩ := h n
    exact ⟨m + 1, Nat.succ_le_of_lt ((hn.trans (hclock hm)).trans_lt hlt)⟩

/-! ## Taking turns -/

section Turns

variable {go : ℕ → σ → α}

/-- **Going on by turns.** Where every turn can be taken and leads to where the next can, there is an
execution that takes them. -/
theorem exists_turns {K : σ → Prop} {s₀ : σ} (h₀ : K s₀)
    (hgo : ∀ n s, K s → ∃ t, step s (go n s) t ∧ K t) :
    ∃ r : Execution step, r.state 0 = s₀ ∧ (∀ n, K (r.state n)) ∧ ∀ n, r.act n = go n (r.state n) := by
  choose g hstep hkeep using hgo
  let states : ℕ → { s // K s } := fun n =>
    Nat.rec ⟨s₀, h₀⟩ (fun n s => ⟨g n s.1 s.2, hkeep n s.1 s.2⟩) n
  let r : Execution step :=
    { state := fun n => (states n).1
      act := fun n => go n (states n).1
      next := fun n => hstep n (states n).1 (states n).2 }
  exact ⟨r, rfl, fun n => (states n).2, fun _ => rfl⟩

theorem exists_turn {k i : ℕ} (hi : i < k) (n : ℕ) : ∃ m, n ≤ m ∧ m % k = i := by
  refine ⟨i + k * n, ?_, ?_⟩
  · exact (Nat.le_mul_of_pos_left n (Nat.zero_lt_of_lt hi)).trans (Nat.le_add_left _ _)
  · rw [Nat.add_mul_mod_self_left, Nat.mod_eq_of_lt hi]

theorem fair_of_turns {k i : ℕ} (hact : ∀ n, r.act n = go (n % k) (r.state n)) (hi : i < k)
    {p : α → Prop} (hp : ∀ n, Enabled step p (r.state n) → p (go i (r.state n))) : r.Fair p := by
  intro n hall
  obtain ⟨m, hm, hturn⟩ := exists_turn hi n
  refine ⟨m, hm, ?_⟩
  rw [hact, hturn]
  exact hp m (hall m hm)

end Turns

end Execution

/-! ## Executions from runs -/

section OfRun

variable {f : σ → α → Option σ}

/-- The states of a run that goes on for ever by a rule. -/
def statesOf (f : σ → α → Option σ) (go : σ → α) (s : σ) (as : List α) : ℕ → σ
  | 0 => s
  | n + 1 => (f (statesOf f go s as n) (as.getD n (go (statesOf f go s as n)))).getD s

theorem statesOf_take {go : σ → α} {s : σ} {as : List α} :
    ∀ {n : ℕ} {u : σ}, n ≤ as.length → (as.take n).foldlM f s = some u → statesOf f go s as n = u
  | 0, u, _, h => Option.some.inj h
  | n + 1, u, hn, h => by
    have hlt : n < as.length := hn
    rw [List.take_add_one, List.getElem?_eq_getElem hlt, Option.toList_some, List.foldlM_append] at h
    obtain ⟨v, hv, hu⟩ := Option.bind_eq_some_iff.mp h
    obtain ⟨w, hw, hwu⟩ := Option.bind_eq_some_iff.mp hu
    obtain rfl := Option.some.inj hwu
    rw [statesOf, statesOf_take (Nat.le_of_lt hlt) hv, List.getD_eq_getElem as _ hlt, hw]
    rfl

/-- **Going on for ever.** A finite run is the beginning of an execution that goes on by a rule, where
the rule can be followed and leads to where it can be followed again. -/
theorem exists_execution (go : σ → α) {g : σ → σ} {K : σ → Prop}
    (hgo : ∀ u, K u → f u (go u) = some (g u) ∧ K (g u)) {s t : σ} {as : List α}
    (h : as.foldlM f s = some t) (ht : K t) :
    ∃ r : Execution fun u a v => f u a = some v,
      (∀ n u, n ≤ as.length → (as.take n).foldlM f s = some u → r.state n = u) ∧
        (∀ n, (hn : n < as.length) → r.act n = as[n]) ∧
        ∀ k, r.state (as.length + k) = g^[k] t ∧ r.act (as.length + k) = go (g^[k] t) ∧
          K (g^[k] t) := by
  have hkeep : ∀ k, K (g^[k] t) := by
    intro k
    induction k with
    | zero => exact ht
    | succ k ih =>
      rw [Function.iterate_succ_apply']
      exact (hgo _ ih).2
  have hlater : ∀ k, statesOf f go s as (as.length + k) = g^[k] t := by
    intro k
    induction k with
    | zero => exact statesOf_take (le_refl _) (by rw [Nat.add_zero, List.take_length]; exact h)
    | succ k ih =>
      have hge : as.length ≤ as.length + k := Nat.le_add_right _ _
      show statesOf f go s as (as.length + k + 1) = _
      rw [statesOf, List.getD_eq_default as _ hge, ih, (hgo _ (hkeep k)).1,
        Function.iterate_succ_apply']
      rfl
  have hrun : ∀ n, ∃ v, f (statesOf f go s as n) (as.getD n (go (statesOf f go s as n))) = some v := by
    intro n
    rcases Nat.lt_or_ge n as.length with hlt | hge
    · rw [← List.take_append_drop n as, List.foldlM_append] at h
      obtain ⟨u, hu, hrest⟩ := Option.bind_eq_some_iff.mp h
      rw [List.drop_eq_getElem_cons hlt, List.foldlM_cons] at hrest
      obtain ⟨v, hv, -⟩ := Option.bind_eq_some_iff.mp hrest
      rw [statesOf_take (Nat.le_of_lt hlt) hu, List.getD_eq_getElem as _ hlt]
      exact ⟨v, hv⟩
    · obtain ⟨k, rfl⟩ := Nat.exists_eq_add_of_le hge
      rw [List.getD_eq_default as _ hge, hlater k]
      exact ⟨_, (hgo _ (hkeep k)).1⟩
  refine ⟨⟨statesOf f go s as, fun n => as.getD n (go (statesOf f go s as n)), fun n => ?_⟩,
    fun n u => statesOf_take, fun n hn => List.getD_eq_getElem as _ hn,
    fun k => ⟨hlater k, ?_, hkeep k⟩⟩
  · obtain ⟨v, hv⟩ := hrun n
    rw [statesOf, hv]
    rfl
  · show as.getD (as.length + k) (go (statesOf f go s as (as.length + k))) = _
    rw [List.getD_eq_default as _ (Nat.le_add_right _ _), hlater k]

/-- **Resting for ever is fair.** A finite run that ends where no process can go on, and where time may
pass, is the beginning of a fair execution whose clock passes every bound. -/
theorem exists_fair_execution (idle : α) {g : σ → σ} (hidle : ∀ u, f u idle = some (g u)) {s t : σ}
    {as : List α} (h : as.foldlM f s = some t) {π : Type} {owns : π → α → Prop} (clock : σ → ℕ)
    (Rest : σ → Prop) (ht : Rest t) (hrest : ∀ u, Rest u → Rest (g u) ∧ clock u < clock (g u))
    (hoff : ∀ u p, Rest u → ¬ Enabled (fun u a v => f u a = some v) (owns p) u) :
    ∃ r : Execution fun u a v => f u a = some v,
      (∀ n u, n ≤ as.length → (as.take n).foldlM f s = some u → r.state n = u) ∧
        (∀ p, r.Fair (owns p)) ∧ r.Diverges clock := by
  obtain ⟨r, hbegins, -, hlater⟩ := exists_execution (fun _ => idle) (K := Rest)
    (fun u hu => ⟨hidle u, (hrest u hu).1⟩) h ht
  have hclock : ∀ k, k ≤ clock (g^[k] t) := by
    intro k
    induction k with
    | zero => exact Nat.zero_le _
    | succ k ih =>
      rw [Function.iterate_succ_apply']
      exact Nat.succ_le_of_lt (ih.trans_lt (hrest _ (hlater k).2.2).2)
  refine ⟨r, hbegins, fun p => Execution.fair_of_disabled fun n => ?_, fun k => ?_⟩
  · refine ⟨as.length + n, Nat.le_add_left _ _, ?_⟩
    rw [(hlater n).1]
    exact hoff _ p (hlater n).2.2
  · refine ⟨as.length + k, ?_⟩
    rw [(hlater k).1]
    exact hclock k

end OfRun

end McpgSdk
