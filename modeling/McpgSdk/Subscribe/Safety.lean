import McpgSdk.Subscribe.Model

/-!
# No callback outlives its box

The address a party holds is trusted twice: by the trampoline, which calls what is there, and by the
drop of the subscription, which reclaims it. Neither can check it. What makes both right is an order:
the party is told to stop before the box is reclaimed, and it answers only when nothing runs.

* `Sound`: the boxes in the heap are those of the subscriptions that are not over, each under one
  address; what a party holds or runs is the box of a subscription it was not yet told to stop;
* `sound_step`: every step keeps this, whatever order the threads and the parties take;
* **`subscriptions_safe`**: no address is ever trusted wrongly, each box is reclaimed once and none is
  leaked, and a closure is not called after its subscription is over.
-/

set_option autoImplicit false

namespace McpgSdk

open OrdMap

namespace Subscribe

namespace Pc

/-- The address of the box, while there is one. -/
def ctx? : Pc → Option ℕ
  | boxed ctx | answered ctx _ | held ctx _ | revoking ctx _ | revoked ctx => some ctx
  | failed | dropped => none

/-- The address and the handle, while the party may call. -/
def lent? : Pc → Option (ℕ × ℕ)
  | answered ctx handle | held ctx handle | revoking ctx handle => some (ctx, handle)
  | boxed _ | revoked _ | failed | dropped => none

/-- The subscription is over. -/
def ended : Pc → Bool
  | failed | dropped => true
  | _ => false

theorem ended_iff {pc : Pc} : pc.ended = true ↔ pc.ctx? = none := by cases pc <;> simp [ended, ctx?]

theorem lent_of_ended {pc : Pc} (h : pc.ended = true) : pc.lent? = none := by
  cases pc <;> simp_all [ended, lent?]

theorem ctx_of_lent {pc : Pc} {ctx handle : ℕ} (h : pc.lent? = some (ctx, handle)) :
    pc.ctx? = some ctx := by
  cases pc <;> simp_all [lent?, ctx?]

end Pc

namespace World

/-- The party holds the entry, or runs a callback of it. -/
def Holds (w : World) (r : Registration) : Prop := r ∈ w.registered ∨ ∃ c ∈ w.running, c.reg = r

/-- The heap and the parties' tables agree with the subscriptions. -/
structure Sound (w : World) : Prop where
  heap : ∀ (a : ℕ) (b : CallbackBox), w.heap[a]? = some b ↔
    ∃ sub, w.subs[b.owner]? = some sub ∧ sub.kind = b.kind ∧ sub.pc.ctx? = some a
  nonnull : ∀ (i : ℕ) (sub : Sub), w.subs[i]? = some sub → sub.pc.ctx? ≠ some 0
  lent : ∀ r, w.Holds r → r.handle ≠ 0 ∧
    ∃ sub, w.subs[r.owner]? = some sub ∧ sub.kind = r.kind ∧ sub.pc.lent? = some (r.ctx, r.handle)
  fault : w.fault = false
  freed : ∀ i : ℕ, w.freed.count i = if w.subs[i]?.any (fun sub => sub.pc.ended) then 1 else 0

section Steps

variable {decodes : Kind → String → Bool} {w w' : World} {i : ℕ} {kind : Kind} {pc pc' : Pc}

theorem sound_start : start.Sound where
  heap := by simp [start]
  nonnull := by simp [start]
  lent := by simp [start, Holds]
  fault := rfl
  freed := by simp [start]

theorem subs_moveTo (hsub : w.subs[i]? = some ⟨kind, pc⟩) (j : ℕ) :
    (w.moveTo i kind pc').subs[j]? = if j = i then some ⟨kind, pc'⟩ else w.subs[j]? := by
  obtain ⟨hlt, -⟩ := List.getElem?_eq_some_iff.mp hsub
  simp only [moveTo, List.getElem?_set]
  split_ifs with h1 h2 h3
  · rfl
  · exact absurd h1.symm h2
  · exact absurd h3.symm h1
  · rfl

theorem Sound.box (hi : w.Sound) {sub : Sub} {ctx : ℕ} (hsub : w.subs[i]? = some sub)
    (hctx : sub.pc.ctx? = some ctx) : w.heap[ctx]? = some ⟨sub.kind, i⟩ :=
  (hi.heap ctx ⟨sub.kind, i⟩).mpr ⟨sub, hsub, rfl, hctx⟩

theorem Sound.owner_eq (hi : w.Sound) {j ctx : ℕ} {sub sub' : Sub} (hsub : w.subs[i]? = some sub)
    (hctx : sub.pc.ctx? = some ctx) (hsub' : w.subs[j]? = some sub')
    (hctx' : sub'.pc.ctx? = some ctx) : i = j := by
  have h := (hi.box hsub hctx).symm.trans (hi.box hsub' hctx')
  exact congrArg CallbackBox.owner (Option.some.inj h)

theorem Sound.moves_on (hi : w.Sound) (hsub : w.subs[i]? = some ⟨kind, pc⟩)
    (hctx : pc'.ctx? = pc.ctx?)
    (hlent : ∀ r, w.Holds r → r.owner = i → pc'.lent? = some (r.ctx, r.handle)) :
    (w.moveTo i kind pc').Sound where
  heap := fun a b => by
    refine (hi.heap a b).trans ?_
    rw [subs_moveTo hsub]
    split_ifs with howner
    · rw [howner, hsub]
      simp [hctx]
    · rfl
  nonnull := fun j sub hj => by
    rw [subs_moveTo hsub] at hj
    split_ifs at hj with hji
    · cases hj
      rw [hctx]
      exact hi.nonnull i _ hsub
    · exact hi.nonnull j sub hj
  lent := fun r hr => by
    obtain ⟨hhandle, sub, howner, hkind, hpc⟩ := hi.lent r hr
    refine ⟨hhandle, ?_⟩
    rw [subs_moveTo hsub]
    split_ifs with hi'
    · rw [hi', hsub] at howner
      cases howner
      exact ⟨_, rfl, hkind, hlent r hr hi'⟩
    · exact ⟨sub, howner, hkind, hpc⟩
  fault := hi.fault
  freed := fun j => by
    have hended : pc'.ended = pc.ended := by
      rw [Bool.eq_iff_iff, Pc.ended_iff, Pc.ended_iff, hctx]
    rw [subs_moveTo hsub]
    refine (hi.freed j).trans ?_
    by_cases hj : j = i
    · rw [if_pos hj, hj, hsub]
      simp [hended]
    · rw [if_neg hj]

/-- A subscription that the party can no longer call ends and reclaims its box. -/
theorem Sound.frees (hi : w.Sound) {ctx : ℕ} (hsub : w.subs[i]? = some ⟨kind, pc⟩)
    (hctx : pc.ctx? = some ctx) (hlent : ∀ r, w.Holds r → r.owner ≠ i) (hnone : pc'.ctx? = none) :
    ((w.moveTo i kind pc').free kind ctx i).Sound where
  heap := fun a b => by
    show (w.heap.erase ctx)[a]? = some b ↔ ∃ sub, (w.moveTo i kind pc').subs[b.owner]? = some sub ∧ _
    rw [getElem?_erase_ite, subs_moveTo hsub]
    have hold := hi.heap a b
    split_ifs with ha howner howner
    · exact iff_of_false nofun (by rintro ⟨sub, hs, -, hc⟩; cases hs; simp [hnone] at hc)
    · refine iff_of_false nofun ?_
      rintro ⟨sub, hs, -, hc⟩
      exact howner (hi.owner_eq hs hc hsub (ha ▸ hctx))
    · refine iff_of_false (fun hb => ?_) (by rintro ⟨sub, hs, -, hc⟩; cases hs; simp [hnone] at hc)
      obtain ⟨sub, hs, -, hc⟩ := hold.mp hb
      rw [howner, hsub] at hs
      cases hs
      exact ha (Option.some.inj (hc.symm.trans hctx))
    · exact hold
  nonnull := fun j sub hj => by
    replace hj : (w.moveTo i kind pc').subs[j]? = some sub := hj
    rw [subs_moveTo hsub] at hj
    split_ifs at hj with hji
    · cases hj
      simp [hnone]
    · exact hi.nonnull j sub hj
  lent := fun r hr => by
    obtain ⟨hhandle, sub, howner, hkind, hpc⟩ := hi.lent r hr
    refine ⟨hhandle, sub, ?_, hkind, hpc⟩
    show (w.moveTo i kind pc').subs[r.owner]? = some sub
    rw [subs_moveTo hsub, if_neg (hlent r hr)]
    exact howner
  fault := by
    have hbox := hi.box hsub hctx
    simp [free, moveTo, holds, hi.fault, hbox]
  freed := fun j => by
    have hended : pc'.ended = true := Pc.ended_iff.mpr hnone
    have hnot : pc.ended = false := by
      rw [Bool.eq_false_iff, Ne, Pc.ended_iff, hctx]
      nofun
    show (w.freed ++ [i]).count j = if (w.moveTo i kind pc').subs[j]?.any _ then 1 else 0
    rw [subs_moveTo hsub, List.count_append, hi.freed j]
    by_cases hj : j = i
    · subst hj
      rw [if_pos rfl, hsub]
      simp [hended, hnot]
    · rw [if_neg hj, List.count_singleton]
      simp [Ne.symm hj]

theorem Sound.calls (hi : w.Sound) (hheap : w'.heap = w.heap) (hsubs : w'.subs = w.subs)
    (hfault : w'.fault = false) (hfreed : w'.freed = w.freed)
    (hlent : ∀ r, w'.Holds r → w.Holds r) : w'.Sound where
  heap := by rw [hheap, hsubs]; exact hi.heap
  nonnull := by rw [hsubs]; exact hi.nonnull
  lent := fun r hr => by rw [hsubs]; exact hi.lent r (hlent r hr)
  fault := hfault
  freed := by rw [hfreed, hsubs]; exact hi.freed

theorem Sound.not_lent (hi : w.Sound) (hsub : w.subs[i]? = some ⟨kind, pc⟩) (hpc : pc.lent? = none)
    (r : Registration) (hr : w.Holds r) : r.owner ≠ i := by
  rintro rfl
  obtain ⟨-, sub, howner, -, hlent⟩ := hi.lent r hr
  rw [hsub] at howner
  cases howner
  rw [hpc] at hlent
  cases hlent

theorem Sound.lent_eq (hi : w.Sound) {ctx handle : ℕ} (hsub : w.subs[i]? = some ⟨kind, pc⟩)
    (hpc : pc.lent? = some (ctx, handle)) {r : Registration} (hr : w.Holds r) (howner : r.owner = i) :
    r.kind = kind ∧ r.ctx = ctx ∧ r.handle = handle ∧ handle ≠ 0 := by
  obtain ⟨hhandle, sub, hown, hkind, hlent⟩ := hi.lent r hr
  rw [howner, hsub] at hown
  cases hown
  obtain ⟨rfl, rfl⟩ := Prod.mk.inj (Option.some.inj (hpc.symm.trans hlent))
  exact ⟨hkind.symm, rfl, rfl, hhandle⟩

theorem Sound.holds_box (hi : w.Sound) {r : Registration} (hr : w.Holds r) :
    w.heap[r.ctx]? = some ⟨r.kind, r.owner⟩ := by
  obtain ⟨-, sub, howner, hkind, hlent⟩ := hi.lent r hr
  rw [← hkind]
  exact hi.box howner (Pc.ctx_of_lent hlent)

theorem Sound.allocates (hi : w.Sound) {ctx : ℕ} (hnonnull : ctx ≠ 0) (hfree : w.heap[ctx]? = none) :
    ({ w with
      heap := w.heap.insert ctx ⟨kind, w.subs.length⟩
      subs := w.subs ++ [⟨kind, .boxed ctx⟩] } : World).Sound := by
  have hsubs : ∀ j : ℕ, (w.subs ++ [(⟨kind, .boxed ctx⟩ : Sub)])[j]? =
      if j = w.subs.length then some ⟨kind, .boxed ctx⟩ else w.subs[j]? := by
    intro j
    split_ifs with hj
    · rw [hj, List.getElem?_concat_length]
    · rcases Nat.lt_or_ge j w.subs.length with hlt | hge
      · exact List.getElem?_append_left hlt
      · rw [List.getElem?_eq_none hge, List.getElem?_eq_none]
        simp only [List.length_append, List.length_singleton]
        omega
  have hnew : w.subs[w.subs.length]? = none := List.getElem?_eq_none (le_refl _)
  refine ⟨fun a b => ?_, fun j sub hj => ?_, fun r hr => ?_, hi.fault, fun j => ?_⟩
  · show (w.heap.insert ctx ⟨kind, w.subs.length⟩)[a]? = some b ↔ ∃ sub, _ ∧ _
    rw [getElem?_insert_ite, hsubs]
    have hold := hi.heap a b
    by_cases ha : a = ctx
    · rw [if_pos ha]
      by_cases hb : b.owner = w.subs.length
      · rw [if_pos hb]
        constructor
        · rintro h
          cases h
          exact ⟨_, rfl, rfl, congrArg some ha.symm⟩
        · rintro ⟨sub, hs, hkind, -⟩
          cases hs
          rw [show kind = b.kind from hkind, ← hb]
      · rw [if_neg hb]
        refine iff_of_false (fun h => ?_) fun h => ?_
        · cases h
          exact hb rfl
        · rw [← hold, ha, hfree] at h
          cases h
    · rw [if_neg ha, hold]
      by_cases hb : b.owner = w.subs.length
      · rw [if_pos hb, hb, hnew]
        refine iff_of_false (by rintro ⟨sub, hs, -⟩; cases hs) ?_
        rintro ⟨sub, hs, -, hc⟩
        cases hs
        exact ha (Option.some.inj hc).symm
      · rw [if_neg hb]
  · replace hj : (w.subs ++ [(⟨kind, .boxed ctx⟩ : Sub)])[j]? = some sub := hj
    rw [hsubs] at hj
    split_ifs at hj
    · cases hj
      exact fun h => hnonnull (Option.some.inj h)
    · exact hi.nonnull j sub hj
  · obtain ⟨hhandle, sub, howner, hrest⟩ := hi.lent r hr
    refine ⟨hhandle, sub, ?_, hrest⟩
    show (w.subs ++ [(⟨kind, .boxed ctx⟩ : Sub)])[r.owner]? = some sub
    rw [hsubs, if_neg (by rintro heq; rw [heq, hnew] at howner; cases howner)]
    exact howner
  · refine (hi.freed j).trans ?_
    show _ = if (w.subs ++ [(⟨kind, .boxed ctx⟩ : Sub)])[j]?.any _ then 1 else 0
    rw [hsubs]
    by_cases hj : j = w.subs.length
    · rw [if_pos hj, hj, hnew]
      rfl
    · rw [if_neg hj]

theorem trampoline_frame (decodes : Kind → String → Bool) (w : World) (r : Registration)
    (payload : String) :
    (w.trampoline decodes r payload).heap = w.heap ∧ (w.trampoline decodes r payload).subs = w.subs ∧
      (w.trampoline decodes r payload).registered = w.registered ∧
      (w.trampoline decodes r payload).freed = w.freed ∧
      ∀ i : ℕ, i ≠ r.owner →
        ((w.trampoline decodes r payload).calls.filter fun c => c.1 = i) =
          w.calls.filter fun c => c.1 = i := by
  unfold trampoline
  dsimp only
  split_ifs
  · exact ⟨rfl, rfl, rfl, rfl, fun _ _ => rfl⟩
  · exact ⟨rfl, rfl, rfl, rfl, fun _ _ => rfl⟩
  · refine ⟨rfl, rfl, rfl, rfl, fun i hi => ?_⟩
    simp [List.filter_append, Ne.symm hi]

/-- **Every step keeps the heap and the tables sound.** -/
theorem sound_step {a : Act} (hi : w.Sound) (hp : w.Promise a) (h : Moves decodes w a w') :
    w'.Sound := by
  cases h with
  | @subscribe kind ctx => exact hi.allocates hp.1 hp.2
  | @refuse i ctx kind hsub =>
    exact hi.moves_on hsub rfl fun r hr howner => absurd howner (hi.not_lent hsub rfl r hr)
  | @register i ctx handle kind hsub hhandle =>
    have hmoved : (w.moveTo i kind (.answered ctx handle)).Sound :=
      hi.moves_on hsub rfl fun r hr howner => absurd howner (hi.not_lent hsub rfl r hr)
    refine { hmoved with lent := fun r hr => ?_ }
    rcases hr with hr | hr
    · rcases List.mem_append.mp hr with hr | hr
      · exact hmoved.lent r (.inl hr)
      · obtain rfl := List.mem_singleton.mp hr
        refine ⟨hhandle, ⟨kind, .answered ctx handle⟩, ?_, rfl, rfl⟩
        show (w.moveTo i kind (.answered ctx handle)).subs[i]? = _
        rw [subs_moveTo hsub, if_pos rfl]
    · exact hmoved.lent r (.inr hr)
  | @fail i ctx kind hsub =>
    refine hi.frees hsub rfl (fun r hr howner => ?_) rfl
    exact (hi.lent_eq hsub rfl hr howner).2.2.2 rfl
  | @hold i ctx handle kind hsub | @drop i ctx handle kind hsub =>
    refine hi.moves_on hsub rfl fun r hr howner => ?_
    obtain ⟨-, rfl, rfl, -⟩ := hi.lent_eq hsub rfl hr howner
    rfl
  | @skip i ctx kind hsub =>
    refine hi.moves_on hsub rfl fun r hr howner => ?_
    exact absurd rfl (hi.lent_eq hsub rfl hr howner).2.2.2
  | @unregister i ctx handle kind hsub =>
    refine hi.calls rfl rfl hi.fault rfl fun r hr => hr.imp_left fun hr => ?_
    exact List.mem_of_mem_filter hr
  | @revoked i ctx handle kind hsub =>
    refine hi.moves_on hsub rfl fun r hr howner => ?_
    obtain ⟨hkind, -, hhandle, -⟩ := hi.lent_eq hsub rfl hr howner
    obtain ⟨htable, hrunning⟩ := hp (kind.party, handle) (by simp [revokes, hsub])
    have hunder : Under kind.party handle r := ⟨congrArg Kind.party hkind, hhandle⟩
    rcases hr with hr | ⟨c, hc, rfl⟩
    · exact absurd hunder (htable r hr)
    · exact absurd hunder (hrunning c hc)
  | @pass i kind hsub => exact absurd rfl (hi.nonnull i _ hsub)
  | @reclaim i ctx kind hsub => exact hi.frees hsub rfl (hi.not_lent hsub rfl) rfl
  | @shutdown r =>
    refine hi.calls rfl rfl hi.fault rfl fun r' hr => hr.imp_left fun hr => ?_
    exact List.mem_of_mem_erase hr
  | @fire r payload =>
    refine hi.calls rfl rfl hi.fault rfl ?_
    rintro r' (hr | ⟨c, hc, rfl⟩)
    · exact .inl hr
    · rcases List.mem_append.mp hc with hc | hc
      · exact .inr ⟨c, hc, rfl⟩
      · obtain rfl := List.mem_singleton.mp hc
        exact .inl hp
  | @enter c hc =>
    obtain ⟨hheap, hsubs, hregistered, hfreed, -⟩ := trampoline_frame decodes w c.reg c.payload
    have hbox := hi.holds_box (r := c.reg) (.inr ⟨c, hc, rfl⟩)
    refine hi.calls hheap hsubs ?_ hfreed ?_
    · show (w.trampoline decodes c.reg c.payload).fault = false
      unfold trampoline
      dsimp only
      split_ifs <;> simp [holds, hi.fault, hbox]
    · rintro r (hr | ⟨d, hd, rfl⟩)
      · exact .inl (hregistered ▸ hr)
      · rcases List.mem_append.mp hd with hd | hd
        · exact .inr ⟨d, List.mem_of_mem_erase hd, rfl⟩
        · obtain rfl := List.mem_singleton.mp hd
          exact .inr ⟨c, hc, rfl⟩
  | @finish c =>
    refine hi.calls rfl rfl hi.fault rfl fun r hr => hr.imp_right ?_
    rintro ⟨d, hd, rfl⟩
    exact ⟨d, List.mem_of_mem_erase hd, rfl⟩

theorem sound_of_reach (hr : Reach (Steps decodes) Promise start w) : w.Sound :=
  hr.invariant sound_start fun _ _ _ hu hp hs => sound_step hu hp (moves_of_step hs)

/-! ## After the end -/

/-- The subscription is over, and its closure was called with these payloads. -/
def Over (i : ℕ) (payloads : List (ℕ × String)) (w : World) : Prop :=
  (∃ sub, w.subs[i]? = some sub ∧ sub.pc.ended = true) ∧
    (w.calls.filter fun c => c.1 = i) = payloads

theorem ended_moveTo {j : ℕ} (hsub : w.subs[j]? = some ⟨kind, pc⟩) (hpc : pc.ended = false)
    (h : ∃ sub, w.subs[i]? = some sub ∧ sub.pc.ended = true) :
    ∃ sub, (w.moveTo j kind pc').subs[i]? = some sub ∧ sub.pc.ended = true := by
  obtain ⟨sub, hs, hended⟩ := h
  refine ⟨sub, ?_, hended⟩
  rw [subs_moveTo hsub, if_neg ?_]
  · exact hs
  · rintro rfl
    rw [hsub] at hs
    cases hs
    rw [hpc] at hended
    cases hended

theorem over_step {a : Act} {payloads : List (ℕ × String)} (hi : w.Sound) (ho : Over i payloads w)
    (h : Moves decodes w a w') : Over i payloads w' := by
  obtain ⟨hended, hcalls⟩ := ho
  cases h with
  | subscribe =>
    obtain ⟨sub, hs, hend⟩ := hended
    exact ⟨⟨sub, List.getElem?_append_left (List.getElem?_eq_some_iff.mp hs).1 ▸ hs, hend⟩, hcalls⟩
  | refuse hsub | register hsub | fail hsub | hold hsub | skip hsub | drop hsub | revoked hsub
  | pass hsub | reclaim hsub => exact ⟨ended_moveTo hsub rfl hended, hcalls⟩
  | unregister | shutdown | fire | finish => exact ⟨hended, hcalls⟩
  | @enter c hc =>
    obtain ⟨-, hsubs, -, -, hothers⟩ := trampoline_frame decodes w c.reg c.payload
    obtain ⟨sub, hs, hend⟩ := hended
    have hnot : i ≠ c.reg.owner := by
      rintro rfl
      have hlent : sub.pc.lent? = none := Pc.lent_of_ended hend
      exact hi.not_lent hs hlent c.reg (.inr ⟨c, hc, rfl⟩) rfl
    exact ⟨⟨sub, hsubs ▸ hs, hend⟩, (hothers i hnot).trans hcalls⟩

end Steps

/-- **No callback outlives its box.** Whatever the order in which plugins subscribe and drop, parties
answer, call and end streams, and callbacks run, as long as the allocator and the parties keep their
promise: every box a callback runs on is there and of its type, no other address is ever called or
reclaimed; a box is in the heap exactly while its subscription is not over, and is reclaimed exactly
once; and the closure of a subscription that is over is not called again. -/
theorem subscriptions_safe {decodes : Kind → String → Bool} {w : World}
    (hr : Reach (Steps decodes) Promise start w) :
    w.fault = false ∧ (∀ c ∈ w.running, w.heap[c.reg.ctx]? = some ⟨c.reg.kind, c.reg.owner⟩) ∧
      (∀ (a : ℕ) (b : CallbackBox), w.heap[a]? = some b ↔ ∃ sub, w.subs[b.owner]? = some sub ∧
        sub.kind = b.kind ∧ sub.pc.ctx? = some a) ∧
      (∀ (i : ℕ) (sub : Sub), w.subs[i]? = some sub →
        w.freed.count i = if sub.pc.ended then 1 else 0) ∧
      ∀ (i : ℕ) (sub : Sub), w.subs[i]? = some sub → sub.pc.ended = true →
        ∀ w', Reach (Steps decodes) Promise w w' →
          (w'.calls.filter fun c => c.1 = i) = w.calls.filter fun c => c.1 = i := by
  have hi := sound_of_reach hr
  refine ⟨hi.fault, fun c hc => hi.holds_box (.inr ⟨c, hc, rfl⟩), hi.heap, fun i sub hsub => ?_,
    fun i sub hsub hended w' hr' => ?_⟩
  · rw [hi.freed i, hsub]
    rfl
  · refine (hr'.invariant (I := fun u => u.Sound ∧ Over i (w.calls.filter fun c => c.1 = i) u)
      ⟨hi, ⟨sub, hsub, hended⟩, rfl⟩ ?_).2.2
    rintro u a v ⟨hu, ho⟩ hp hs
    exact ⟨sound_step hu hp (moves_of_step hs), over_step hu ho (moves_of_step hs)⟩

/-- A topic's subscription is called, is dropped while a callback runs, and its address is used again by
one of another type. -/
def reusesAddress : List Act :=
  let topic : Registration := ⟨.publishedMessage, 5, 8, 0⟩
  let rotation : Registration := ⟨.secretRotation, 5, 8, 1⟩
  [.subscribe .publishedMessage 8, .answer 0 5, .fire topic "a", .returns 0, .enter ⟨topic, "a", false⟩,
    .drop 0, .unregister 0, .finish ⟨topic, "a", true⟩, .revoked 0, .reclaim 0,
    .subscribe .secretRotation 8, .answer 1 5, .returns 1, .fire rotation "b",
    .enter ⟨rotation, "b", false⟩]

theorem subscriptions_safe_reusesAddress :
    ∃ w, reusesAddress.foldlM
        (fun w a => if w.Promise a then w.step (fun _ _ => true) a else none) start = some w ∧
      w.calls = [(0, "a"), (1, "b")] ∧ w.freed = [0] ∧ w.fault = false := by
  obtain ⟨w, hw, hcalls, hfreed⟩ := end_of_run
    (r := reusesAddress.foldlM
      (fun w a => if w.Promise a then w.step (fun _ _ => true) a else none) start)
    (P := fun w => w.calls = [(0, "a"), (1, "b")] ∧ w.freed = [0]) (by decide +kernel)
  have hr : Reach (Steps fun _ _ => true) Promise start w := by
    refine Reach.of_foldlM
      (g := fun w a => if w.Promise a then w.step (fun _ _ => true) a else none) (fun u a v hs => ?_) hw
    exact Option.ite_none_right_eq_some.mp hs
  exact ⟨w, hw, hcalls, hfreed, (subscriptions_safe hr).1⟩

/-- The promise is needed: a gateway that returns from `host_unsubscribe` while a callback is about to
enter has it call a box that was reclaimed. -/
theorem fault_without_promise :
    let r : Registration := ⟨.secretRotation, 5, 8, 0⟩
    ([.subscribe .secretRotation 8, .answer 0 5, .returns 0, .fire r "a", .drop 0, .unregister 0,
      .revoked 0, .reclaim 0, .enter ⟨r, "a", false⟩].foldlM (step fun _ _ => true) start).map fault =
      some true := by
  decide +kernel

end World

end Subscribe

end McpgSdk
