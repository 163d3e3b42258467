import McpgSdk.Cluster.Kv
import McpgSdk.Lib.Iterate
import McpgSdk.Lib.Run

/-!
# Listing by pages

`collect_pages` asks for page after page until it holds enough entries or there is no next cursor.

* `Enumerates`: a pager that hands out a list of entries in order, in any pages;
* `Ask`, `recorded`: the pages a listing asks for;
* **`collectPages_exact`**: a listing of such a pager, and what every listing asks for;
* `Led`, `Starves`: the cursors a pager leads to, and empty pages without an end;
* **`collectPages_ends_iff`**: when a listing ends;
* `cursors_in_turn`: a pager whose cursors alternate is asked forever.
-/

set_option autoImplicit false

namespace McpgSdk

namespace Cluster

variable {σ E V : Type} {env : KvEnv E} {limit : ℕ}

/-! ## Exact listings -/

/-- Asked with `cursor` in state `s`, the pager hands out `entries` in order: whatever page it returns
when up to `size` entries are wanted is a first part, which may be empty or longer than asked for. The
last page has no next cursor. Any other one names a cursor it was not asked with, from which the pager
hands out the rest. A pager with a failure answers with that error instead of a last page. -/
inductive Enumerates (nextPage : Option String → ℕ → Method σ E (KvPage V)) (size : ℕ) :
    σ → Option String → List (String × V) → Option E → Prop
  | pages {s : σ} {cursor : Option String} {entries : List (String × V)} {failure : Option E}
      (page : ℕ → KvPage V) (state : ℕ → σ) (rest : ℕ → List (String × V))
      (answers : ∀ want, 0 < want → want ≤ size →
        nextPage cursor want s = (.returned (.ok (page want)), state want))
      (inOrder : ∀ want, 0 < want → want ≤ size → entries = (page want).entries ++ rest want)
      (last : ∀ want, 0 < want → want ≤ size → (page want).next = none →
        rest want = [] ∧ failure = none)
      (moves : ∀ want next, 0 < want → want ≤ size → (page want).next = some next →
        cursor ≠ some next)
      (goesOn : ∀ want next, 0 < want → want ≤ size → (page want).next = some next →
        Enumerates nextPage size (state want) (some next) (rest want) failure) :
      Enumerates nextPage size s cursor entries failure
  | failed {s : σ} {cursor : Option String} {e : E} (state : ℕ → σ)
      (answers : ∀ want, 0 < want → want ≤ size →
        nextPage cursor want s = (.returned (.error e), state want)) :
      Enumerates nextPage size s cursor [] (some e)

/-- One page a listing asks for, and what it gets. -/
structure Ask (E V : Type) where
  cursor : Option String
  want : ℕ
  answer : Outcome E (KvPage V)

/-- The entries of the page. -/
def Ask.entries (a : Ask E V) : List (String × V) :=
  match a.answer with
  | .returned (.ok page) => page.entries
  | _ => []

/-- The entries held after some pages. -/
def heldAfter (limit : ℕ) (asks : List (Ask E V)) : List (String × V) :=
  (asks.flatMap Ask.entries).take limit

/-- A page is asked for while entries are missing, and no more of them than that or than a page has. -/
def Ask.InBounds (size limit : ℕ) (before : List (Ask E V)) (a : Ask E V) : Prop :=
  (heldAfter limit before).length < limit ∧ 1 ≤ a.want ∧
    a.want ≤ min size (limit - (heldAfter limit before).length)

/-- The pages asked for after `before` are within bounds, and an error is the last answer and the
result. -/
def AskedWell (size limit : ℕ) (result : Outcome E (List (String × V)))
    (before asks : List (Ask E V)) : Prop :=
  ∀ pre a post, asks = pre ++ a :: post → a.InBounds size limit (before ++ pre) ∧
    ∀ e, a.answer = .returned (.error e) → post = [] ∧ result = .returned (.error e)

/-- The pager with a record of what it is asked. -/
def recorded (nextPage : Option String → ℕ → Method σ E (KvPage V)) (cursor : Option String)
    (want : ℕ) : Method (σ × List (Ask E V)) E (KvPage V) := fun s =>
  let (answer, s') := nextPage cursor want s.1
  (answer, s', s.2 ++ [⟨cursor, want, answer⟩])

section Step

variable {nextPage : Option String → ℕ → Method σ E (KvPage V)} {out : List (String × V)}
  {cursor : Option String} {s s' : σ}

theorem collectLoop_full (h : ¬ out.length < limit) (fuel : ℕ) :
    collectLoop env limit nextPage (fuel + 1) out cursor s = some (.returned (.ok out), s) := by
  rw [collectLoop, if_neg h]

theorem collectLoop_panicked (h : out.length < limit)
    (hpage : nextPage cursor (min (limit - out.length) env.listPageSize) s = (.panicked, s'))
    (fuel : ℕ) :
    collectLoop env limit nextPage (fuel + 1) out cursor s = some (.panicked, s') := by
  rw [collectLoop, if_pos h]
  simp only [hpage]

theorem collectLoop_error (h : out.length < limit) {e : E}
    (hpage : nextPage cursor (min (limit - out.length) env.listPageSize) s =
      (.returned (.error e), s')) (fuel : ℕ) :
    collectLoop env limit nextPage (fuel + 1) out cursor s = some (.returned (.error e), s') := by
  rw [collectLoop, if_pos h]
  simp only [hpage]

theorem collectLoop_last (h : out.length < limit) {page : KvPage V}
    (hpage : nextPage cursor (min (limit - out.length) env.listPageSize) s =
      (.returned (.ok page), s')) (hlast : ∀ next, page.next = some next → cursor = some next)
    (fuel : ℕ) :
    collectLoop env limit nextPage (fuel + 1) out cursor s =
      some (.returned (.ok (out ++ page.entries.take (limit - out.length))), s') := by
  rw [collectLoop, if_pos h]
  simp only [hpage]
  cases hnext : page.next with
  | none => rfl
  | some next => exact if_pos (hlast next hnext)

theorem collectLoop_next (h : out.length < limit) {page : KvPage V} {next : String}
    (hpage : nextPage cursor (min (limit - out.length) env.listPageSize) s =
      (.returned (.ok page), s')) (hnext : page.next = some next) (hmoves : cursor ≠ some next)
    (fuel : ℕ) :
    collectLoop env limit nextPage (fuel + 1) out cursor s =
      collectLoop env limit nextPage fuel (out ++ page.entries.take (limit - out.length)) (some next)
        s' := by
  rw [collectLoop, if_pos h]
  simp only [hpage, hnext, if_neg hmoves]

/-- One page of the loop: it is full, the page is no page, or the last one, or there is a next one. -/
theorem collectLoop_cases (env : KvEnv E) (limit : ℕ)
    (nextPage : Option String → ℕ → Method σ E (KvPage V)) (out : List (String × V))
    (cursor : Option String) (s : σ) :
    ¬ out.length < limit ∨ out.length < limit ∧ ∃ answer s',
      nextPage cursor (min (limit - out.length) env.listPageSize) s = (answer, s') ∧
      (answer = .panicked ∨ (∃ e, answer = .returned (.error e)) ∨
        (∃ page, answer = .returned (.ok page) ∧ ∀ next, page.next = some next → cursor = some next) ∨
        ∃ page next, answer = .returned (.ok page) ∧ page.next = some next ∧ cursor ≠ some next) := by
  by_cases h : out.length < limit
  · refine .inr ⟨h, _, _, rfl, ?_⟩
    generalize nextPage cursor (min (limit - out.length) env.listPageSize) s = r
    obtain ⟨answer, s'⟩ := r
    cases answer with
    | panicked => exact .inl rfl
    | returned result =>
      cases result with
      | error e => exact .inr (.inl ⟨e, rfl⟩)
      | ok page =>
        refine .inr (.inr ?_)
        by_cases hlast : ∀ next, page.next = some next → cursor = some next
        · exact .inl ⟨page, rfl, hlast⟩
        · obtain ⟨next, hnext⟩ := not_forall.mp hlast
          obtain ⟨hnext, hmoves⟩ := Classical.not_imp.mp hnext
          exact .inr ⟨page, next, rfl, hnext, hmoves⟩
  · exact .inl h

end Step

/-- What a listing that holds `out` makes of a pager with these entries and this failure. -/
def listing (limit : ℕ) (out entries : List (String × V)) (failure : Option E) :
    Except E (List (String × V)) :=
  match failure with
  | some e =>
    if out.length + entries.length < limit then .error e
    else .ok (out ++ entries.take (limit - out.length))
  | none => .ok (out ++ entries.take (limit - out.length))

theorem listing_page {out : List (String × V)} (h : out.length ≤ limit)
    (entries rest : List (String × V)) (failure : Option E) :
    listing limit (out ++ entries.take (limit - out.length)) rest failure =
      listing limit out (entries ++ rest) failure := by
  have hlen : (out ++ entries.take (limit - out.length)).length =
      out.length + min (limit - out.length) entries.length := by
    rw [List.length_append, List.length_take]
  have hleft : limit - (out.length + min (limit - out.length) entries.length) =
      limit - out.length - entries.length := by omega
  have hmissing : out.length + min (limit - out.length) entries.length + rest.length < limit ↔
      out.length + (entries.length + rest.length) < limit := by omega
  unfold listing
  simp only [hlen, hleft, hmissing, List.length_append, List.append_assoc, List.take_append]

theorem listing_full {out : List (String × V)} (h : out.length = limit)
    (entries : List (String × V)) (failure : Option E) :
    listing limit out entries failure = .ok out := by
  subst h
  unfold listing
  cases failure <;> simp

theorem collectLoop_enumerates (hsize : 0 < env.listPageSize)
    {nextPage : Option String → ℕ → Method σ E (KvPage V)} {s : σ} {cursor : Option String}
    {entries : List (String × V)} {failure : Option E}
    (h : Enumerates nextPage env.listPageSize s cursor entries failure) :
    ∀ out : List (String × V), out.length ≤ limit → ∃ fuel s',
      collectLoop env limit nextPage fuel out cursor s =
        some (.returned (listing limit out entries failure), s') := by
  induction h with
  | @pages s cursor entries failure page state rest answers inOrder last moves goesOn ih =>
    intro out hout
    by_cases hroom : out.length < limit
    · have hwant : 0 < min (limit - out.length) env.listPageSize := by omega
      have hwant' : min (limit - out.length) env.listPageSize ≤ env.listPageSize :=
        Nat.min_le_right _ _
      have hpage := answers _ hwant hwant'
      have hentries := inOrder _ hwant hwant'
      have hlast := last _ hwant hwant'
      have hnexts := moves (min (limit - out.length) env.listPageSize)
      have hrest := ih (min (limit - out.length) env.listPageSize)
      generalize page (min (limit - out.length) env.listPageSize) = p at *
      generalize rest (min (limit - out.length) env.listPageSize) = r at *
      cases hnext : p.next with
      | none =>
        obtain ⟨rfl, rfl⟩ := hlast hnext
        rw [List.append_nil] at hentries
        have hdone := collectLoop_last hroom hpage (by rw [hnext]; exact nofun) 0
        rw [← hentries] at hdone
        exact ⟨1, _, hdone⟩
      | some next =>
        have hmoves := hnexts next hwant hwant' hnext
        have hlen : (out ++ p.entries.take (limit - out.length)).length ≤ limit := by
          rw [List.length_append, List.length_take]
          omega
        obtain ⟨fuel, s', hloop⟩ := hrest next hwant hwant' hnext _ hlen
        refine ⟨fuel + 1, s', ?_⟩
        rw [collectLoop_next hroom hpage hnext hmoves, hloop, listing_page hout, ← hentries]
    · refine ⟨1, s, ?_⟩
      rw [collectLoop_full hroom, listing_full (by omega)]
  | @failed s cursor e state answers =>
    intro out hout
    by_cases hroom : out.length < limit
    · have hpage := answers (min (limit - out.length) env.listPageSize) (by omega)
        (Nat.min_le_right _ _)
      refine ⟨1, state (min (limit - out.length) env.listPageSize), ?_⟩
      rw [collectLoop_error hroom hpage, listing, List.length_nil, Nat.add_zero, if_pos hroom]
    · refine ⟨1, s, ?_⟩
      rw [collectLoop_full hroom, listing_full (by omega)]

/-! ## The pages asked for -/

section Record

variable {nextPage : Option String → ℕ → Method σ E (KvPage V)}

theorem recorded_of_eq {cursor : Option String} {want : ℕ} {s s' : σ}
    {answer : Outcome E (KvPage V)} (h : nextPage cursor want s = (answer, s'))
    (asks : List (Ask E V)) :
    recorded nextPage cursor want (s, asks) = (answer, s', asks ++ [⟨cursor, want, answer⟩]) := by
  simp only [recorded, h]

theorem collectLoop_recorded (fuel : ℕ) (out : List (String × V)) (cursor : Option String) (s : σ)
    (asks : List (Ask E V)) :
    (collectLoop env limit (recorded nextPage) fuel out cursor (s, asks)).map
        (fun r => (r.1, r.2.1)) = collectLoop env limit nextPage fuel out cursor s := by
  induction fuel generalizing out cursor s asks with
  | zero => rfl
  | succ fuel ih =>
    rcases collectLoop_cases env limit nextPage out cursor s with
      hfull | ⟨hroom, answer, s', hpage, hpanicked | ⟨e, he⟩ | ⟨page, hok, hlast⟩ |
        ⟨page, next, hok, hnext, hmoves⟩⟩
    · rw [collectLoop_full hfull, collectLoop_full hfull]
      rfl
    · subst hpanicked
      rw [collectLoop_panicked hroom hpage, collectLoop_panicked hroom (recorded_of_eq hpage asks)]
      rfl
    · subst he
      rw [collectLoop_error hroom hpage, collectLoop_error hroom (recorded_of_eq hpage asks)]
      rfl
    · subst hok
      rw [collectLoop_last hroom hpage hlast, collectLoop_last hroom (recorded_of_eq hpage asks) hlast]
      rfl
    · subst hok
      rw [collectLoop_next hroom hpage hnext hmoves,
        collectLoop_next hroom (recorded_of_eq hpage asks) hnext hmoves]
      exact ih _ _ _ _

theorem heldAfter_concat {asks : List (Ask E V)} (h : (heldAfter limit asks).length < limit)
    (a : Ask E V) :
    heldAfter limit (asks ++ [a]) =
      heldAfter limit asks ++ a.entries.take (limit - (heldAfter limit asks).length) := by
  unfold heldAfter at h ⊢
  rw [List.length_take] at h ⊢
  have hmin : min limit (asks.flatMap Ask.entries).length = (asks.flatMap Ask.entries).length := by
    omega
  rw [List.flatMap_append, List.flatMap_singleton, List.take_append, hmin]

theorem inBounds_next (hsize : 0 < env.listPageSize) {before : List (Ask E V)}
    (hroom : (heldAfter limit before).length < limit) (cursor : Option String)
    (answer : Outcome E (KvPage V)) :
    Ask.InBounds env.listPageSize limit before
      ⟨cursor, min (limit - (heldAfter limit before).length) env.listPageSize, answer⟩ := by
  refine ⟨hroom, ?_, ?_⟩
  · show 1 ≤ min _ _
    omega
  · show min _ _ ≤ min _ _
    omega

variable {size : ℕ} {result : Outcome E (List (String × V))}

theorem askedWell_nil (before : List (Ask E V)) : AskedWell size limit result before [] := by
  intro pre a post hsplit
  exact absurd hsplit nil_ne_split

theorem askedWell_cons {before asks : List (Ask E V)} {a : Ask E V}
    (ha : a.InBounds size limit before)
    (herror : ∀ e, a.answer = .returned (.error e) → asks = [] ∧ result = .returned (.error e))
    (h : AskedWell size limit result (before ++ [a]) asks) :
    AskedWell size limit result before (a :: asks) := by
  intro pre b post hsplit
  cases pre with
  | nil =>
    obtain ⟨rfl, rfl⟩ := List.cons.inj hsplit
    rw [List.append_nil]
    exact ⟨ha, herror⟩
  | cons a' pre =>
    obtain ⟨rfl, hrest⟩ := List.cons.inj hsplit
    have hb := h pre b post hrest
    rw [List.append_assoc] at hb
    exact hb

theorem asks_of_collectLoop (hsize : 0 < env.listPageSize) {fuel : ℕ} {cursor : Option String}
    {s s' : σ} {before asks : List (Ask E V)}
    (h : collectLoop env limit (recorded nextPage) fuel (heldAfter limit before) cursor (s, before) =
      some (result, s', asks)) :
    ∃ new, asks = before ++ new ∧ AskedWell env.listPageSize limit result before new := by
  induction fuel generalizing cursor s before with
  | zero => cases h
  | succ fuel ih =>
    have hbounds : ∀ {answer : Outcome E (KvPage V)}, (heldAfter limit before).length < limit →
        Ask.InBounds env.listPageSize limit before
          ⟨cursor, min (limit - (heldAfter limit before).length) env.listPageSize, answer⟩ :=
      fun hroom => inBounds_next hsize hroom cursor _
    rcases collectLoop_cases env limit nextPage (heldAfter limit before) cursor s with
      hfull | ⟨hroom, answer, s₁, hpage, hpanicked | ⟨e, he⟩ | ⟨page, hok, hstop⟩ |
        ⟨page, next, hok, hnext, hmoves⟩⟩
    · rw [collectLoop_full hfull] at h
      cases h
      exact ⟨[], (List.append_nil _).symm, askedWell_nil _⟩
    · subst hpanicked
      rw [collectLoop_panicked hroom (recorded_of_eq hpage before)] at h
      cases h
      exact ⟨_, rfl, askedWell_cons (hbounds hroom) nofun (askedWell_nil _)⟩
    · subst he
      rw [collectLoop_error hroom (recorded_of_eq hpage before)] at h
      cases h
      exact ⟨_, rfl, askedWell_cons (hbounds hroom) (fun e' he' => ⟨rfl, by cases he'; rfl⟩)
        (askedWell_nil _)⟩
    · subst hok
      rw [collectLoop_last hroom (recorded_of_eq hpage before) hstop] at h
      cases h
      exact ⟨_, rfl, askedWell_cons (hbounds hroom) nofun (askedWell_nil _)⟩
    · subst hok
      have hheld := heldAfter_concat hroom ⟨cursor,
        min (limit - (heldAfter limit before).length) env.listPageSize, .returned (.ok page)⟩
      rw [collectLoop_next hroom (recorded_of_eq hpage before) hnext hmoves] at h
      obtain ⟨new, rfl, hnew⟩ := ih (hheld ▸ h)
      exact ⟨_ :: new, List.append_assoc _ _ _, askedWell_cons (hbounds hroom) nofun hnew⟩

end Record

/-- **A listing by pages is exact.** Of a pager that hands out some entries, in pages of any size, it
returns the first `limit` of them, or the pager's error when it comes before. So does the default
`kv_list_prefix`. Whatever the pager does, the listing asks for no page once it holds enough, wants at
least one entry and no more than are missing or than a page has, and returns the first error. -/
theorem collectPages_exact (env : KvEnv E) (hsize : 0 < env.listPageSize) (limit : ℕ)
    (nextPage : Option String → ℕ → Method σ E (KvPage V)) (s : σ) :
    (∀ entries, Enumerates nextPage env.listPageSize s none entries none → ∃ enough s',
      ∀ fuel ≥ enough, collectPages env fuel limit nextPage s =
        some (.returned (.ok (entries.take limit)), s')) ∧
    (∀ entries e, Enumerates nextPage env.listPageSize s none entries (some e) →
      entries.length < limit → ∃ enough s', ∀ fuel ≥ enough,
        collectPages env fuel limit nextPage s = some (.returned (.error e), s')) ∧
    (∀ (b : KvBackend σ E V) (start : String) (entries : List (String × V)), b.listPrefix = none →
      Enumerates (b.kvListPage env start) env.listPageSize s none entries none → ∃ enough s',
        ∀ fuel ≥ enough, b.kvListPrefix env fuel start limit s =
          some (.returned (.ok (entries.take limit)), s')) ∧
    ∀ fuel, (collectPages env fuel limit (recorded nextPage) (s, [])).map (fun r => (r.1, r.2.1)) =
        collectPages env fuel limit nextPage s ∧
      ∀ result s' asks, collectPages env fuel limit (recorded nextPage) (s, []) =
        some (result, s', asks) → ∀ pre a post, asks = pre ++ a :: post →
          (heldAfter limit pre).length < limit ∧ 1 ≤ a.want ∧
          a.want ≤ min env.listPageSize (limit - (heldAfter limit pre).length) ∧
          ∀ e, a.answer = .returned (.error e) → post = [] ∧ result = .returned (.error e) := by
  have hpages : ∀ {nextPage : Option String → ℕ → Method σ E (KvPage V)} {entries failure},
      Enumerates nextPage env.listPageSize s none entries failure → ∃ enough s', ∀ fuel ≥ enough,
        collectPages env fuel limit nextPage s =
          some (.returned (listing limit [] entries failure), s') := by
    intro nextPage entries failure h
    obtain ⟨enough, s', hloop⟩ := collectLoop_enumerates hsize h [] (Nat.zero_le limit)
    exact ⟨enough, s', fun fuel hfuel => collectLoop_mono hfuel hloop⟩
  refine ⟨fun entries h => hpages h, fun entries e h hlen => ?_, fun b start entries hb h => ?_,
    fun fuel => ⟨collectLoop_recorded _ _ _ _ _, fun result s' asks h pre a post hsplit => ?_⟩⟩
  · obtain ⟨enough, s', hresult⟩ := hpages h
    refine ⟨enough, s', fun fuel hfuel => ?_⟩
    rw [hresult fuel hfuel, listing, List.length_nil, Nat.zero_add, if_pos hlen]
  · obtain ⟨enough, s', hresult⟩ := hpages h
    refine ⟨enough, s', fun fuel hfuel => ?_⟩
    rw [KvBackend.kvListPrefix, hb]
    exact hresult fuel hfuel
  · have hheld : heldAfter limit ([] : List (Ask E V)) = [] := List.take_nil
    unfold collectPages at h
    rw [← hheld] at h
    obtain ⟨new, rfl, hnew⟩ := asks_of_collectLoop hsize h
    obtain ⟨⟨hroom, hone, hwant⟩, herror⟩ := hnew pre a post hsplit
    exact ⟨hroom, hone, hwant, herror⟩

/-- Three entries in three pages, one of them empty. -/
def threePages (cursor : Option String) (_want : ℕ) : Method Unit StoreError (KvPage ℕ) := fun s =>
  (.returned (.ok
    (if cursor = none then ⟨[("a", 1)], some "1"⟩
    else if cursor = some "1" then ⟨[], some "2"⟩
    else ⟨[("b", 2), ("c", 3)], none⟩)), s)

theorem threePages_enumerates (size : ℕ) :
    Enumerates threePages size () none [("a", 1), ("b", 2), ("c", 3)] none := by
  refine .pages (fun _ => ⟨[("a", 1)], some "1"⟩) (fun _ => ()) (fun _ => [("b", 2), ("c", 3)])
    (fun _ _ _ => rfl) (fun _ _ _ => rfl) nofun nofun fun _ next _ _ hnext => ?_
  obtain rfl := Option.some.inj hnext
  refine .pages (fun _ => ⟨[], some "2"⟩) (fun _ => ()) (fun _ => [("b", 2), ("c", 3)])
    (fun _ _ _ => rfl) (fun _ _ _ => rfl) nofun (fun _ next _ _ hnext => ?_)
    fun _ next _ _ hnext => ?_
  · obtain rfl := Option.some.inj hnext
    decide
  · obtain rfl := Option.some.inj hnext
    exact .pages (fun _ => ⟨[("b", 2), ("c", 3)], none⟩) (fun _ => ()) (fun _ => [])
      (fun _ _ _ => rfl) (fun _ _ _ => rfl) (fun _ _ _ _ => ⟨rfl, rfl⟩) nofun nofun

theorem collectPages_exact_threePages :
    0 < plainKvEnv.listPageSize ∧ ∃ enough s', ∀ fuel ≥ enough,
      collectPages plainKvEnv fuel 2 threePages () =
        some (.returned (.ok [("a", 1), ("b", 2)]), s') :=
  ⟨by decide, (collectPages_exact plainKvEnv (by decide) 2 threePages ()).1 _
    (threePages_enumerates _)⟩

/-! ## Listings that end -/

/-- A pager without a state, which always returns a page or an error. -/
def pureMethod (next : Option String → ℕ → Except E (KvPage V)) (cursor : Option String) (want : ℕ) :
    Method Unit E (KvPage V) := fun s => (.returned (next cursor want), s)

section Ends

variable (next : Option String → ℕ → Except E (KvPage V)) (size limit : ℕ)

/-- The cursors a listing is led to, each with how many entries are held there: from a place where some
are missing, by a page that names a cursor it was not asked with. -/
inductive Led : Option String → ℕ → Prop
  | start : Led none 0
  | page {cursor : Option String} {held : ℕ} {page : KvPage V} {c : String} : Led cursor held →
      held < limit → next cursor (min (limit - held) size) = .ok page → page.next = some c →
      cursor ≠ some c → Led (some c) (held + min (limit - held) page.entries.length)

/-- Entries are missing, and only empty pages follow, each naming another cursor than the one it was
asked with, without an end. -/
def Starves (cursor : Option String) (held : ℕ) : Prop :=
  held < limit ∧ ∃ cursors : ℕ → Option String, cursors 0 = cursor ∧ ∀ i, ∃ page c,
    next (cursors i) (min (limit - held) size) = .ok page ∧ page.entries = [] ∧
      page.next = some c ∧ cursors i ≠ some c ∧ cursors (i + 1) = some c

/-- From one place of a listing to the next. -/
def pageStep (q : Option String × ℕ) : Option (Option String × ℕ) :=
  if q.2 < limit then
    match next q.1 (min (limit - q.2) size) with
    | .error _ => none
    | .ok page =>
      match page.next with
      | none => none
      | some c =>
        if q.1 = some c then none else some (some c, q.2 + min (limit - q.2) page.entries.length)
  else none

variable {next size limit}

theorem pageStep_eq_some {q q' : Option String × ℕ} :
    pageStep next size limit q = some q' ↔ q.2 < limit ∧ ∃ page c,
      next q.1 (min (limit - q.2) size) = .ok page ∧ page.next = some c ∧ q.1 ≠ some c ∧
        (some c, q.2 + min (limit - q.2) page.entries.length) = q' := by
  unfold pageStep
  by_cases hroom : q.2 < limit
  · rw [if_pos hroom]
    cases hpage : next q.1 (min (limit - q.2) size) with
    | error e => simp
    | ok page =>
      cases hnext : page.next with
      | none => simp [hnext]
      | some c =>
        by_cases hmoves : q.1 = some c
        · simp [hnext, hmoves]
        · simp [hnext, hmoves, hroom]
  · simp [hroom]

theorem held_pageStep {q q' : Option String × ℕ} (h : pageStep next size limit q = some q') :
    q.2 ≤ q'.2 ∧ q'.2 ≤ limit := by
  obtain ⟨hroom, page, c, -, -, -, rfl⟩ := pageStep_eq_some.mp h
  constructor
  · exact Nat.le_add_right _ _
  · show q.2 + min _ _ ≤ limit
    omega

theorem led_iff {cursor : Option String} {held : ℕ} :
    Led next size limit cursor held ↔
      ∃ n, Iterate.after (pageStep next size limit) n (none, 0) = some (cursor, held) := by
  constructor
  · intro h
    induction h with
    | start => exact ⟨0, rfl⟩
    | page _ hroom hpage hnext hmoves ih =>
      obtain ⟨n, hn⟩ := ih
      refine ⟨n + 1, ?_⟩
      rw [Iterate.after_succ, hn, Option.bind_some]
      exact pageStep_eq_some.mpr ⟨hroom, _, _, hpage, hnext, hmoves, rfl⟩
  · rintro ⟨n, hn⟩
    induction n generalizing cursor held with
    | zero =>
      cases hn
      exact .start
    | succ n ih =>
      rw [Iterate.after_succ] at hn
      obtain ⟨q, hq, hstep⟩ := Option.bind_eq_some_iff.mp hn
      obtain ⟨hroom, page, c, hpage, hnext, hmoves, heq⟩ := pageStep_eq_some.mp hstep
      cases heq
      exact .page (ih hq) hroom hpage hnext hmoves

theorem starves_iff {cursor : Option String} {held : ℕ} :
    Starves next size limit cursor held ↔
      Iterate.Stutters (pageStep next size limit) Prod.snd (cursor, held) := by
  constructor
  · rintro ⟨hroom, cursors, rfl, hcursors⟩
    refine ⟨fun i => (cursors i, held), rfl, fun i => ⟨?_, rfl⟩⟩
    obtain ⟨page, c, hpage, hempty, hnext, hmoves, hc⟩ := hcursors i
    refine pageStep_eq_some.mpr ⟨hroom, page, c, hpage, hnext, hmoves, ?_⟩
    show (some c, held + min (limit - held) page.entries.length) = (cursors (i + 1), held)
    rw [hempty, hc, List.length_nil, Nat.min_zero, Nat.add_zero]
  · rintro ⟨x, hx₀, hx⟩
    have hheld : ∀ i, (x i).2 = held := by
      intro i
      induction i with
      | zero => rw [hx₀]
      | succ i ih => rw [(hx i).2, ih]
    have hroom : held < limit := by
      have hfirst := (pageStep_eq_some.mp (hx 0).1).1
      rwa [hheld] at hfirst
    refine ⟨hroom, fun i => (x i).1, congrArg Prod.fst hx₀, fun i => ?_⟩
    obtain ⟨-, page, c, hpage, hnext, hmoves, hc⟩ := pageStep_eq_some.mp (hx i).1
    rw [hheld] at hpage hc
    have hsame := congrArg Prod.snd hc
    rw [hheld] at hsame
    -- a page with entries would add one of them
    have hempty : page.entries.length = 0 := by
      change held + min _ _ = held at hsame
      omega
    exact ⟨page, c, hpage, List.length_eq_zero_iff.mp hempty, hnext, hmoves,
      (congrArg Prod.fst hc).symm⟩

theorem collectLoop_eq_none {env : KvEnv E} (fuel : ℕ) (out : List (String × V))
    (cursor : Option String) :
    collectLoop env limit (pureMethod next) fuel out cursor () = none ↔
      Iterate.after (pageStep next env.listPageSize limit) fuel (cursor, out.length) ≠ none := by
  induction fuel generalizing out cursor with
  | zero => exact iff_of_true rfl (Option.some_ne_none _)
  | succ fuel ih =>
    rw [Iterate.after]
    have hstops : ∀ {r : Outcome E (List (String × V)) × Unit},
        collectLoop env limit (pureMethod next) (fuel + 1) out cursor () = some r →
        (∀ q, pageStep next env.listPageSize limit (cursor, out.length) ≠ some q) →
        (collectLoop env limit (pureMethod next) (fuel + 1) out cursor () = none ↔
          (pageStep next env.listPageSize limit (cursor, out.length)).bind
            (Iterate.after (pageStep next env.listPageSize limit) fuel) ≠ none) := by
      intro r hr hnone
      rw [hr, Option.eq_none_iff_forall_ne_some.mpr hnone]
      exact iff_of_false (Option.some_ne_none r) (fun h => h rfl)
    rcases collectLoop_cases env limit (pureMethod next) out cursor () with
      hfull | ⟨hroom, answer, s', hpage, hpanicked | ⟨e, he⟩ | ⟨page, hok, hlast⟩ |
        ⟨page, c, hok, hnext, hmoves⟩⟩
    · refine hstops (collectLoop_full hfull fuel) fun q hq => ?_
      exact hfull (pageStep_eq_some.mp hq).1
    · subst hpanicked
      cases hpage
    · subst he
      refine hstops (collectLoop_error hroom hpage fuel) fun q hq => ?_
      obtain ⟨-, page, c, hok, -⟩ := pageStep_eq_some.mp hq
      have herror := congrArg Prod.fst hpage
      simp [pureMethod, hok] at herror
    · subst hok
      refine hstops (collectLoop_last hroom hpage hlast fuel) fun q hq => ?_
      obtain ⟨-, page', c, hok, hnext, hmoves, -⟩ := pageStep_eq_some.mp hq
      have hsame := congrArg Prod.fst hpage
      simp [pureMethod, hok] at hsame
      exact hmoves (hlast c (hsame ▸ hnext))
    · subst hok
      have hok : next cursor (min (limit - out.length) env.listPageSize) = .ok page := by
        have hreturned := congrArg Prod.fst hpage
        simpa [pureMethod] using hreturned
      have hstep : pageStep next env.listPageSize limit (cursor, out.length) = _ :=
        pageStep_eq_some.mpr ⟨hroom, page, c, hok, hnext, hmoves, rfl⟩
      rw [collectLoop_next hroom hpage hnext hmoves, hstep, Option.bind_some, ih, List.length_append,
        List.length_take]

/-- **When a listing by pages ends.** Of a pager that always returns a page or an error, whatever its
cursors are, `collect_pages` returns if and only if the pager nowhere starves it: it leads to no cursor
from which, with entries still missing, only empty pages follow forever. -/
theorem collectPages_ends_iff (env : KvEnv E) (limit : ℕ)
    (next : Option String → ℕ → Except E (KvPage V)) :
    (∃ fuel result, collectPages env fuel limit (pureMethod next) () = some (result, ())) ↔
      ∀ cursor held, Led next env.listPageSize limit cursor held →
        ¬ Starves next env.listPageSize limit cursor held := by
  have hstops := Iterate.stops_iff
    (fun (q q' : Option String × ℕ) (h : pageStep next env.listPageSize limit q = some q') =>
      held_pageStep h) (none, 0)
  have hends : (∃ fuel result, collectPages env fuel limit (pureMethod next) () = some (result, ())) ↔
      ∃ n, Iterate.after (pageStep next env.listPageSize limit) n (none, 0) = none := by
    refine exists_congr fun fuel => ?_
    have hnone : collectPages env fuel limit (pureMethod next) () = none ↔
        Iterate.after (pageStep next env.listPageSize limit) fuel (none, 0) ≠ none :=
      collectLoop_eq_none fuel [] none
    cases hresult : collectPages env fuel limit (pureMethod next) () with
    | none => exact iff_of_false (fun ⟨_, h⟩ => nomatch h) (hnone.mp hresult)
    | some r =>
      refine iff_of_true ⟨r.1, rfl⟩ ?_
      by_contra hsome
      rw [hnone.mpr hsome] at hresult
      cases hresult
  rw [hends, hstops]
  constructor
  · intro h cursor held hled hstarves
    obtain ⟨n, hn⟩ := led_iff.mp hled
    exact h n _ hn (starves_iff.mp hstarves)
  · rintro h n ⟨cursor, held⟩ hn hstutters
    exact h cursor held (led_iff.mpr ⟨n, hn⟩) (starves_iff.mpr hstutters)

end Ends

/-- Empty pages, with two cursors in turn. -/
def inTurn (cursor : Option String) (_want : ℕ) : Except StoreError (KvPage ℕ) :=
  .ok ⟨[], some (if cursor = some "a" then "b" else "a")⟩

theorem collectLoop_inTurn (fuel : ℕ) (cursor : Option String) :
    collectLoop plainKvEnv 1 (pureMethod inTurn) fuel [] cursor () = none := by
  induction fuel generalizing cursor with
  | zero => rfl
  | succ fuel ih =>
    have hmoves : cursor ≠ some (if cursor = some "a" then "b" else "a") := by
      by_cases h : cursor = some "a"
      · rw [if_pos h, h]
        decide
      · rw [if_neg h]
        exact h
    have hpage : pureMethod inTurn cursor
        (min (1 - ([] : List (String × ℕ)).length) plainKvEnv.listPageSize) () =
          (.returned (.ok ⟨[], some (if cursor = some "a" then "b" else "a")⟩), ()) := rfl
    rw [collectLoop_next Nat.zero_lt_one hpage rfl hmoves]
    exact ih _

/-- **Two cursors in turn are followed forever**: the guard only sees a cursor that is handed back at
once. -/
theorem cursors_in_turn :
    ¬ ∀ (E V : Type) (env : KvEnv E) (limit : ℕ) (next : Option String → ℕ → Except E (KvPage V)),
      ∃ fuel result, collectPages env fuel limit (pureMethod next) () = some (result, ()) := by
  intro h
  obtain ⟨fuel, result, hresult⟩ := h StoreError ℕ plainKvEnv 1 inTurn
  rw [collectPages, collectLoop_inTurn] at hresult
  cases hresult

end Cluster

end McpgSdk
