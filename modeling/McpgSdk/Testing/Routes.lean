import Mathlib.Data.List.DropRight
import Mathlib.Data.List.Basic

/-!
# Route matching in the mock gateway

The production dispatcher strips the mount prefix of a request before it matches the path. The mock
gateway does not know the prefix: it takes a route when the normalised path is the route's, or ends in
it.

* `normalise`, `specMatches`, `callHttpRoute`: matching and dispatch, with paths as lists of characters;
* `Mount`: a mount prefix, one or more segments each after its slash;
* `normalise_append`, `normalise_root`: the path under a prefix, and the root under it;
* **`specMatches_mounted_iff`**: a route that matches a path matches it under a prefix exactly when the
  path is not the root;
* `root_lost_under_mount`: the root route of a mounted plugin is not found.
-/

set_option autoImplicit false

namespace McpgSdk

namespace Testing

/-- A route a plugin serves: its method, `*` for any, and its path. -/
structure RouteSpec where
  method : String
  path : String
  deriving DecidableEq, Repr

/-- The character between two segments. -/
def isSlash (c : Char) : Bool := c == '/'

/-- A path without trailing slashes and with a leading one; the root is a single slash. -/
def normalise (p : List Char) : List Char :=
  let trimmed := p.rdropWhile isSlash
  if trimmed = [] then ['/']
  else if trimmed.head? = some '/' then trimmed
  else '/' :: trimmed

/-- Equality up to the case of ASCII letters. -/
def eqIgnoreAsciiCase (a b : String) : Bool := a.toList.map Char.toLower == b.toList.map Char.toLower

/-- Whether a route takes a request: its method, and its path or an end of it. -/
def specMatches (spec : RouteSpec) (incomingMethod incomingPath : String) : Bool :=
  let methodOk := spec.method == "*" || eqIgnoreAsciiCase spec.method incomingMethod
  if !methodOk then false
  else
    let suffix := normalise spec.path.toList
    let incoming := normalise incomingPath.toList
    incoming == suffix || ('/' :: suffix.dropWhile isSlash).isSuffixOf incoming

/-- A request as far as the dispatch reads it, with everything else it carries. -/
structure HttpRouteRequest (β : Type) where
  method : String
  fullPath : String
  other : β

/-- A plugin's routes and what answers them. -/
structure HttpRoute (β ρ : Type) where
  routes : List RouteSpec
  handle : HttpRouteRequest β → ρ

/-- Hand a request to the entity of that name: not found without such an entity, or when none of its
routes takes the request. -/
def callHttpRoute {β ρ : Type} (status : ℕ → ρ) (httpRoutes : List (String × HttpRoute β ρ))
    (entityName : String) (req : HttpRouteRequest β) : ρ :=
  match httpRoutes.find? fun entity => entity.1 == entityName with
  | none => status 404
  | some (_, plugin) =>
    if plugin.routes.any fun spec => specMatches spec req.method req.fullPath then plugin.handle req
    else status 404

/-- A mount prefix: one or more segments, not empty and without a slash, each after its slash. -/
def Mount (m : String) : Prop :=
  ∃ segments : List (List Char), segments ≠ [] ∧ (∀ s ∈ segments, s ≠ [] ∧ '/' ∉ s) ∧
    m.toList = segments.flatMap fun s => '/' :: s

/-! ## Normal paths -/

theorem head_normalise (p : List Char) : (normalise p).head? = some '/' := by
  unfold normalise
  dsimp only
  split_ifs with _ h
  · rfl
  · exact h
  · rfl

theorem normalise_root {p : List Char} (h : ∀ c ∈ p, c = '/') : normalise p = ['/'] := by
  have htrim : p.rdropWhile isSlash = [] := by
    rw [List.rdropWhile_eq_nil_iff]
    exact fun c hc => beq_iff_eq.mpr (h c hc)
  rw [normalise, htrim]
  rfl

theorem rdropWhile_append (m : List Char) {p : List Char} (h : p.rdropWhile isSlash ≠ []) :
    (m ++ p).rdropWhile isSlash = m ++ p.rdropWhile isSlash := by
  have hne : ¬ (p.reverse.dropWhile isSlash).isEmpty = true := by
    intro hempty
    exact h (congrArg List.reverse (List.isEmpty_iff.mp hempty))
  rw [List.rdropWhile, List.rdropWhile, List.reverse_append, List.dropWhile_append, if_neg hne,
    List.reverse_append, List.reverse_reverse]

theorem normalise_append {m p : List Char} (hm : m.head? = some '/') (hp : p.head? = some '/')
    (h : ∃ c ∈ p, c ≠ '/') : normalise (m ++ p) = m ++ normalise p := by
  have htrim : p.rdropWhile isSlash ≠ [] := by
    obtain ⟨c, hc, hne⟩ := h
    intro hnil
    exact hne (beq_iff_eq.mp (List.rdropWhile_eq_nil_iff.mp hnil c hc))
  have hhead : (p.rdropWhile isSlash).head? = some '/' := by
    obtain ⟨rest, hrest⟩ := List.rdropWhile_prefix (p := isSlash) (l := p)
    rwa [← hrest, List.head?_append_of_ne_nil _ htrim] at hp
  have hmhead : (m ++ p.rdropWhile isSlash).head? = some '/' := by
    rw [List.head?_append, hm]
    rfl
  rw [normalise, normalise, rdropWhile_append m htrim,
    if_neg (List.append_ne_nil_of_right_ne_nil m htrim), if_pos hmhead, if_neg htrim, if_pos hhead]

/-! ## Under a mount prefix -/

section Mounted

variable {m : String}

theorem Mount.head (hm : Mount m) : m.toList.head? = some '/' := by
  obtain ⟨segments, hne, -, heq⟩ := hm
  cases segments with
  | nil => exact absurd rfl hne
  | cons s rest =>
    rw [heq]
    rfl

/-- A mount prefix ends in a segment. -/
theorem Mount.last (hm : Mount m) : ∃ c, m.toList.getLast? = some c ∧ c ≠ '/' := by
  obtain ⟨segments, hne, hseg, heq⟩ := hm
  obtain ⟨front, s, rfl⟩ := (List.eq_nil_or_concat segments).resolve_left hne
  obtain ⟨hs, hslash⟩ := hseg s (by simp)
  refine ⟨s.getLast hs, ?_, fun h => hslash (h ▸ List.getLast_mem hs)⟩
  rw [heq, List.concat_eq_append, List.flatMap_append, List.flatMap_singleton,
    List.getLast?_append, List.getLast?_cons, List.getLast?_eq_some_getLast hs]
  rfl

theorem normalise_mounted_root (hm : Mount m) {p : List Char} (h : ∀ c ∈ p, c = '/') :
    normalise (m.toList ++ p) = m.toList := by
  obtain ⟨c, hlast, hc⟩ := hm.last
  have hslashes : ∀ a ∈ p.reverse, isSlash a = true :=
    fun a ha => beq_iff_eq.mpr (h a (List.mem_reverse.mp ha))
  have htrim : (m.toList ++ p).rdropWhile isSlash = m.toList.rdropWhile isSlash := by
    rw [List.rdropWhile, List.reverse_append, List.dropWhile_append_of_pos hslashes, List.rdropWhile]
  have hself : m.toList.rdropWhile isSlash = m.toList := by
    rw [List.rdropWhile_eq_self_iff]
    intro hne hslash
    rw [List.getLast?_eq_some_getLast hne] at hlast
    rw [Option.some.inj hlast] at hslash
    exact hc (beq_iff_eq.mp hslash)
  have hne : m.toList ≠ [] := by
    intro hnil
    rw [hnil] at hlast
    cases hlast
  rw [normalise, htrim, hself, if_neg hne, if_pos hm.head]

end Mounted

/-! ## Routes -/

/-- What the suffix test looks for: a slash and the path without its leading ones. -/
def tailOf (path : List Char) : List Char := '/' :: path.dropWhile isSlash

theorem tailOf_suffix {path : List Char} (h : path.head? = some '/') : tailOf path <:+ path := by
  obtain ⟨rest, rfl⟩ := List.head?_eq_some_iff.mp h
  change '/' :: ('/' :: rest).dropWhile isSlash <:+ '/' :: rest
  rw [List.dropWhile_cons_of_pos (by decide)]
  induction rest with
  | nil => exact List.suffix_rfl
  | cons c rest ih =>
    by_cases hc : isSlash c = true
    · -- one slash of several goes
      obtain rfl : c = '/' := beq_iff_eq.mp hc
      rw [List.dropWhile_cons_of_pos hc]
      exact (ih rfl).trans (List.suffix_cons _ _)
    · have hkept : (c :: rest).dropWhile isSlash = c :: rest := List.dropWhile_cons_of_neg hc
      exact hkept.symm ▸ List.suffix_rfl

theorem specMatches_iff {spec : RouteSpec} {method path : String} :
    specMatches spec method path = true ↔
      (spec.method = "*" ∨ eqIgnoreAsciiCase spec.method method = true) ∧
        (normalise path.toList = normalise spec.path.toList ∨
          tailOf (normalise spec.path.toList) <:+ normalise path.toList) := by
  unfold specMatches tailOf
  dsimp only
  by_cases hmethod : (spec.method == "*" || eqIgnoreAsciiCase spec.method method) = true
  · rw [hmethod]
    simp only [Bool.or_eq_true, beq_iff_eq] at hmethod
    simp [hmethod]
  · rw [Bool.not_eq_true] at hmethod
    rw [hmethod]
    simp only [Bool.or_eq_false_iff, beq_eq_false_iff_ne] at hmethod
    simp [hmethod]

theorem tailOf_of_root {spec : RouteSpec} {p : List Char} (hroot : ∀ c ∈ p, c = '/')
    (h : normalise p = normalise spec.path.toList ∨
      tailOf (normalise spec.path.toList) <:+ normalise p) :
    (normalise spec.path.toList).dropWhile isSlash = [] := by
  rw [normalise_root hroot] at h
  rcases h with h | h
  · rw [← h]
    rfl
  · have hlen := h.length_le
    rw [tailOf, List.length_cons, List.length_singleton] at hlen
    exact List.eq_nil_of_length_eq_zero (by omega)

section Match

variable {spec : RouteSpec} {method p m : String}

theorem specMatches_mounted (hm : Mount m) (hp : p.toList.head? = some '/')
    (h : specMatches spec method p = true) (hroot : ∃ c ∈ p.toList, c ≠ '/') :
    specMatches spec method (m ++ p) = true := by
  obtain ⟨hmethod, hpath⟩ := specMatches_iff.mp h
  rw [specMatches_iff, String.toList_append, normalise_append hm.head hp hroot]
  have hsuffix : tailOf (normalise spec.path.toList) <:+ normalise p.toList := by
    rcases hpath with heq | hsuffix
    · rw [heq]
      exact tailOf_suffix (head_normalise _)
    · exact hsuffix
  exact ⟨hmethod, .inr (hsuffix.trans (List.suffix_append _ _))⟩

theorem not_specMatches_mounted_root (hm : Mount m) (h : specMatches spec method p = true)
    (hroot : ∀ c ∈ p.toList, c = '/') : ¬ specMatches spec method (m ++ p) = true := by
  have htail := tailOf_of_root hroot (specMatches_iff.mp h).2
  obtain ⟨c, hlast, hc⟩ := hm.last
  rw [specMatches_iff, String.toList_append, normalise_mounted_root hm hroot, tailOf, htail]
  rintro ⟨-, hmounted | ⟨front, hfront⟩⟩
  · -- the prefix would be slashes alone
    rw [← hmounted, List.dropWhile_eq_nil_iff] at htail
    exact hc (beq_iff_eq.mp (htail c (List.mem_of_getLast? hlast)))
  · -- the prefix would end in a slash
    rw [← hfront, List.getLast?_concat] at hlast
    exact hc (Option.some.inj hlast).symm

/-- **A route under a mount prefix.** A route that matches a path matches it under any mount prefix if
and only if the path is not the root. -/
theorem specMatches_mounted_iff (hm : Mount m) (hp : p.toList.head? = some '/')
    (h : specMatches spec method p = true) :
    specMatches spec method (m ++ p) = true ↔ ∃ c ∈ p.toList, c ≠ '/' := by
  constructor
  · intro hmounted
    by_contra hroot
    push Not at hroot
    exact not_specMatches_mounted_root hm h hroot hmounted
  · exact specMatches_mounted hm hp h

end Match

theorem specMatches_mounted_iff_ping :
    specMatches ⟨"GET", "/ping"⟩ "get" ("/plugins/echo" ++ "/ping") = true := by
  have hm : Mount "/plugins/echo" :=
    ⟨["plugins".toList, "echo".toList], by decide, by decide, by decide⟩
  have hmatch : specMatches ⟨"GET", "/ping"⟩ "get" "/ping" = true := by decide
  exact (specMatches_mounted_iff hm (by decide) hmatch).mpr ⟨'p', by decide, by decide⟩

/-- **The root route is lost under a mount prefix.** -/
theorem root_lost_under_mount :
    ¬ ∀ (spec : RouteSpec) (method p m : String), Mount m → p.toList.head? = some '/' →
      specMatches spec method p = true → specMatches spec method (m ++ p) = true := by
  intro hclaim
  have hm : Mount "/plugins" := ⟨["plugins".toList], by decide, by decide, by decide⟩
  have hmounted := hclaim ⟨"GET", "/"⟩ "GET" "/" "/plugins" hm (by decide) (by decide)
  exact absurd hmounted (by decide)

/-- **A mounted plugin answers** a request it answers at its own path, the root apart. -/
theorem callHttpRoute_mounted {β ρ : Type} (status : ℕ → ρ)
    {httpRoutes : List (String × HttpRoute β ρ)} {entityName : String} {plugin : HttpRoute β ρ}
    (hfound : (httpRoutes.find? fun entity => entity.1 == entityName) = some (entityName, plugin))
    {m : String} (hm : Mount m) {req : HttpRouteRequest β}
    (hpath : req.fullPath.toList.head? = some '/') (hroot : ∃ c ∈ req.fullPath.toList, c ≠ '/')
    (hmatch : (plugin.routes.any fun spec => specMatches spec req.method req.fullPath) = true) :
    callHttpRoute status httpRoutes entityName { req with fullPath := m ++ req.fullPath } =
      plugin.handle { req with fullPath := m ++ req.fullPath } := by
  obtain ⟨spec, hspec, h⟩ := List.any_eq_true.mp hmatch
  have hany : (plugin.routes.any fun spec => specMatches spec req.method (m ++ req.fullPath)) = true :=
    List.any_eq_true.mpr ⟨spec, hspec, specMatches_mounted hm hpath h hroot⟩
  simp only [callHttpRoute, hfound, hany, if_true]

end Testing

end McpgSdk
