import McpgSdk.Lib.Words
import McpgSdk.SqlGuard.Model

/-!
# What the guard documents

The statements the guard is meant to accept, in terms of characters and without a scanner. A
statement is split into regions: code, comments and quoted text. The code that is left decides.

* `Region`, `Region.Fits`, `Lexes`: the regions, where each may stand, and a splitting;
* **`existsUnique_lexes`**: every text splits in exactly one way;
* `ReadOnly`: the three conditions on the code.
-/

set_option autoImplicit false

namespace McpgSdk

namespace SqlGuard

open Words

/-- A region of a statement. The last ones may run to the end of the text without being closed. -/
inductive Region
  | code (c : Char)
  | lineComment (body : List Char)
  | blockComment (body : List Char) (closed : Bool)
  | quoted (quote : Char) (inner : List Char) (closed : Bool)

/-- A text between quotes: the quote itself is doubled. -/
def escape (quote : Char) (inner : List Char) : List Char :=
  inner.flatMap fun c => if c = quote then [quote, quote] else [c]

/-- The characters of a region. -/
def Region.text : Region → List Char
  | code c => [c]
  | lineComment body => '-' :: '-' :: body
  | blockComment body closed => '/' :: '*' :: (body ++ if closed then ['*', '/'] else [])
  | quoted quote inner closed => quote :: (escape quote inner ++ if closed then [quote] else [])

/-- A region may stand before `rest`: code opens no other region there, a line comment ends at the
first newline, a block comment at its first end, a quoted region at the first quote that is not
doubled, and a region that is not closed at the end of the text. -/
def Region.Fits (rest : List Char) : Region → Prop
  | code c => c ∉ quotes ∧ ¬ (c = '-' ∧ rest.head? = some '-') ∧
      ¬ (c = '/' ∧ rest.head? = some '*')
  | lineComment body => '\n' ∉ body ∧ ∀ c ∈ rest.head?, c = '\n'
  | blockComment body closed => ¬ ['*', '/'] <:+: body ∧ (closed = false → rest = [])
  | quoted quote _ closed => quote ∈ quotes ∧
      if closed then rest.head? ≠ some quote else rest = []

/-- The regions make up the text. -/
def Lexes : List Char → List Region → Prop
  | cs, [] => cs = []
  | cs, r :: rs => ∃ rest, cs = r.text ++ rest ∧ r.Fits rest ∧ Lexes rest rs

/-- What is left of a region: code is kept, a line comment leaves nothing, and a block comment or
quoted region stands for a blank. -/
def Region.kept : Region → List Char
  | code c => [c]
  | lineComment _ => []
  | blockComment _ _ => [' ']
  | quoted _ _ _ => [' ']

/-- The code of some regions. -/
def codeOf (rs : List Region) : List Char := rs.flatMap Region.kept

/-- A blank: an ASCII character that is white space. -/
def isBlank (c : Char) : Bool := (9 ≤ c.toNat && c.toNat ≤ 13) || c.toNat == 0x20

/-- The code of a read-only statement. -/
structure ReadOnly (code : List Char) : Prop where
  /-- Nothing but blanks comes after a `;`. -/
  single : ∀ pre post, code = pre ++ ';' :: post → ∀ c ∈ post, isBlank c
  /-- The first word is a read-only leader. -/
  leader : ∃ w, IsFirstWord isIdentChar w code ∧ toAsciiUppercase w ∈ readOnlyLeaders
  /-- No word is a write keyword. -/
  noWrite : ∀ w, IsWord isIdentChar w code → toAsciiUppercase w ∉ writeKeywords

/-! ## Every text splits -/

theorem close_prefix_iff (c : Char) (cs : List Char) :
    ['*', '/'] <+: c :: cs ↔ c = '*' ∧ cs.head? = some '/' := by
  rw [List.cons_prefix_cons]
  cases cs <;> simp [eq_comm]

/-- A text has an end of a block comment, or a first one. -/
theorem close_cases (cs : List Char) :
    ¬ ['*', '/'] <:+: cs ∨
      ∃ body rest, cs = body ++ '*' :: '/' :: rest ∧ ¬ ['*', '/'] <:+: body := by
  induction cs with
  | nil => exact .inl (by simp)
  | cons c cs ih =>
    by_cases hopen : c = '*' ∧ cs.head? = some '/'
    · obtain ⟨rest, rfl⟩ := List.head?_eq_some_iff.mp hopen.2
      exact .inr ⟨[], rest, by rw [hopen.1]; rfl, by simp⟩
    · rcases ih with hno | ⟨body, rest, rfl, hbody⟩
      · left
        rw [List.infix_cons_iff, close_prefix_iff]
        exact not_or.mpr ⟨hopen, hno⟩
      · refine .inr ⟨c :: body, rest, rfl, ?_⟩
        rw [List.infix_cons_iff, close_prefix_iff]
        refine not_or.mpr ⟨fun h => hopen ⟨h.1, ?_⟩, hbody⟩
        rw [List.head?_append, h.2]
        rfl

/-- What may follow the text between quotes: nothing, or a quote that is not doubled. -/
def EndsQuoted (quote : Char) (cs : List Char) : Prop :=
  cs = [] ∨ ∃ rest, cs = quote :: rest ∧ rest.head? ≠ some quote

theorem escape_cons_self (quote : Char) (inner : List Char) :
    escape quote (quote :: inner) = quote :: quote :: escape quote inner := by
  simp [escape]

theorem escape_cons_of_ne {quote c : Char} (h : c ≠ quote) (inner : List Char) :
    escape quote (c :: inner) = c :: escape quote inner := by
  simp [escape, h]

theorem exists_endsQuoted (quote : Char) :
    ∀ cs : List Char, ∃ inner rest, cs = escape quote inner ++ rest ∧ EndsQuoted quote rest
  | [] => ⟨[], [], rfl, .inl rfl⟩
  | [c] => by
    by_cases hc : c = quote
    · exact ⟨[], [c], rfl, .inr ⟨[], by rw [hc], nofun⟩⟩
    · exact ⟨[c], [], by rw [escape_cons_of_ne hc]; rfl, .inl rfl⟩
  | c :: d :: cs => by
    by_cases hc : c = quote
    · by_cases hd : d = quote
      · obtain ⟨inner, rest, he, hrest⟩ := exists_endsQuoted quote cs
        refine ⟨quote :: inner, rest, ?_, hrest⟩
        rw [escape_cons_self, hc, hd, he]
        rfl
      · refine ⟨[], c :: d :: cs, rfl, .inr ⟨d :: cs, by rw [hc], ?_⟩⟩
        simpa using hd
    · obtain ⟨inner, rest, he, hrest⟩ := exists_endsQuoted quote (d :: cs)
      refine ⟨c :: inner, rest, ?_, hrest⟩
      rw [escape_cons_of_ne hc, he]
      rfl

theorem exists_quoted {quote : Char} (hq : quote ∈ quotes) (cs : List Char) :
    ∃ r rest, quote :: cs = Region.text r ++ rest ∧ r.Fits rest := by
  obtain ⟨inner, rest, rfl, rfl | ⟨after, rfl, hafter⟩⟩ := exists_endsQuoted quote cs
  · exact ⟨.quoted quote inner false, [], by simp [Region.text], hq, rfl⟩
  · exact ⟨.quoted quote inner true, after, by simp [Region.text], hq, hafter⟩

theorem exists_blockComment (cs : List Char) :
    ∃ r rest, '/' :: '*' :: cs = Region.text r ++ rest ∧ r.Fits rest := by
  rcases close_cases cs with hno | ⟨body, rest, rfl, hbody⟩
  · exact ⟨.blockComment cs false, [], by simp [Region.text], hno, fun _ => rfl⟩
  · exact ⟨.blockComment body true, rest, by simp [Region.text], hbody, nofun⟩

theorem exists_lineComment (cs : List Char) :
    ∃ r rest, '-' :: '-' :: cs = Region.text r ++ rest ∧ r.Fits rest := by
  refine ⟨.lineComment (cs.takeWhile fun c => c != '\n'), cs.dropWhile fun c => c != '\n', ?_, ?_, ?_⟩
  · rw [Region.text, List.cons_append, List.cons_append, List.takeWhile_append_dropWhile]
  · intro h
    have hn := List.mem_takeWhile_imp h
    simp at hn
  · intro c hc
    have hn := head?_dropWhile cs c hc
    simpa using hn

theorem exists_region (c : Char) (cs : List Char) :
    ∃ r rest, c :: cs = Region.text r ++ rest ∧ r.Fits rest := by
  by_cases hq : c ∈ quotes
  · exact exists_quoted hq cs
  · by_cases hline : c = '-' ∧ cs.head? = some '-'
    · obtain ⟨rest, rfl⟩ := List.head?_eq_some_iff.mp hline.2
      rw [hline.1]
      exact exists_lineComment rest
    · by_cases hblock : c = '/' ∧ cs.head? = some '*'
      · obtain ⟨rest, rfl⟩ := List.head?_eq_some_iff.mp hblock.2
        rw [hblock.1]
        exact exists_blockComment rest
      · exact ⟨.code c, cs, rfl, hq, hline, hblock⟩

theorem text_ne_nil (r : Region) : r.text ≠ [] := by
  cases r <;> exact List.cons_ne_nil _ _

theorem exists_lexes (cs : List Char) : ∃ rs, Lexes cs rs := by
  induction hn : cs.length using Nat.strong_induction_on generalizing cs with
  | _ n ih =>
    cases cs with
    | nil => exact ⟨[], rfl⟩
    | cons c cs =>
      obtain ⟨r, rest, he, hr⟩ := exists_region c cs
      have hlt : rest.length < n := by
        have hpos := List.length_pos_iff.mpr (text_ne_nil r)
        rw [← hn, he, List.length_append]
        omega
      obtain ⟨rs, hrs⟩ := ih rest.length hlt rest rfl
      exact ⟨r :: rs, rest, he, hr, hrs⟩

/-! ## ... in one way -/

/-- What the first characters of a text open. -/
inductive Opening
  | code
  | line
  | block
  | quote
  deriving DecidableEq

/-- The region a text opens. -/
def opening (c : Char) (cs : List Char) : Opening :=
  if c ∈ quotes then .quote
  else if c = '-' ∧ cs.head? = some '-' then .line
  else if c = '/' ∧ cs.head? = some '*' then .block
  else .code

/-- The opening of a region. -/
def Region.opening : Region → Opening
  | code _ => .code
  | lineComment _ => .line
  | blockComment _ _ => .block
  | quoted _ _ _ => .quote

theorem opening_eq {r : Region} {c : Char} {cs rest : List Char} (h : c :: cs = r.text ++ rest)
    (hr : r.Fits rest) : opening c cs = r.opening := by
  cases r with
  | code d =>
    obtain ⟨rfl, rfl⟩ := List.cons.inj h
    obtain ⟨hq, hline, hblock⟩ := hr
    rw [opening, if_neg hq, if_neg hline, if_neg hblock]
    rfl
  | lineComment body =>
    obtain ⟨rfl, rfl⟩ := List.cons.inj h
    rfl
  | blockComment body closed =>
    obtain ⟨rfl, rfl⟩ := List.cons.inj h
    rfl
  | quoted quote inner closed =>
    obtain ⟨rfl, rfl⟩ := List.cons.inj h
    rw [opening, if_pos hr.1]
    rfl

theorem not_infix_tail {c : Char} {cs : List Char} (h : ¬ ['*', '/'] <:+: c :: cs) :
    ¬ ['*', '/'] <:+: cs := fun hcs => h (hcs.trans (List.suffix_cons c cs).isInfix)

theorem close_nil_cons {c : Char} {body rest rest' : List Char}
    (h : ¬ ['*', '/'] <:+: c :: body) :
    '*' :: '/' :: rest ≠ c :: (body ++ '*' :: '/' :: rest') := by
  intro he
  obtain ⟨rfl, htail⟩ := List.cons.inj he
  cases body with
  | nil => cases htail
  | cons d body =>
    obtain ⟨rfl, -⟩ := List.cons.inj htail
    exact h (List.prefix_append ['*', '/'] body).isInfix

theorem close_unique {body body' rest rest' : List Char} (h : ¬ ['*', '/'] <:+: body)
    (h' : ¬ ['*', '/'] <:+: body')
    (he : body ++ '*' :: '/' :: rest = body' ++ '*' :: '/' :: rest') :
    body = body' ∧ rest = rest' := by
  induction body generalizing body' with
  | nil =>
    cases body' with
    | nil => exact ⟨rfl, (List.cons.inj (List.cons.inj he).2).2⟩
    | cons c body' => exact absurd he (close_nil_cons h')
  | cons c body ih =>
    cases body' with
    | nil => exact absurd he.symm (close_nil_cons h)
    | cons d body' =>
      obtain ⟨rfl, htail⟩ := List.cons.inj he
      obtain ⟨rfl, hrest⟩ := ih (not_infix_tail h) (not_infix_tail h') htail
      exact ⟨rfl, hrest⟩

theorem endsQuoted_ne_escape {quote c : Char} {inner cs cs' : List Char} (h : EndsQuoted quote cs) :
    cs ≠ escape quote (c :: inner) ++ cs' := by
  intro he
  by_cases hc : c = quote
  · subst hc
    rw [escape_cons_self] at he
    rcases h with rfl | ⟨rest, rfl, hrest⟩
    · cases he
    · rw [(List.cons.inj he).2] at hrest
      exact hrest rfl
  · rw [escape_cons_of_ne hc] at he
    rcases h with rfl | ⟨rest, rfl, -⟩
    · cases he
    · exact hc (List.cons.inj he).1.symm

theorem escape_unique {quote : Char} {inner inner' cs cs' : List Char} (h : EndsQuoted quote cs)
    (h' : EndsQuoted quote cs') (he : escape quote inner ++ cs = escape quote inner' ++ cs') :
    inner = inner' ∧ cs = cs' := by
  induction inner generalizing inner' with
  | nil =>
    cases inner' with
    | nil => exact ⟨rfl, he⟩
    | cons c inner' => exact absurd he (endsQuoted_ne_escape h)
  | cons c inner ih =>
    cases inner' with
    | nil => exact absurd he.symm (endsQuoted_ne_escape h')
    | cons d inner' =>
      have hcd : c = d ∧ escape quote inner ++ cs = escape quote inner' ++ cs' := by
        by_cases hc : c = quote
        · by_cases hd : d = quote
          · rw [hc, hd, escape_cons_self, escape_cons_self] at he
            exact ⟨hc.trans hd.symm, (List.cons.inj (List.cons.inj he).2).2⟩
          · rw [hc, escape_cons_self, escape_cons_of_ne hd] at he
            exact absurd (List.cons.inj he).1.symm hd
        · by_cases hd : d = quote
          · rw [hd, escape_cons_self, escape_cons_of_ne hc] at he
            exact absurd (List.cons.inj he).1 hc
          · rw [escape_cons_of_ne hc, escape_cons_of_ne hd] at he
            exact List.cons.inj he
      obtain ⟨rfl, hrest⟩ := ih hcd.2
      exact ⟨by rw [hcd.1], hrest⟩

theorem lineComment_unique {body body' rest rest' : List Char}
    (h : (Region.lineComment body).Fits rest) (h' : (Region.lineComment body').Fits rest')
    (he : body ++ rest = body' ++ rest') : body = body' ∧ rest = rest' := by
  have hbody : ∀ {b r : List Char}, (Region.lineComment b).Fits r →
      (b ++ r).takeWhile (fun c => c != '\n') = b := by
    intro b r hfit
    refine takeWhile_append_of_head (fun c hc => ?_) fun c hc => ?_
    · have hne : c ≠ '\n' := fun heq => hfit.1 (heq ▸ hc)
      simpa using hne
    · simpa using hfit.2 c hc
  have heq : body = body' := by rw [← hbody h, he, hbody h']
  subst heq
  exact ⟨rfl, List.append_cancel_left he⟩

theorem blockComment_unique {body body' rest rest' : List Char} {closed closed' : Bool}
    (h : (Region.blockComment body closed).Fits rest)
    (h' : (Region.blockComment body' closed').Fits rest')
    (he : (Region.blockComment body closed).text ++ rest =
      (Region.blockComment body' closed').text ++ rest') :
    Region.blockComment body closed = .blockComment body' closed' ∧ rest = rest' := by
  -- a closed comment and one that is not would put an end inside the body of the latter
  have hclosed : ∀ {b b' r : List Char}, ¬ ['*', '/'] <:+: b' → b ++ '*' :: '/' :: r ≠ b' := by
    rintro b b' r hb' rfl
    exact hb' ⟨b, r, by simp⟩
  obtain ⟨hbody, hrest⟩ := h
  obtain ⟨hbody', hrest'⟩ := h'
  cases closed with
  | true =>
    cases closed' with
    | true =>
      have htail : body ++ '*' :: '/' :: rest = body' ++ '*' :: '/' :: rest' := by
        simpa [Region.text] using he
      obtain ⟨rfl, rfl⟩ := close_unique hbody hbody' htail
      exact ⟨rfl, rfl⟩
    | false =>
      obtain rfl := hrest' rfl
      exact absurd (by simpa [Region.text] using he) (hclosed (b := body) (r := rest) hbody')
  | false =>
    obtain rfl := hrest rfl
    cases closed' with
    | true =>
      exact absurd (by simpa [Region.text] using he.symm) (hclosed (b := body') (r := rest') hbody)
    | false =>
      obtain rfl := hrest' rfl
      have hsame : body = body' := by simpa [Region.text] using he
      exact ⟨by rw [hsame], rfl⟩

theorem endsQuoted_of_fits {quote : Char} {inner rest : List Char} {closed : Bool}
    (h : (Region.quoted quote inner closed).Fits rest) :
    EndsQuoted quote ((if closed then [quote] else []) ++ rest) := by
  cases closed with
  | true => exact .inr ⟨rest, rfl, h.2⟩
  | false => exact .inl h.2

theorem quoted_unique {quote quote' : Char} {inner inner' rest rest' : List Char}
    {closed closed' : Bool} (h : (Region.quoted quote inner closed).Fits rest)
    (h' : (Region.quoted quote' inner' closed').Fits rest')
    (he : (Region.quoted quote inner closed).text ++ rest =
      (Region.quoted quote' inner' closed').text ++ rest') :
    Region.quoted quote inner closed = .quoted quote' inner' closed' ∧ rest = rest' := by
  simp only [Region.text, List.cons_append, List.append_assoc] at he
  obtain ⟨rfl, htail⟩ := List.cons.inj he
  obtain ⟨rfl, hend⟩ := escape_unique (endsQuoted_of_fits h) (endsQuoted_of_fits h') htail
  cases closed with
  | true =>
    cases closed' with
    | true => exact ⟨rfl, (List.cons.inj hend).2⟩
    | false =>
      rw [show rest' = [] from h'.2] at hend
      cases hend
  | false =>
    rw [show rest = [] from h.2] at hend
    cases closed' with
    | true => cases hend
    | false => exact ⟨rfl, (show rest = [] from h.2).trans hend⟩

theorem region_unique {r r' : Region} {rest rest' : List Char} (h : r.Fits rest)
    (h' : r'.Fits rest') (he : r.text ++ rest = r'.text ++ rest') : r = r' ∧ rest = rest' := by
  have hopen : r.opening = r'.opening := by
    cases hcs : r.text ++ rest with
    | nil => exact absurd (List.append_eq_nil_iff.mp hcs).1 (text_ne_nil r)
    | cons c cs => rw [← opening_eq hcs.symm h, opening_eq (hcs.symm.trans he) h']
  cases r with
  | code c =>
    cases r' with
    | code d =>
      obtain ⟨rfl, rfl⟩ := List.cons.inj he
      exact ⟨rfl, rfl⟩
    | _ => cases hopen
  | lineComment body =>
    cases r' with
    | lineComment body' =>
      have htail := (List.cons.inj (List.cons.inj he).2).2
      obtain ⟨rfl, rfl⟩ := lineComment_unique h h' htail
      exact ⟨rfl, rfl⟩
    | _ => cases hopen
  | blockComment body closed =>
    cases r' with
    | blockComment body' closed' => exact blockComment_unique h h' he
    | _ => cases hopen
  | quoted quote inner closed =>
    cases r' with
    | quoted quote' inner' closed' => exact quoted_unique h h' he
    | _ => cases hopen

theorem lexes_unique {cs : List Char} {rs rs' : List Region} (h : Lexes cs rs)
    (h' : Lexes cs rs') : rs = rs' := by
  induction rs generalizing cs rs' with
  | nil =>
    cases rs' with
    | nil => rfl
    | cons r' rs' =>
      obtain ⟨rest, he, -⟩ := h'
      rw [show cs = [] from h] at he
      exact absurd (List.append_eq_nil_iff.mp he.symm).1 (text_ne_nil r')
  | cons r rs ih =>
    obtain ⟨rest, rfl, hr, hrs⟩ := h
    cases rs' with
    | nil => exact absurd (List.append_eq_nil_iff.mp h').1 (text_ne_nil r)
    | cons r' rs' =>
      obtain ⟨rest', he, hr', hrs'⟩ := h'
      obtain ⟨rfl, rfl⟩ := region_unique hr hr' he
      rw [ih hrs hrs']

/-- **Every text splits in exactly one way.** -/
theorem existsUnique_lexes (cs : List Char) : ∃! rs, Lexes cs rs := by
  obtain ⟨rs, hrs⟩ := exists_lexes cs
  exact ⟨rs, hrs, fun rs' hrs' => lexes_unique hrs' hrs⟩

end SqlGuard

end McpgSdk
