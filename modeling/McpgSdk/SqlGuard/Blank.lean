import McpgSdk.SqlGuard.Accept

/-!
# Hidden text does not matter

A quoted region or a comment in the middle of a statement may as well be a blank: the guard answers the
same, with the same message. Two things are asked of the text around it. The text before has to be at
an end of code, and where texts meet no comment may open and no quote be doubled.

* `EndsInCode`, `Seam`: the text before, and where two texts meet;
* **`lexes_append`**: over such a seam the splittings of two texts are put together;
* `Hidden`: the regions that are closed, each with its blank;
* **`enforceReadOnly_hidden`**: a hidden text or its blank, and any two hidden texts.
-/

set_option autoImplicit false

namespace McpgSdk

namespace SqlGuard

open Utf8

/-- The region is over: what comes next is code. -/
def Region.Closed : Region → Prop
  | code _ => True
  | lineComment _ => False
  | blockComment _ closed => closed = true
  | quoted _ _ closed => closed = true

/-- The scan of a text ends in code: it is not inside a comment or a quoted region. -/
def EndsInCode (cs : List Char) : Prop := ∃ rs, Lexes cs rs ∧ ∀ r ∈ rs.getLast?, r.Closed

/-- Where two texts meet no comment opens and no quote is doubled. -/
def Seam (cs cs' : List Char) : Prop :=
  ∀ c ∈ cs.getLast?, ∀ d ∈ cs'.head?,
    ¬ (c = '-' ∧ d = '-') ∧ ¬ (c = '/' ∧ d = '*') ∧ ¬ (c ∈ quotes ∧ c = d)

/-- A text the guard does not see, before `post`, and the blank that may stand for it. -/
inductive Hidden (post : List Char) : List Char → Char → Prop
  | quoted {quote : Char} (inner : List Char) (hquote : quote ∈ quotes)
      (hpost : post.head? ≠ some quote) : Hidden post (quote :: (escape quote inner ++ [quote])) ' '
  | block {body : List Char} (hbody : ¬ ['*', '/'] <:+: body) :
      Hidden post ('/' :: '*' :: (body ++ ['*', '/'])) ' '
  | line {body : List Char} (hbody : '\n' ∉ body) : Hidden post ('-' :: '-' :: (body ++ ['\n'])) '\n'

/-! ## Putting splittings together -/

/-- A region before some text does not see what comes after that text. -/
theorem fits_append {r : Region} {rest : List Char} (h : r.Fits rest) (hrest : rest ≠ [])
    (more : List Char) : r.Fits (rest ++ more) := by
  have hhead : (rest ++ more).head? = rest.head? := List.head?_append_of_ne_nil _ hrest
  cases r with
  | code c =>
    unfold Region.Fits
    rw [hhead]
    exact h
  | lineComment body =>
    unfold Region.Fits
    rw [hhead]
    exact h
  | blockComment body closed => exact ⟨h.1, fun hclosed => absurd (h.2 hclosed) hrest⟩
  | quoted quote inner closed =>
    cases closed with
    | true => exact ⟨h.1, fun hquote => h.2 (hhead.symm.trans hquote)⟩
    | false => exact absurd h.2 hrest

/-- A region that is over at the end of a text is so before any text, over a seam. -/
theorem fits_seam {r : Region} (h : r.Fits []) (hclosed : r.Closed) {more : List Char}
    (hseam : Seam r.text more) : r.Fits more := by
  cases r with
  | code c =>
    refine ⟨h.1, ?_, ?_⟩
    · rintro ⟨hc, hd⟩
      exact (hseam c rfl '-' hd).1 ⟨hc, rfl⟩
    · rintro ⟨hc, hd⟩
      exact (hseam c rfl '*' hd).2.1 ⟨hc, rfl⟩
  | lineComment body => exact hclosed.elim
  | blockComment body closed =>
    obtain rfl : closed = true := hclosed
    exact ⟨h.1, nofun⟩
  | quoted quote inner closed =>
    obtain rfl : closed = true := hclosed
    refine ⟨h.1, fun hquote => ?_⟩
    have hlast : (Region.quoted quote inner true).text.getLast? = some quote := by
      rw [Region.text, if_pos rfl, ← List.cons_append]
      exact List.getLast?_concat
    exact (hseam quote hlast quote hquote).2.2 ⟨h.1, rfl⟩

theorem lexes_ne_nil {cs : List Char} {r : Region} {rs : List Region} (h : Lexes cs (r :: rs)) :
    cs ≠ [] := by
  obtain ⟨rest, rfl, -⟩ := h
  exact List.append_ne_nil_of_left_ne_nil (text_ne_nil r) rest

/-- **Over a seam two splittings are put together**, when the first text ends in code. -/
theorem lexes_append {cs more : List Char} {rs rs' : List Region} (h : Lexes cs rs)
    (hclosed : ∀ r ∈ rs.getLast?, r.Closed) (hseam : Seam cs more) (h' : Lexes more rs') :
    Lexes (cs ++ more) (rs ++ rs') := by
  induction rs generalizing cs with
  | nil =>
    obtain rfl : cs = [] := h
    exact h'
  | cons r rs ih =>
    obtain ⟨rest, rfl, hr, hrs⟩ := h
    cases rs with
    | nil =>
      obtain rfl : rest = [] := hrs
      rw [List.append_nil] at hseam ⊢
      exact ⟨more, rfl, fits_seam hr (hclosed r rfl) hseam, h'⟩
    | cons r' rs =>
      have hrest := lexes_ne_nil hrs
      refine ⟨rest ++ more, List.append_assoc _ _ _, fits_append hr hrest more, ih hrs hclosed ?_⟩
      intro c hc
      refine hseam c ?_
      rw [List.getLast?_append_of_ne_nil _ hrest]
      exact hc

theorem codeOf_append (rs rs' : List Region) : codeOf (rs ++ rs') = codeOf rs ++ codeOf rs' :=
  List.flatMap_append

/-! ## Hidden texts -/

theorem exists_lexes_hidden {post text : List Char} {blank : Char} (h : Hidden post text blank)
    {rs : List Region} (hpost : Lexes post rs) :
    ∃ rs', Lexes (text ++ post) rs' ∧ codeOf rs' = blank :: codeOf rs := by
  cases h with
  | @quoted quote inner hquote hnext =>
    exact ⟨.quoted quote inner true :: rs, ⟨post, rfl, ⟨hquote, hnext⟩, hpost⟩, rfl⟩
  | @block body hbody => exact ⟨.blockComment body true :: rs, ⟨post, rfl, ⟨hbody, nofun⟩, hpost⟩, rfl⟩
  | @line body hbody =>
    -- the newline that ends a line comment is code
    have hnewline : (Region.code '\n').Fits post := ⟨by decide, nofun, nofun⟩
    refine ⟨.lineComment body :: .code '\n' :: rs, ⟨'\n' :: post, ?_, ?_, post, rfl, hnewline, hpost⟩,
      rfl⟩
    · simp [Region.text]
    · exact ⟨hbody, by simp⟩

theorem blank_cases {post text : List Char} {blank : Char} (h : Hidden post text blank) :
    blank = ' ' ∨ blank = '\n' := by
  cases h with
  | quoted inner hquote hpost => exact .inl rfl
  | block hbody => exact .inl rfl
  | line hbody => exact .inr rfl

theorem lexes_blank {post text : List Char} {blank : Char} (h : Hidden post text blank)
    {rs : List Region} (hpost : Lexes post rs) : Lexes (blank :: post) (.code blank :: rs) := by
  refine ⟨post, rfl, ?_, hpost⟩
  rcases blank_cases h with rfl | rfl
  · exact ⟨by decide, nofun, nofun⟩
  · exact ⟨by decide, nofun, nofun⟩

theorem seam_blank {post text : List Char} {blank : Char} (h : Hidden post text blank)
    (pre : List Char) : Seam pre (blank :: post) := by
  intro c _ d hd
  obtain rfl : blank = d := Option.some.inj hd
  have hquotes : blank ∉ quotes := by rcases blank_cases h with rfl | rfl <;> decide
  refine ⟨?_, ?_, fun ⟨hc, he⟩ => hquotes (he ▸ hc)⟩
  · rintro ⟨-, rfl⟩
    rcases blank_cases h with hd | hd <;> cases hd
  · rintro ⟨-, rfl⟩
    rcases blank_cases h with hd | hd <;> cases hd

theorem head?_hidden {post text : List Char} {blank : Char} (h : Hidden post text blank)
    (more : List Char) : (text ++ more).head? = text.head? := by
  cases h <;> rfl

theorem sqlSkeleton_hidden {pre post text : List Char} {blank : Char} (hpre : EndsInCode pre)
    (hseam : Seam pre text) (h : Hidden post text blank) :
    sqlSkeleton (utf8 (pre ++ text ++ post)) = sqlSkeleton (utf8 (pre ++ [blank] ++ post)) := by
  obtain ⟨rs, hrs, hclosed⟩ := hpre
  obtain ⟨rs', hpost⟩ := exists_lexes post
  obtain ⟨hidden, hhidden, hcode⟩ := exists_lexes_hidden h hpost
  have hseam' : Seam pre (text ++ post) := by
    intro c hc d hd
    rw [head?_hidden h] at hd
    exact hseam c hc d hd
  have hleft := lexes_append hrs hclosed hseam' hhidden
  have hright := lexes_append hrs hclosed (seam_blank h pre) (lexes_blank h hpost)
  rw [List.append_assoc, List.append_assoc, List.singleton_append, sqlSkeleton_utf8 hleft,
    sqlSkeleton_utf8 hright, codeOf_append, codeOf_append, hcode]
  rfl

theorem endsInCode_plain {cs : List Char} (h : ∀ c ∈ cs, c ∉ quotes ∧ c ≠ '-' ∧ c ≠ '/') :
    EndsInCode cs := by
  refine ⟨cs.map Region.code, ?_, ?_⟩
  · induction cs with
    | nil => rfl
    | cons c cs ih =>
      obtain ⟨hq, hline, hblock⟩ := h c List.mem_cons_self
      exact ⟨cs, rfl, ⟨hq, fun hc => hline hc.1, fun hc => hblock hc.1⟩,
        ih fun d hd => h d (List.mem_cons_of_mem _ hd)⟩
  · intro r hr
    obtain ⟨c, -, rfl⟩ := List.mem_map.mp (List.mem_of_mem_getLast? hr)
    trivial

/-- **Hidden text does not influence the guard.** After a text that ends in code and over a seam, a
quoted region, a block comment or a line comment with its newline gives the answer that a blank in its
place gives, and so does any other such region with that blank. -/
theorem enforceReadOnly_hidden {pre post : String} {text : List Char} {blank : Char}
    (hpre : EndsInCode pre.toList) (hseam : Seam pre.toList text)
    (h : Hidden post.toList text blank) :
    enforceReadOnly (pre ++ String.ofList text ++ post) =
        enforceReadOnly (pre ++ String.ofList [blank] ++ post) ∧
      ∀ text', Seam pre.toList text' → Hidden post.toList text' blank →
        enforceReadOnly (pre ++ String.ofList text' ++ post) =
          enforceReadOnly (pre ++ String.ofList text ++ post) := by
  have hblanked : ∀ text', Seam pre.toList text' → Hidden post.toList text' blank →
      enforceReadOnly (pre ++ String.ofList text' ++ post) =
        enforceReadOnly (pre ++ String.ofList [blank] ++ post) := by
    intro text' hseam' h'
    unfold enforceReadOnly bytes
    simp only [toByteArray_eq_utf8, String.toList_append, String.toList_ofList,
      sqlSkeleton_hidden hpre hseam' h']
  refine ⟨hblanked text hseam h, fun text' hseam' h' => ?_⟩
  rw [hblanked text' hseam' h', hblanked text hseam h]

/-- A `;` and a write keyword between quotes, after a quote that is doubled. -/
theorem enforceReadOnly_hidden_drop :
    enforceReadOnly ("select 1, " ++ String.ofList (Char.ofNat 0x27 ::
        (escape (Char.ofNat 0x27) "é's; drop".toList ++ [Char.ofNat 0x27])) ++ " from t") =
      enforceReadOnly ("select 1, " ++ String.ofList [' '] ++ " from t") := by
  refine (enforceReadOnly_hidden (endsInCode_plain ?_) ?_ (.quoted _ ?_ ?_)).1
  · simp [quotes]
  · intro c hc d hd
    obtain rfl : ' ' = c := Option.some.inj hc
    obtain rfl : Char.ofNat 0x27 = d := Option.some.inj hd
    decide
  · decide
  · decide +kernel

end SqlGuard

end McpgSdk
