import McpgSdk.SqlGuard.Grammar

/-!
# The guard accepts what it documents

The scanner works byte by byte and takes bytes for characters, so a character that is not ASCII
reaches the checks as several, some of which may be white space. It is shown to read the regions of
the grammar, and the checks to come out as if they were made on characters.

* `skipLine_utf8`, `skipBlock_closed`, `skipQuoted_closed`, ...: the inner loops on UTF-8 text;
* **`sqlSkeleton_utf8`**: the skeleton of a text is its code, with each character widened;
* `stacked_widen`, `words_widen`: what the checks look for is found in the widened code exactly when
  it is in the code;
* **`enforceReadOnly_accepts`**: every text splits in one way, and is accepted if and only if its
  code is read-only.
-/

set_option autoImplicit false

namespace McpgSdk

namespace SqlGuard

open Utf8 Words

/-! ## The inner loops -/

theorem skipLine_of_ne {b : UInt8} (h : b ≠ byte '\n') (rest : List UInt8) :
    skipLine (b :: rest) = skipLine rest := by
  rw [skipLine, if_neg h]

theorem skipLine_utf8 {body rest : List Char} (h : (Region.lineComment body).Fits rest) :
    skipLine (utf8 (body ++ rest)) = utf8 rest := by
  obtain ⟨hbody, hrest⟩ := h
  induction body with
  | nil =>
    cases rest with
    | nil => rfl
    | cons c rest =>
      obtain rfl := hrest c rfl
      rw [List.nil_append, utf8_cons_ascii (by decide), skipLine, if_pos rfl]
  | cons c body ih =>
    rw [List.mem_cons, not_or] at hbody
    rw [List.cons_append,
      pass_char (c := '\n') (by decide) (fun b r hb => skipLine_of_ne hb r) (Ne.symm hbody.1)]
    exact ih hbody.2

theorem skipBlock_of_ne {b : UInt8} (h : b ≠ byte '*') (rest : List UInt8) :
    skipBlock (b :: rest) = skipBlock rest := by
  cases rest with
  | nil => rfl
  | cons next rest => rw [skipBlock, if_neg fun hb => h hb.1]

theorem skipBlock_cons {c : Char} {cs : List Char} (h : ¬ (c = '*' ∧ cs.head? = some '/')) :
    skipBlock (utf8 (c :: cs)) = skipBlock (utf8 cs) := by
  by_cases hc : c = '*'
  · subst hc
    have hnext : (utf8 cs).head? ≠ some (byte '/') := fun hn =>
      h ⟨rfl, (head?_utf8 (by decide) cs).mp hn⟩
    rw [utf8_cons_ascii (by decide)]
    cases hcs : utf8 cs with
    | nil => rfl
    | cons next rest =>
      rw [skipBlock, if_neg]
      rintro ⟨-, rfl⟩
      exact hnext (by rw [hcs]; rfl)
  · exact pass_char (by decide) (fun b r hb => skipBlock_of_ne hb r) hc cs

theorem not_close_head {c : Char} {cs : List Char} (h : ¬ ['*', '/'] <:+: c :: cs) :
    ¬ (c = '*' ∧ cs.head? = some '/') := fun hc =>
  h ((close_prefix_iff c cs).mpr hc).isInfix

theorem skipBlock_closed {body : List Char} (h : ¬ ['*', '/'] <:+: body) (rest : List Char) :
    skipBlock (utf8 (body ++ '*' :: '/' :: rest)) = utf8 rest := by
  induction body with
  | nil =>
    rw [List.nil_append, utf8_cons_ascii (by decide), utf8_cons_ascii (by decide), skipBlock,
      if_pos ⟨rfl, rfl⟩]
  | cons c body ih =>
    have hhead : ¬ (c = '*' ∧ (body ++ '*' :: '/' :: rest).head? = some '/') := by
      rintro ⟨rfl, hnext⟩
      cases body with
      | nil => cases hnext
      | cons d body => exact not_close_head h ⟨rfl, hnext⟩
    rw [List.cons_append, skipBlock_cons hhead]
    exact ih (not_infix_tail h)

theorem skipBlock_open {body : List Char} (h : ¬ ['*', '/'] <:+: body) :
    skipBlock (utf8 body) = [] := by
  induction body with
  | nil => rfl
  | cons c body ih =>
    rw [skipBlock_cons (not_close_head h)]
    exact ih (not_infix_tail h)

theorem skipQuoted_of_ne {quote b : UInt8} (h : b ≠ quote) (rest : List UInt8) :
    skipQuoted quote (b :: rest) = skipQuoted quote rest := by
  cases rest with
  | nil => rfl
  | cons next rest => rw [skipQuoted, if_neg h]

theorem skipQuoted_escape {quote : Char} (hq : Ascii quote) (inner cs : List Char) :
    skipQuoted (byte quote) (utf8 (escape quote inner ++ cs)) = skipQuoted (byte quote) (utf8 cs) := by
  induction inner with
  | nil => rfl
  | cons c inner ih =>
    by_cases hc : c = quote
    · subst hc
      rw [escape_cons_self, List.cons_append, List.cons_append, utf8_cons_ascii hq,
        utf8_cons_ascii hq, skipQuoted, if_pos rfl, if_pos rfl]
      exact ih
    · rw [escape_cons_of_ne hc, List.cons_append,
        pass_char hq (fun b r hb => skipQuoted_of_ne hb r) hc]
      exact ih

theorem skipQuoted_quote {quote : Char} (hq : Ascii quote) {rest : List Char}
    (h : rest.head? ≠ some quote) : skipQuoted (byte quote) (utf8 (quote :: rest)) = utf8 rest := by
  have hnext : (utf8 rest).head? ≠ some (byte quote) := fun hn => h ((head?_utf8 hq rest).mp hn)
  rw [utf8_cons_ascii hq]
  cases hcs : utf8 rest with
  | nil => rfl
  | cons next bs =>
    rw [skipQuoted, if_pos rfl, if_neg]
    rintro rfl
    exact hnext (by rw [hcs]; rfl)

/-! ## The skeleton -/

theorem sqlSkeleton_code {b : UInt8} {rest : List UInt8} (hq : latin1 b ∉ quotes)
    (hline : ¬ (latin1 b = '-' ∧ rest.head? = some (byte '-')))
    (hblock : ¬ (latin1 b = '/' ∧ rest.head? = some (byte '*'))) :
    sqlSkeleton (b :: rest) = latin1 b :: sqlSkeleton rest := by
  rw [sqlSkeleton, if_neg hline, if_neg hblock, if_neg hq]

theorem ascii_of_mem_quotes {c : Char} (h : c ∈ quotes) : Ascii c := by
  simp only [quotes, List.mem_cons, List.not_mem_nil, or_false] at h
  rcases h with rfl | rfl | rfl <;> decide

theorem sqlSkeleton_high {bs : List UInt8} (h : ∀ b ∈ bs, 128 ≤ b.toNat) (rest : List UInt8) :
    sqlSkeleton (bs ++ rest) = bs.map latin1 ++ sqlSkeleton rest := by
  induction bs with
  | nil => rfl
  | cons b bs ih =>
    have hb : ¬ Ascii (latin1 b) := by
      unfold Ascii
      rw [toNat_latin1]
      exact Nat.not_lt.mpr (h b List.mem_cons_self)
    have hne : ∀ c, Ascii c → latin1 b ≠ c := fun c hc he => hb (he ▸ hc)
    rw [List.cons_append, sqlSkeleton_code (fun hq => hb (ascii_of_mem_quotes hq))
      (fun hl => hne '-' (by decide) hl.1) fun hl => hne '/' (by decide) hl.1,
      ih fun b' hb' => h b' (List.mem_cons_of_mem b hb')]
    rfl

theorem sqlSkeleton_codeChar {c : Char} {rest : List Char} (h : (Region.code c).Fits rest) :
    sqlSkeleton (utf8 (c :: rest)) = widen c ++ sqlSkeleton (utf8 rest) := by
  obtain ⟨hq, hline, hblock⟩ := h
  by_cases ha : Ascii c
  · have hc := latin1_byte ha
    rw [utf8_cons_ascii ha, sqlSkeleton_code, hc, widen_ascii ha]
    · rfl
    · rwa [hc]
    · rwa [hc, head?_utf8 (by decide)]
    · rwa [hc, head?_utf8 (by decide)]
  · rw [utf8_cons, sqlSkeleton_high fun b hb => high_of_mem_utf8EncodeChar ha hb]
    rfl

theorem sqlSkeleton_lineComment {body rest : List Char} (h : (Region.lineComment body).Fits rest) :
    sqlSkeleton (utf8 ('-' :: '-' :: (body ++ rest))) = sqlSkeleton (utf8 rest) := by
  rw [utf8_cons_ascii (by decide), utf8_cons_ascii (by decide), sqlSkeleton,
    if_pos ⟨latin1_byte (by decide), rfl⟩, List.tail_cons, skipLine_utf8 h]

theorem sqlSkeleton_block (bs : List UInt8) :
    sqlSkeleton (byte '/' :: byte '*' :: bs) = ' ' :: sqlSkeleton (skipBlock bs) := by
  have hc : latin1 (byte '/') = '/' := latin1_byte (by decide)
  rw [sqlSkeleton, if_neg (by rw [hc]; exact fun h => absurd h.1 (by decide)), if_pos ⟨hc, rfl⟩,
    List.tail_cons]

theorem sqlSkeleton_quote {quote : Char} (h : quote ∈ quotes) (bs : List UInt8) :
    sqlSkeleton (byte quote :: bs) = ' ' :: sqlSkeleton (skipQuoted (byte quote) bs) := by
  have hc : latin1 (byte quote) = quote := latin1_byte (ascii_of_mem_quotes h)
  have hne : quote ≠ '-' ∧ quote ≠ '/' := by
    simp only [quotes, List.mem_cons, List.not_mem_nil, or_false] at h
    rcases h with rfl | rfl | rfl <;> decide
  rw [sqlSkeleton, hc, if_neg fun hl => hne.1 hl.1, if_neg fun hl => hne.2 hl.1, if_pos h]

theorem sqlSkeleton_region {r : Region} {rest : List Char} (h : r.Fits rest) :
    sqlSkeleton (utf8 (r.text ++ rest)) = r.kept.flatMap widen ++ sqlSkeleton (utf8 rest) := by
  have hblank : [' '].flatMap widen = [' '] := by
    rw [List.flatMap_singleton, widen_ascii (by decide)]
  cases r with
  | code c =>
    rw [Region.kept, List.flatMap_singleton]
    exact sqlSkeleton_codeChar h
  | lineComment body => exact sqlSkeleton_lineComment h
  | blockComment body closed =>
    obtain ⟨hbody, hrest⟩ := h
    rw [Region.kept, hblank, Region.text, List.cons_append, List.cons_append,
      utf8_cons_ascii (by decide), utf8_cons_ascii (by decide), sqlSkeleton_block, List.append_assoc]
    cases closed with
    | true =>
      rw [if_pos rfl]
      exact congrArg (fun bs => ' ' :: sqlSkeleton bs) (skipBlock_closed hbody rest)
    | false =>
      rw [hrest rfl, if_neg (by decide), List.append_nil, List.append_nil, skipBlock_open hbody]
      rfl
  | quoted quote inner closed =>
    have ha := ascii_of_mem_quotes h.1
    rw [Region.kept, hblank, Region.text, List.cons_append, utf8_cons_ascii ha,
      sqlSkeleton_quote h.1, List.append_assoc, skipQuoted_escape ha]
    cases closed with
    | true => exact congrArg (fun bs => ' ' :: sqlSkeleton bs) (skipQuoted_quote ha h.2)
    | false =>
      rw [show rest = [] from h.2]
      rfl

theorem codeOf_cons (r : Region) (rs : List Region) : codeOf (r :: rs) = r.kept ++ codeOf rs :=
  List.flatMap_cons

/-- **The skeleton of a text is its code, with each character widened.** -/
theorem sqlSkeleton_utf8 {cs : List Char} {rs : List Region} (h : Lexes cs rs) :
    sqlSkeleton (utf8 cs) = (codeOf rs).flatMap widen := by
  induction rs generalizing cs with
  | nil =>
    obtain rfl : cs = [] := h
    exact sqlSkeleton.eq_1
  | cons r rs ih =>
    obtain ⟨rest, rfl, hr, hrs⟩ := h
    rw [sqlSkeleton_region hr, ih hrs, codeOf_cons, List.flatMap_append]

/-! ## White space -/

theorem isIdentChar_iff (c : Char) :
    isIdentChar c ↔ (48 ≤ c.toNat ∧ c.toNat ≤ 57) ∨ (65 ≤ c.toNat ∧ c.toNat ≤ 90) ∨
      (97 ≤ c.toNat ∧ c.toNat ≤ 122) ∨ c.toNat = 95 ∨ c.toNat = 36 ∨ c.toNat = 35 := by
  have hchar : ∀ d : Char, c = d ↔ c.toNat = d.toNat := fun d => Char.toNat_inj.symm
  simp only [isIdentChar, Char.isAlphanum, Char.isAlpha, Char.isUpper, Char.isLower, Char.isDigit,
    Bool.or_eq_true, Bool.and_eq_true, decide_eq_true_eq, beq_iff_eq, UInt32.le_iff_toNat_le,
    ge_iff_le, hchar, Char.toNat_val, Char.reduceToNat]
  omega

theorem isWhitespace_iff (c : Char) :
    isWhitespace c ↔ (9 ≤ c.toNat ∧ c.toNat ≤ 13) ∨ c.toNat = 0x20 ∨ c.toNat = 0x85 ∨
      c.toNat = 0xA0 ∨ c.toNat = 0x1680 ∨ (0x2000 ≤ c.toNat ∧ c.toNat ≤ 0x200A) ∨
      c.toNat = 0x2028 ∨ c.toNat = 0x2029 ∨ c.toNat = 0x202F ∨ c.toNat = 0x205F ∨
      c.toNat = 0x3000 := by
  simp only [isWhitespace, Bool.or_eq_true, Bool.and_eq_true, decide_eq_true_eq, beq_iff_eq,
    or_assoc]

theorem isBlank_iff (c : Char) :
    isBlank c ↔ (9 ≤ c.toNat ∧ c.toNat ≤ 13) ∨ c.toNat = 0x20 := by
  simp only [isBlank, Bool.or_eq_true, Bool.and_eq_true, decide_eq_true_eq, beq_iff_eq]

theorem ascii_of_isIdentChar {c : Char} (h : isIdentChar c) : Ascii c := by
  rw [isIdentChar_iff] at h
  unfold Ascii
  omega

theorem isIdentChar_of_isWhitespace {c : Char} (h : isWhitespace c) : isIdentChar c = false := by
  rw [isWhitespace_iff] at h
  rw [← Bool.not_eq_true, isIdentChar_iff]
  omega

theorem isWhitespace_eq_isBlank {c : Char} (h : Ascii c) : isWhitespace c = isBlank c := by
  unfold Ascii at h
  rw [Bool.eq_iff_iff, isWhitespace_iff, isBlank_iff]
  omega

theorem exists_not_isWhitespace_widen (c : Char) :
    (∃ d ∈ widen c, isWhitespace d = false) ↔ isBlank c = false := by
  by_cases ha : Ascii c
  · rw [widen_ascii ha, ← isWhitespace_eq_isBlank ha]
    simp
  · obtain ⟨d, hd, hlead, hlt⟩ := exists_lead_mem_widen ha
    refine iff_of_true ⟨d, hd, ?_⟩ ?_
    · rw [← Bool.not_eq_true, isWhitespace_iff]
      omega
    · unfold Ascii at ha
      rw [← Bool.not_eq_true, isBlank_iff]
      omega

theorem exists_trim (cs : List Char) :
    ∃ pre post, cs = pre ++ trim cs ++ post ∧ (∀ c ∈ pre, isWhitespace c) ∧
      ∀ c ∈ post, isWhitespace c := by
  refine ⟨cs.takeWhile isWhitespace, (cs.dropWhile isWhitespace).rtakeWhile isWhitespace, ?_,
    fun c hc => List.mem_takeWhile_imp hc, fun c hc => List.mem_rtakeWhile_imp hc⟩
  rw [List.append_assoc, trim, List.rdropWhile_append_rtakeWhile, List.takeWhile_append_dropWhile]

theorem trim_eq_nil_iff (cs : List Char) : trim cs = [] ↔ ∀ c ∈ cs, isWhitespace c := by
  rw [trim, List.rdropWhile_eq_nil_iff]
  constructor
  · intro h c hc
    rw [← List.takeWhile_append_dropWhile (p := isWhitespace) (l := cs), List.mem_append] at hc
    rcases hc with hc | hc
    · exact List.mem_takeWhile_imp hc
    · exact h c hc
  · intro h c hc
    exact h c ((List.dropWhile_suffix isWhitespace).subset hc)

/-! ## Stacked statements -/

/-- A `;` with something after it that is not blank. -/
def Stacked (blank : Char → Bool) (cs : List Char) : Prop :=
  ∃ pre post, cs = pre ++ ';' :: post ∧ ∃ c ∈ post, blank c = false

section Stacked

variable {blank : Char → Bool} {cs : List Char}

theorem stacked_cons (c : Char) (cs : List Char) :
    Stacked blank (c :: cs) ↔ (c = ';' ∧ ∃ d ∈ cs, blank d = false) ∨ Stacked blank cs := by
  constructor
  · rintro ⟨pre, post, he, hpost⟩
    cases pre with
    | nil =>
      obtain ⟨rfl, rfl⟩ := List.cons.inj he
      exact .inl ⟨rfl, hpost⟩
    | cons d pre => exact .inr ⟨pre, post, (List.cons.inj he).2, hpost⟩
  · rintro (⟨rfl, hpost⟩ | ⟨pre, post, rfl, hpost⟩)
    · exact ⟨[], cs, rfl, hpost⟩
    · exact ⟨c :: pre, post, rfl, hpost⟩

theorem not_stacked_of_not_mem (h : ';' ∉ cs) : ¬ Stacked blank cs := by
  rintro ⟨pre, post, rfl, -⟩
  exact h (List.mem_append_right pre List.mem_cons_self)

/-- What comes before the first `;` does not matter. -/
theorem stacked_append_right {pre : List Char} (h : ';' ∉ pre) (cs : List Char) :
    Stacked blank (pre ++ cs) ↔ Stacked blank cs := by
  induction pre with
  | nil => exact Iff.rfl
  | cons c pre ih =>
    rw [List.mem_cons, not_or] at h
    rw [List.cons_append, stacked_cons, ih h.2]
    exact or_iff_right fun hc => h.1 hc.1.symm

theorem stacked_append_left (hsemi : blank ';' = false) (cs : List Char) {post : List Char}
    (h : ∀ c ∈ post, blank c) : Stacked blank (cs ++ post) ↔ Stacked blank cs := by
  have hmem : ';' ∉ post := fun hm => by
    have hblank := h _ hm
    rw [hsemi] at hblank
    cases hblank
  induction cs with
  | nil => exact iff_of_false (not_stacked_of_not_mem hmem) (not_stacked_of_not_mem nofun)
  | cons c cs ih =>
    have hrest : (∃ d ∈ cs ++ post, blank d = false) ↔ ∃ d ∈ cs, blank d = false := by
      constructor
      · rintro ⟨d, hd, hblank⟩
        rcases List.mem_append.mp hd with hd | hd
        · exact ⟨d, hd, hblank⟩
        · rw [h d hd] at hblank
          cases hblank
      · rintro ⟨d, hd, hblank⟩
        exact ⟨d, List.mem_append_left post hd, hblank⟩
    rw [List.cons_append, stacked_cons, stacked_cons]
    exact or_congr (and_congr_right fun _ => hrest) ih

theorem exists_of_stacked (h : Stacked blank cs) : ∃ c ∈ cs, blank c = false := by
  obtain ⟨pre, post, rfl, c, hc, hblank⟩ := h
  exact ⟨c, List.mem_append_right pre (List.mem_cons_of_mem _ hc), hblank⟩

end Stacked

theorem trim_isEmpty_iff (cs : List Char) :
    (!(trim cs).isEmpty) = true ↔ ∃ c ∈ cs, isWhitespace c = false := by
  rw [Bool.not_eq_true', ← Bool.not_eq_true, List.isEmpty_iff, trim_eq_nil_iff]
  simp

theorem multipleStatements_semicolon (cs : List Char) :
    multipleStatements (';' :: cs) = !(trim cs).isEmpty := rfl

theorem multipleStatements_cons {c : Char} (h : c ≠ ';') (cs : List Char) :
    multipleStatements (c :: cs) = multipleStatements cs := by
  unfold multipleStatements
  rw [List.findIdx?_cons, if_neg (by simpa using h)]
  cases cs.findIdx? (· == ';') with
  | none => rfl
  | some idx => rfl

theorem multipleStatements_iff (cs : List Char) :
    multipleStatements cs = true ↔ Stacked isWhitespace cs := by
  induction cs with
  | nil => exact iff_of_false (by decide) (not_stacked_of_not_mem nofun)
  | cons c cs ih =>
    by_cases hc : c = ';'
    · subst hc
      rw [multipleStatements_semicolon, trim_isEmpty_iff, stacked_cons]
      -- a second `;` is itself more SQL after the first
      exact ⟨fun h => .inl ⟨rfl, h⟩, fun h => h.elim And.right exists_of_stacked⟩
    · rw [multipleStatements_cons hc, ih, stacked_cons]
      exact (or_iff_right fun h => hc h.1).symm

/-- A second statement is found in the widened code exactly when there is one in the code. -/
theorem stacked_widen (code : List Char) :
    Stacked isWhitespace (code.flatMap widen) ↔ Stacked isBlank code := by
  induction code with
  | nil => exact iff_of_false (not_stacked_of_not_mem nofun) (not_stacked_of_not_mem nofun)
  | cons c code ih =>
    have hrest : (∃ d ∈ code.flatMap widen, isWhitespace d = false) ↔
        ∃ d ∈ code, isBlank d = false := by
      simp only [List.mem_flatMap, ← exists_not_isWhitespace_widen]
      constructor
      · rintro ⟨d, ⟨e, he, hd⟩, hblank⟩
        exact ⟨e, he, d, hd, hblank⟩
      · rintro ⟨e, he, d, hd, hblank⟩
        exact ⟨d, ⟨e, he, hd⟩, hblank⟩
    rw [List.flatMap_cons, stacked_cons, ← ih, ← hrest]
    by_cases ha : Ascii c
    · rw [widen_ascii ha]
      exact stacked_cons c _
    · have hmem : ';' ∉ widen c := fun hm => not_ascii_of_mem_widen ha hm (by decide)
      have hne : c ≠ ';' := fun hc => ha (hc ▸ by decide)
      rw [stacked_append_right hmem, or_iff_right fun h => hne h.1]

/-! ## The verdict -/

theorem words_widen (code : List Char) :
    words isIdentChar (code.flatMap widen) = words isIdentChar code := by
  refine words_flatMap (fun c hc => widen_ascii (ascii_of_isIdentChar hc)) (fun c hc => ?_) code
  by_cases ha : Ascii c
  · rw [widen_ascii ha]
    exact ⟨List.cons_ne_nil c [], List.forall_mem_singleton.mpr hc⟩
  · obtain ⟨d, hd, -⟩ := exists_lead_mem_widen ha
    refine ⟨List.ne_nil_of_mem hd, fun e he => ?_⟩
    rw [← Bool.not_eq_true]
    exact fun hident => not_ascii_of_mem_widen ha he (ascii_of_isIdentChar hident)

theorem words_trim (cs : List Char) : words isIdentChar (trim cs) = words isIdentChar cs := by
  obtain ⟨pre, post, he, hpre, hpost⟩ := exists_trim cs
  have hwords := words_append_left (p := isIdentChar) (pre ++ trim cs)
    fun c hc => isIdentChar_of_isWhitespace (hpost c hc)
  rw [← he, words_append_right fun c hc => isIdentChar_of_isWhitespace (hpre c hc)] at hwords
  exact hwords.symm

theorem stacked_trim (cs : List Char) :
    Stacked isWhitespace (trim cs) ↔ Stacked isWhitespace cs := by
  obtain ⟨pre, post, he, hpre, hpost⟩ := exists_trim cs
  have hmem : ';' ∉ pre := fun hm => absurd (hpre _ hm) (by decide)
  have hstacked := stacked_append_left (by decide) (pre ++ trim cs) hpost
  rw [← he, stacked_append_right hmem] at hstacked
  exact hstacked.symm

theorem find?_tokens (cs : List Char) :
    (tokens cs).find? (fun t => !t.isEmpty) = (words isIdentChar cs).head? :=
  List.head?_filter.symm

theorem find?_writeKeyword (cs : List Char) :
    (tokens cs).find? (fun t => !t.isEmpty && toAsciiUppercase t ∈ writeKeywords) = none ↔
      ∀ w ∈ words isIdentChar cs, toAsciiUppercase w ∉ writeKeywords := by
  rw [List.find?_eq_none]
  constructor
  · intro h w hw
    have hw' := h w (mem_words.mp hw).1
    simpa [(mem_words.mp hw).2] using hw'
  · intro h t ht hkeyword
    rw [Bool.and_eq_true, Bool.not_eq_true', List.isEmpty_eq_false_iff, decide_eq_true_eq] at hkeyword
    exact h t (mem_words.mpr ⟨ht, hkeyword.1⟩) hkeyword.2

theorem leader_iff (first : Option (List Char)) :
    toAsciiUppercase (first.getD []) ∈ readOnlyLeaders ↔
      ∃ w, first = some w ∧ toAsciiUppercase w ∈ readOnlyLeaders := by
  cases first with
  | none =>
    refine iff_of_false (by decide) ?_
    rintro ⟨w, hw, -⟩
    cases hw
  | some w => simp

theorem enforceReadOnly_ok_iff (s : String) :
    enforceReadOnly s = .ok () ↔
      ¬ Stacked isWhitespace (sqlSkeleton (bytes s)) ∧
      (∃ w, (words isIdentChar (sqlSkeleton (bytes s))).head? = some w ∧
        toAsciiUppercase w ∈ readOnlyLeaders) ∧
      ∀ w ∈ words isIdentChar (sqlSkeleton (bytes s)), toAsciiUppercase w ∉ writeKeywords := by
  rw [← stacked_trim, ← words_trim, ← multipleStatements_iff, ← leader_iff, ← find?_writeKeyword,
    ← find?_tokens]
  unfold enforceReadOnly
  generalize trim (sqlSkeleton (bytes s)) = trimmed
  by_cases hempty : trimmed.isEmpty
  · -- nothing is left, so there is no first word
    obtain rfl := List.isEmpty_iff.mp hempty
    exact iff_of_false nofun fun h => absurd h.2.1 (by decide)
  · by_cases hmultiple : multipleStatements trimmed
    · rw [if_neg hempty, if_pos hmultiple]
      exact iff_of_false nofun fun h => h.1 hmultiple
    · rw [if_neg hempty, if_neg hmultiple, and_iff_right hmultiple]
      by_cases hleader : toAsciiUppercase (((tokens trimmed).find? fun t => !t.isEmpty).getD []) ∈
          readOnlyLeaders
      · rw [if_neg (not_not_intro hleader), and_iff_right hleader]
        cases (tokens trimmed).find? fun t =>
          !t.isEmpty && toAsciiUppercase t ∈ writeKeywords with
        | none => exact iff_of_true rfl rfl
        | some token => exact iff_of_false nofun nofun
      · rw [if_pos hleader]
        exact iff_of_false nofun fun h => hleader h.1

/-- **The guard accepts what it documents.** Every text splits into regions in exactly one way, and
the guard accepts it if and only if the code that is left is read-only. -/
theorem enforceReadOnly_accepts (s : String) :
    (∃! rs, Lexes s.toList rs) ∧
      ∀ rs, Lexes s.toList rs → (enforceReadOnly s = .ok () ↔ ReadOnly (codeOf rs)) := by
  refine ⟨existsUnique_lexes s.toList, fun rs hrs => ?_⟩
  have hskeleton : sqlSkeleton (bytes s) = (codeOf rs).flatMap widen := by
    rw [bytes, toByteArray_eq_utf8, sqlSkeleton_utf8 hrs]
  rw [enforceReadOnly_ok_iff, hskeleton, stacked_widen, words_widen]
  simp only [head?_words_iff, mem_words_iff]
  constructor
  · rintro ⟨hsingle, hleader, hwrite⟩
    refine ⟨fun pre post he c hc => ?_, hleader, hwrite⟩
    by_contra hblank
    exact hsingle ⟨pre, post, he, c, hc, Bool.not_eq_true _ ▸ hblank⟩
  · rintro ⟨hsingle, hleader, hwrite⟩
    refine ⟨?_, hleader, hwrite⟩
    rintro ⟨pre, post, he, c, hc, hblank⟩
    rw [hsingle pre post he c hc] at hblank
    cases hblank

/-- Keywords in comments and quotes do not count. -/
example : enforceReadOnly "select \"drop\", 'it''s; into' /* ; delete */ from t -- call" = .ok () := by
  decide +kernel

/-- A no-break space after a `;` is more than blanks, although its second byte alone would be one. -/
example : enforceReadOnly "SELECT 1;\u00a0" ≠ .ok () := by decide +kernel

end SqlGuard

end McpgSdk
