import Mathlib.Data.List.Basic
import Mathlib.Data.List.TakeWhile

/-!
# Words of a list

The words of a list are its maximal runs of elements with a property, as splitting at the other
elements and dropping the empty pieces gives them.

* **`mem_words_iff`**, `head?_words_iff`: what a word and the first word are, without the splitting;
* `words_append_right`, `words_append_left`: separators at either end do not matter;
* **`words_flatMap`**: nor does it matter to write a separator as several.
-/

set_option autoImplicit false

namespace McpgSdk

namespace Words

variable {α : Type} {p : α → Bool}

/-- The pieces of a list between its separators. -/
def pieces (p : α → Bool) (l : List α) : List (List α) := l.splitOnP fun a => !p a

/-- The words of a list. -/
def words (p : α → Bool) (l : List α) : List (List α) := (pieces p l).filter fun w => !w.isEmpty

/-- `w` is a maximal run in `l` of elements with `p`. -/
def IsWord (p : α → Bool) (w l : List α) : Prop :=
  w ≠ [] ∧ (∀ a ∈ w, p a) ∧ ∃ pre post, l = pre ++ w ++ post ∧
    (∀ a ∈ pre.getLast?, p a = false) ∧ ∀ a ∈ post.head?, p a = false

/-- `w` is the first such run. -/
def IsFirstWord (p : α → Bool) (w l : List α) : Prop :=
  w ≠ [] ∧ (∀ a ∈ w, p a) ∧ ∃ pre post, l = pre ++ w ++ post ∧
    (∀ a ∈ pre, p a = false) ∧ ∀ a ∈ post.head?, p a = false

@[simp] theorem pieces_nil : pieces p [] = [[]] := rfl

theorem pieces_cons_pos {a : α} (h : p a) (l : List α) :
    pieces p (a :: l) = (pieces p l).modifyHead (List.cons a) := by
  rw [pieces, List.splitOnP_cons_eq_if_modifyHead, if_neg (by simp [h])]
  rfl

theorem pieces_cons_neg {a : α} (h : p a = false) (l : List α) :
    pieces p (a :: l) = [] :: pieces p l := by
  rw [pieces, List.splitOnP_cons_eq_if_modifyHead, if_pos (by simp [h])]
  rfl

theorem takeWhile_append_of_head {w post : List α} (hw : ∀ a ∈ w, p a)
    (hpost : ∀ a ∈ post.head?, p a = false) : (w ++ post).takeWhile p = w := by
  rw [List.takeWhile_append_of_pos hw]
  cases post with
  | nil => simp
  | cons a post => simp [hpost a rfl]

theorem head?_dropWhile (l : List α) : ∀ a ∈ (l.dropWhile p).head?, p a = false := by
  intro a ha
  have h := List.head?_dropWhile_not p l
  rw [Option.mem_def.mp ha] at h
  exact h

theorem pieces_eq_cons (l : List α) : ∃ t, pieces p l = l.takeWhile p :: t := by
  induction l with
  | nil => exact ⟨[], rfl⟩
  | cons a l ih =>
    obtain ⟨t, ht⟩ := ih
    by_cases ha : p a
    · exact ⟨t, by rw [pieces_cons_pos ha, ht, List.takeWhile_cons_of_pos ha]; rfl⟩
    · rw [Bool.not_eq_true] at ha
      exact ⟨pieces p l, by rw [pieces_cons_neg ha, List.takeWhile_cons_of_neg (by simp [ha])]⟩

/-- A word after a separator. -/
def IsInnerWord (p : α → Bool) (w l : List α) : Prop :=
  (∀ a ∈ w, p a) ∧ ∃ pre a post, l = pre ++ a :: (w ++ post) ∧ p a = false ∧
    ∀ b ∈ post.head?, p b = false

theorem isInnerWord_cons_pos {a : α} (h : p a) (w l : List α) :
    IsInnerWord p w (a :: l) ↔ IsInnerWord p w l := by
  constructor
  · rintro ⟨hw, pre, b, post, hl, hb, hpost⟩
    cases pre with
    | nil =>
      obtain ⟨rfl, -⟩ := List.cons.inj hl
      rw [h] at hb
      cases hb
    | cons c pre => exact ⟨hw, pre, b, post, (List.cons.inj hl).2, hb, hpost⟩
  · rintro ⟨hw, pre, b, post, rfl, hb, hpost⟩
    exact ⟨hw, a :: pre, b, post, rfl, hb, hpost⟩

theorem isInnerWord_cons_neg {a : α} (h : p a = false) (w l : List α) :
    IsInnerWord p w (a :: l) ↔ w = l.takeWhile p ∨ IsInnerWord p w l := by
  constructor
  · rintro ⟨hw, pre, b, post, hl, hb, hpost⟩
    cases pre with
    | nil =>
      obtain ⟨rfl, rfl⟩ := List.cons.inj hl
      exact .inl (takeWhile_append_of_head hw hpost).symm
    | cons c pre => exact .inr ⟨hw, pre, b, post, (List.cons.inj hl).2, hb, hpost⟩
  · rintro (rfl | ⟨hw, pre, b, post, rfl, hb, hpost⟩)
    · refine ⟨fun b hb => List.mem_takeWhile_imp hb, [], a, l.dropWhile p, ?_, h, fun b hb => ?_⟩
      · rw [List.takeWhile_append_dropWhile]
        rfl
      · exact head?_dropWhile l b hb
    · exact ⟨hw, a :: pre, b, post, rfl, hb, hpost⟩

/-- The other pieces are the words after a separator, empty ones included. -/
theorem mem_tail_pieces_iff (w l : List α) : w ∈ (pieces p l).tail ↔ IsInnerWord p w l := by
  induction l with
  | nil =>
    refine iff_of_false (by simp) ?_
    rintro ⟨-, pre, a, post, hl, -⟩
    cases pre <;> cases hl
  | cons a l ih =>
    by_cases ha : p a
    · rw [pieces_cons_pos ha, isInnerWord_cons_pos ha, ← ih]
      cases pieces p l <;> rfl
    · rw [Bool.not_eq_true] at ha
      obtain ⟨t, ht⟩ := pieces_eq_cons (p := p) l
      rw [pieces_cons_neg ha, isInnerWord_cons_neg ha, ← ih, ht, List.tail_cons, List.tail_cons,
        List.mem_cons]

theorem mem_words {w l : List α} : w ∈ words p l ↔ w ∈ pieces p l ∧ w ≠ [] := by
  simp [words]

/-- **The words of a list are its maximal runs.** -/
theorem mem_words_iff (w l : List α) : w ∈ words p l ↔ IsWord p w l := by
  obtain ⟨t, ht⟩ := pieces_eq_cons (p := p) l
  have htail := mem_tail_pieces_iff (p := p) w l
  rw [ht, List.tail_cons] at htail
  rw [mem_words, ht, List.mem_cons, htail]
  constructor
  · rintro ⟨rfl | ⟨hw, pre, a, post, hl, ha, hpost⟩, hne⟩
    · refine ⟨hne, fun b hb => List.mem_takeWhile_imp hb, [], l.dropWhile p, ?_, nofun, ?_⟩
      · rw [List.nil_append, List.takeWhile_append_dropWhile]
      · exact head?_dropWhile l
    · refine ⟨hne, hw, pre ++ [a], post, by simp [hl], by simp [ha], hpost⟩
  · rintro ⟨hne, hw, pre, post, hl, hpre, hpost⟩
    refine ⟨?_, hne⟩
    rcases List.eq_nil_or_concat pre with rfl | ⟨pre, a, rfl⟩
    · left
      rw [hl]
      exact (takeWhile_append_of_head hw hpost).symm
    · right
      exact ⟨hw, pre, a, post, by simp [hl], hpre a (by simp), hpost⟩

/-! ## Separators -/

theorem words_cons_neg {a : α} (h : p a = false) (l : List α) : words p (a :: l) = words p l := by
  rw [words, pieces_cons_neg h]
  rfl

theorem words_append_right {s : List α} (hs : ∀ a ∈ s, p a = false) (l : List α) :
    words p (s ++ l) = words p l := by
  induction s with
  | nil => rfl
  | cons a s ih =>
    rw [List.cons_append, words_cons_neg (hs a List.mem_cons_self)]
    exact ih fun b hb => hs b (List.mem_cons_of_mem a hb)

/-- Two lists with the same first piece and the same words after it. -/
def SameWords (p : α → Bool) (l l' : List α) : Prop :=
  ∃ h t t', pieces p l = h :: t ∧ pieces p l' = h :: t' ∧
    (t.filter fun w => !w.isEmpty) = t'.filter fun w => !w.isEmpty

theorem SameWords.words_eq {l l' : List α} (h : SameWords p l l') : words p l = words p l' := by
  obtain ⟨w, t, t', hl, hl', ht⟩ := h
  rw [words, words, hl, hl', List.filter_cons, List.filter_cons, ht]

theorem SameWords.cons_pos {a : α} (ha : p a) {l l' : List α} (h : SameWords p l l') :
    SameWords p (a :: l) (a :: l') := by
  obtain ⟨w, t, t', hl, hl', ht⟩ := h
  refine ⟨a :: w, t, t', ?_, ?_, ht⟩
  · rw [pieces_cons_pos ha, hl]
    rfl
  · rw [pieces_cons_pos ha, hl']
    rfl

theorem SameWords.cons_neg {a b : α} (ha : p a = false) (hb : p b = false) {l l' : List α}
    (h : words p l = words p l') : SameWords p (a :: l) (b :: l') :=
  ⟨[], pieces p l, pieces p l', pieces_cons_neg ha l, pieces_cons_neg hb l', h⟩

theorem words_append_left (l : List α) {s : List α} (hs : ∀ a ∈ s, p a = false) :
    words p (l ++ s) = words p l := by
  have hempty : words p s = [] := by
    have h := words_append_right hs []
    rwa [List.append_nil] at h
  have hsame : SameWords p (l ++ s) l := by
    induction l with
    | nil =>
      cases s with
      | nil => exact ⟨[], [], [], rfl, rfl, rfl⟩
      | cons a s =>
        have ha := hs a List.mem_cons_self
        rw [words_cons_neg ha] at hempty
        exact ⟨[], pieces p s, [], pieces_cons_neg ha s, rfl, hempty⟩
    | cons a l ih =>
      by_cases ha : p a
      · exact ih.cons_pos ha
      · rw [Bool.not_eq_true] at ha
        exact .cons_neg ha ha ih.words_eq
  exact hsame.words_eq

/-- **Writing each separator as several changes no word.** -/
theorem words_flatMap {f : α → List α} (hword : ∀ a, p a → f a = [a])
    (hsep : ∀ a, p a = false → f a ≠ [] ∧ ∀ b ∈ f a, p b = false) (l : List α) :
    words p (l.flatMap f) = words p l := by
  have hsame : SameWords p (l.flatMap f) l := by
    induction l with
    | nil => exact ⟨[], [], [], rfl, rfl, rfl⟩
    | cons a l ih =>
      rw [List.flatMap_cons]
      by_cases ha : p a
      · rw [hword a ha]
        exact ih.cons_pos ha
      · rw [Bool.not_eq_true] at ha
        obtain ⟨hne, hall⟩ := hsep a ha
        cases hf : f a with
        | nil => exact absurd hf hne
        | cons b bs =>
          rw [hf] at hall
          rw [List.cons_append]
          refine .cons_neg (hall b List.mem_cons_self) ha ?_
          rw [words_append_right fun c hc => hall c (List.mem_cons_of_mem b hc)]
          exact ih.words_eq
  exact hsame.words_eq

/-- **The first word.** -/
theorem head?_words_iff (w l : List α) : (words p l).head? = some w ↔ IsFirstWord p w l := by
  constructor
  · intro h
    have hsep : ∀ a ∈ l.takeWhile fun a => !p a, p a = false := fun a ha => by
      simpa using List.mem_takeWhile_imp ha
    have hl := List.takeWhile_append_dropWhile (p := fun a => !p a) (l := l)
    have hwords := words_append_right hsep (l.dropWhile fun a => !p a)
    rw [hl] at hwords
    cases hd : l.dropWhile fun a => !p a with
    | nil =>
      rw [hwords, hd] at h
      cases h
    | cons a r =>
      have ha : p a := by
        have h := head?_dropWhile (p := fun a => !p a) l a (by rw [hd]; rfl)
        simpa using h
      obtain ⟨t, ht⟩ := pieces_eq_cons (p := p) (a :: r)
      have hne : (a :: r).takeWhile p ≠ [] := by simp [ha]
      have hw : (a :: r).takeWhile p = w := by
        rw [hwords, hd, words, ht, List.filter_cons_of_pos (by simpa using hne)] at h
        exact Option.some.inj h
      refine ⟨hw ▸ hne, fun b hb => List.mem_takeWhile_imp (hw ▸ hb), l.takeWhile fun a => !p a,
        (a :: r).dropWhile p, ?_, hsep, head?_dropWhile (a :: r)⟩
      rw [← hw, List.append_assoc, List.takeWhile_append_dropWhile, ← hd, hl]
  · rintro ⟨hne, hw, pre, post, rfl, hpre, hpost⟩
    obtain ⟨t, ht⟩ := pieces_eq_cons (p := p) (w ++ post)
    rw [takeWhile_append_of_head hw hpost] at ht
    rw [List.append_assoc, words_append_right hpre, words, ht,
      List.filter_cons_of_pos (by simpa using hne)]
    rfl

end Words

end McpgSdk
