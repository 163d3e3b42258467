import Mathlib.Data.List.Basic
import Mathlib.Data.Nat.Notation
import Mathlib.Tactic.SplitIfs

/-!
# UTF-8 and byte scanners

A scanner that looks for ASCII bytes in UTF-8 text finds the ASCII characters and nothing else: an
ASCII character is one byte, and every byte of any other character is at least `0x80`.

* `utf8`: the bytes of a list of characters, with `toByteArray_eq_utf8` for strings;
* `utf8EncodeChar_ascii`, `high_of_mem_utf8EncodeChar`: the two kinds of character;
* `head?_utf8`: the first byte is a given ASCII byte exactly when the first character is;
* **`pass_char`**: a scanner that passes every byte but one passes every character but that one;
* `latin1`: a byte as the character with its number, and `widen`, what becomes of a character so.
-/

set_option autoImplicit false

namespace McpgSdk

namespace Utf8

/-- The UTF-8 bytes of some characters. -/
def utf8 (cs : List Char) : List UInt8 := cs.flatMap String.utf8EncodeChar

/-- The character is ASCII. -/
def Ascii (c : Char) : Prop := c.toNat < 128

instance (c : Char) : Decidable (Ascii c) := inferInstanceAs (Decidable (_ < _))

@[simp] theorem utf8_nil : utf8 [] = [] := rfl

theorem utf8_cons (c : Char) (cs : List Char) :
    utf8 (c :: cs) = String.utf8EncodeChar c ++ utf8 cs := List.flatMap_cons

theorem toByteArray_eq_utf8 (s : String) : s.toByteArray.data.toList = utf8 s.toList := by
  rw [← String.utf8Encode_toList, List.utf8Encode, List.data_toByteArray]
  rfl

/-- An ASCII character as its byte. -/
def byte (c : Char) : UInt8 := UInt8.ofNat c.toNat

theorem utf8EncodeChar_ascii {c : Char} (h : Ascii c) : String.utf8EncodeChar c = [byte c] := by
  unfold Ascii Char.toNat at h
  unfold String.utf8EncodeChar byte
  rw [if_pos (by omega)]
  rfl

theorem utf8_cons_ascii {c : Char} (h : Ascii c) (cs : List Char) :
    utf8 (c :: cs) = byte c :: utf8 cs := by
  rw [utf8_cons, utf8EncodeChar_ascii h]
  rfl

theorem toNat_byte {c : Char} (h : Ascii c) : (byte c).toNat = c.toNat := by
  unfold Ascii at h
  rw [byte, UInt8.toNat_ofNat', Nat.mod_eq_of_lt (by omega)]

theorem byte_inj {c d : Char} (hc : Ascii c) (hd : Ascii d) (h : byte c = byte d) : c = d := by
  have hn := congrArg UInt8.toNat h
  rw [toNat_byte hc, toNat_byte hd] at hn
  exact Char.toNat_inj.mp hn

theorem toNat_ofNat_add {n m k : ℕ} (h : n < m) (hm : m + k ≤ 256) :
    (UInt8.ofNat (n + k)).toNat = n + k := by
  rw [UInt8.toNat_ofNat', Nat.mod_eq_of_lt (by omega)]

theorem utf8EncodeChar_high {c : Char} (h : ¬ Ascii c) :
    ∃ b bs, String.utf8EncodeChar c = b :: bs ∧ 192 ≤ b.toNat ∧ ∀ d ∈ bs, 128 ≤ d.toNat := by
  have hcont : ∀ n : ℕ, 128 ≤ (UInt8.ofNat (n % 64 + 128)).toNat := by
    intro n
    rw [toNat_ofNat_add (m := 64) (Nat.mod_lt n (by omega)) (by omega)]
    omega
  have hlead : ∀ n m k : ℕ, 0 < m → 192 ≤ k → m + k ≤ 256 →
      192 ≤ (UInt8.ofNat (n % m + k)).toNat := by
    intro n m k hm hk hmk
    rw [toNat_ofNat_add (Nat.mod_lt n hm) hmk]
    omega
  unfold Ascii Char.toNat at h
  unfold String.utf8EncodeChar
  rw [if_neg (by omega)]
  split_ifs
  · refine ⟨_, _, rfl, hlead _ 32 192 (by omega) (by omega) (by omega), ?_⟩
    exact List.forall_mem_singleton.mpr (hcont _)
  · refine ⟨_, _, rfl, hlead _ 16 224 (by omega) (by omega) (by omega), ?_⟩
    exact List.forall_mem_cons.mpr ⟨hcont _, List.forall_mem_singleton.mpr (hcont _)⟩
  · refine ⟨_, _, rfl, hlead _ 8 240 (by omega) (by omega) (by omega), ?_⟩
    exact List.forall_mem_cons.mpr ⟨hcont _, List.forall_mem_cons.mpr
      ⟨hcont _, List.forall_mem_singleton.mpr (hcont _)⟩⟩

theorem high_of_mem_utf8EncodeChar {c : Char} (h : ¬ Ascii c) {b : UInt8}
    (hb : b ∈ String.utf8EncodeChar c) : 128 ≤ b.toNat := by
  obtain ⟨lead, rest, he, hlead, hrest⟩ := utf8EncodeChar_high h
  rw [he] at hb
  rcases List.mem_cons.mp hb with rfl | hb
  · omega
  · exact hrest b hb

theorem ne_byte_of_high {c : Char} (h : Ascii c) {b : UInt8} (hb : 128 ≤ b.toNat) :
    b ≠ byte c := by
  rintro rfl
  rw [toNat_byte h] at hb
  unfold Ascii at h
  omega

theorem head?_utf8 {c : Char} (h : Ascii c) (cs : List Char) :
    (utf8 cs).head? = some (byte c) ↔ cs.head? = some c := by
  cases cs with
  | nil => exact iff_of_false nofun nofun
  | cons d ds =>
    by_cases hd : Ascii d
    · rw [utf8_cons_ascii hd, List.head?_cons, List.head?_cons, Option.some_inj, Option.some_inj]
      exact ⟨byte_inj hd h, congrArg byte⟩
    · obtain ⟨lead, rest, he, hlead, -⟩ := utf8EncodeChar_high hd
      refine iff_of_false ?_ ?_
      · rw [utf8_cons, he, List.cons_append, List.head?_cons, Option.some_inj]
        exact ne_byte_of_high h (by omega)
      · rintro ⟨⟩
        exact hd h

theorem pass_char {f : List UInt8 → List UInt8} {c d : Char} (hc : Ascii c)
    (hf : ∀ b rest, b ≠ byte c → f (b :: rest) = f rest) (hd : d ≠ c) (cs : List Char) :
    f (utf8 (d :: cs)) = f (utf8 cs) := by
  by_cases ha : Ascii d
  · rw [utf8_cons_ascii ha]
    exact hf _ _ fun h => hd (byte_inj ha hc h)
  · have hbytes : ∀ bs : List UInt8, (∀ b ∈ bs, 128 ≤ b.toNat) → f (bs ++ utf8 cs) = f (utf8 cs) := by
      intro bs hbs
      induction bs with
      | nil => rfl
      | cons b bs ih =>
        have hb := ne_byte_of_high hc (hbs b List.mem_cons_self)
        rw [List.cons_append, hf _ _ hb]
        exact ih fun b' hb' => hbs b' (List.mem_cons_of_mem b hb')
    rw [utf8_cons]
    exact hbytes _ fun b hb => high_of_mem_utf8EncodeChar ha hb

/-! ## Bytes as characters -/

/-- A byte as the character of its number. -/
def latin1 (b : UInt8) : Char := Char.ofNat b.toNat

theorem toNat_latin1 (b : UInt8) : (latin1 b).toNat = b.toNat := by
  have hb := b.toNat_lt
  unfold latin1 Char.ofNat
  rw [dif_pos (.inl (by omega))]
  rfl

theorem latin1_byte {c : Char} (h : Ascii c) : latin1 (byte c) = c := by
  apply Char.toNat_inj.mp
  rw [toNat_latin1, toNat_byte h]

/-- What becomes of a character whose bytes are taken for characters. -/
def widen (c : Char) : List Char := (String.utf8EncodeChar c).map latin1

theorem widen_ascii {c : Char} (h : Ascii c) : widen c = [c] := by
  rw [widen, utf8EncodeChar_ascii h, List.map_singleton, latin1_byte h]

/-- A character that is not ASCII becomes several, none of them ASCII. -/
theorem not_ascii_of_mem_widen {c d : Char} (h : ¬ Ascii c) (hd : d ∈ widen c) : ¬ Ascii d := by
  obtain ⟨b, hb, rfl⟩ := List.mem_map.mp hd
  have hhigh := high_of_mem_utf8EncodeChar h hb
  unfold Ascii
  rw [toNat_latin1]
  omega

theorem exists_lead_mem_widen {c : Char} (h : ¬ Ascii c) :
    ∃ d ∈ widen c, 192 ≤ d.toNat ∧ d.toNat < 256 := by
  obtain ⟨lead, rest, he, hlead, -⟩ := utf8EncodeChar_high h
  refine ⟨latin1 lead, ?_, ?_, ?_⟩
  · rw [widen, he]
    exact List.mem_cons_self
  · rw [toNat_latin1]
    exact hlead
  · rw [toNat_latin1]
    exact lead.toNat_lt

end Utf8

end McpgSdk
