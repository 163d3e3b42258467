import Mathlib.Data.Nat.Notation

/-!
# Base64

The standard alphabet with padding. Decoding is strict: the text is a whole number of quantums, only the
last is padded, and the bits a padding leaves over are zero.

* `encode`, `decode`;
* **`decode_encode`**: bytes are read as they were written.
-/

set_option autoImplicit false

namespace McpgSdk

namespace Base64

/-- The character of six bits. -/
def digit (n : ℕ) : Char :=
  if n < 26 then Char.ofNat (n + 65)
  else if n < 52 then Char.ofNat (n - 26 + 97)
  else if n < 62 then Char.ofNat (n - 52 + 48)
  else if n = 62 then '+' else '/'

/-- The six bits of a character. -/
def value? (c : Char) : Option ℕ :=
  if 65 ≤ c.toNat ∧ c.toNat ≤ 90 then some (c.toNat - 65)
  else if 97 ≤ c.toNat ∧ c.toNat ≤ 122 then some (c.toNat - 97 + 26)
  else if 48 ≤ c.toNat ∧ c.toNat ≤ 57 then some (c.toNat - 48 + 52)
  else if c = '+' then some 62
  else if c = '/' then some 63
  else none

/-- Three bytes are four characters; the last quantum is padded. -/
def encode : List UInt8 → List Char
  | [] => []
  | [a] => [digit (a.toNat / 4), digit (a.toNat % 4 * 16), '=', '=']
  | [a, b] =>
    [digit (a.toNat / 4), digit (a.toNat % 4 * 16 + b.toNat / 16), digit (b.toNat % 16 * 4), '=']
  | a :: b :: c :: rest =>
    digit (a.toNat / 4) :: digit (a.toNat % 4 * 16 + b.toNat / 16) ::
      digit (b.toNat % 16 * 4 + c.toNat / 64) :: digit (c.toNat % 64) :: encode rest

/-- The byte of two characters before two paddings. -/
def oneByte (p q : Char) : Option (List UInt8) := do
  let x ← value? p
  let y ← value? q
  if y % 16 = 0 then some [UInt8.ofNat (x * 4 + y / 16)] else none

/-- The bytes of three characters before a padding. -/
def twoBytes (p q r : Char) : Option (List UInt8) := do
  let x ← value? p
  let y ← value? q
  let z ← value? r
  if z % 4 = 0 then some [UInt8.ofNat (x * 4 + y / 16), UInt8.ofNat (y % 16 * 16 + z / 4)] else none

/-- The bytes of four characters. -/
def threeBytes (p q r s : Char) : Option (List UInt8) := do
  let x ← value? p
  let y ← value? q
  let z ← value? r
  let w ← value? s
  some [UInt8.ofNat (x * 4 + y / 16), UInt8.ofNat (y % 16 * 16 + z / 4), UInt8.ofNat (z % 4 * 64 + w)]

/-- The bytes of a text; none when no bytes are encoded so. -/
def decode : List Char → Option (List UInt8)
  | [] => some []
  | p :: q :: r :: s :: rest =>
    if s = '=' ∧ rest = [] then if r = '=' then oneByte p q else twoBytes p q r
    else do
      let bytes ← threeBytes p q r s
      let more ← decode rest
      some (bytes ++ more)
  | _ => none

theorem value?_digit {n : ℕ} (h : n < 64) : value? (digit n) = some n := by
  have hall : ∀ m : Fin 64, value? (digit m) = some m.val := by decide +kernel
  exact hall ⟨n, h⟩

theorem digit_ne_padding {n : ℕ} (h : n < 64) : digit n ≠ '=' := by
  have hall : ∀ m : Fin 64, digit m ≠ '=' := by decide +kernel
  exact hall ⟨n, h⟩

theorem ofNat_eq {a : UInt8} {n : ℕ} (h : n = a.toNat) : UInt8.ofNat n = a := by
  rw [h, UInt8.ofNat_toNat]

theorem oneByte_digits (a : UInt8) :
    oneByte (digit (a.toNat / 4)) (digit (a.toNat % 4 * 16)) = some [a] := by
  have ha := a.toNat_lt
  have hbyte : UInt8.ofNat (a.toNat / 4 * 4 + a.toNat % 4 * 16 / 16) = a := ofNat_eq (by omega)
  simp only [oneByte, value?_digit (show a.toNat / 4 < 64 by omega),
    value?_digit (show a.toNat % 4 * 16 < 64 by omega)]
  exact (if_pos (by omega)).trans (by rw [hbyte])

theorem twoBytes_digits (a b : UInt8) :
    twoBytes (digit (a.toNat / 4)) (digit (a.toNat % 4 * 16 + b.toNat / 16))
      (digit (b.toNat % 16 * 4)) = some [a, b] := by
  have ha := a.toNat_lt
  have hb := b.toNat_lt
  have hfirst : UInt8.ofNat (a.toNat / 4 * 4 + (a.toNat % 4 * 16 + b.toNat / 16) / 16) = a :=
    ofNat_eq (by omega)
  have hsecond : UInt8.ofNat ((a.toNat % 4 * 16 + b.toNat / 16) % 16 * 16 + b.toNat % 16 * 4 / 4) = b :=
    ofNat_eq (by omega)
  simp only [twoBytes, value?_digit (show a.toNat / 4 < 64 by omega),
    value?_digit (show a.toNat % 4 * 16 + b.toNat / 16 < 64 by omega),
    value?_digit (show b.toNat % 16 * 4 < 64 by omega)]
  exact (if_pos (by omega)).trans (by rw [hfirst, hsecond])

theorem threeBytes_digits (a b c : UInt8) :
    threeBytes (digit (a.toNat / 4)) (digit (a.toNat % 4 * 16 + b.toNat / 16))
      (digit (b.toNat % 16 * 4 + c.toNat / 64)) (digit (c.toNat % 64)) = some [a, b, c] := by
  have ha := a.toNat_lt
  have hb := b.toNat_lt
  have hc := c.toNat_lt
  have hfirst : UInt8.ofNat (a.toNat / 4 * 4 + (a.toNat % 4 * 16 + b.toNat / 16) / 16) = a :=
    ofNat_eq (by omega)
  have hsecond : UInt8.ofNat ((a.toNat % 4 * 16 + b.toNat / 16) % 16 * 16 +
      (b.toNat % 16 * 4 + c.toNat / 64) / 4) = b := ofNat_eq (by omega)
  have hthird : UInt8.ofNat ((b.toNat % 16 * 4 + c.toNat / 64) % 4 * 64 + c.toNat % 64) = c :=
    ofNat_eq (by omega)
  simp only [threeBytes, value?_digit (show a.toNat / 4 < 64 by omega),
    value?_digit (show a.toNat % 4 * 16 + b.toNat / 16 < 64 by omega),
    value?_digit (show b.toNat % 16 * 4 + c.toNat / 64 < 64 by omega),
    value?_digit (show c.toNat % 64 < 64 by omega)]
  show some _ = _
  rw [hfirst, hsecond, hthird]

/-- **Bytes are read as they were written.** By induction over the quantums. -/
theorem decode_encode (bytes : List UInt8) : decode (encode bytes) = some bytes := by
  induction bytes using encode.induct with
  | case1 => rfl
  | case2 a =>
    simp only [encode, decode, and_self, if_true]
    exact oneByte_digits a
  | case3 a b =>
    have hpad : digit (b.toNat % 16 * 4) ≠ '=' := by
      have hb := b.toNat_lt
      exact digit_ne_padding (by omega)
    simp only [encode, decode, and_self, if_true, hpad, if_false]
    exact twoBytes_digits a b
  | case4 a b c rest ih =>
    have hpad : digit (c.toNat % 64) ≠ '=' := digit_ne_padding (by omega)
    simp only [encode, decode, hpad, false_and, if_false, threeBytes_digits, ih]
    rfl

end Base64

end McpgSdk
