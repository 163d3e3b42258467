import Mathlib.Algebra.Ring.Nat
import Mathlib.Data.Int.Notation
import Mathlib.Data.List.Basic

/-!
# JSON values

The values `serde_json` works with, as a tree. Objects are lists of fields in key order, the order
of the ordered map behind a `serde_json` object.

* `Json.get?`, `Json.asU64`, `Json.asStr`: reading a value;
* `Json.set`, `Json.orInsert`: writing a field of an object, with or without replacing it;
* `strBytes`: the length of the compact text of a string, escapes included.
-/

set_option autoImplicit false

namespace McpgSdk

/-- A JSON number: an unsigned integer, a negative integer, or a float kept as its text. -/
inductive Number
  | posInt (n : ℕ)
  | negInt (n : ℤ)
  | float (text : String)
  deriving DecidableEq, Repr

/-- A JSON value. -/
inductive Json
  | null
  | bool (b : Bool)
  | num (n : Number)
  | str (s : String)
  | arr (items : List Json)
  | obj (fields : List (String × Json))
  deriving Repr

/-- The fields of an object. -/
abbrev Fields := List (String × Json)

namespace Json

/-- The field `name` of an object; nothing for any other value. -/
def get? (name : String) : Json → Option Json
  | obj fields => fields.lookup name
  | _ => none

/-- The value as an unsigned integer. -/
def asU64 : Json → Option ℕ
  | num (.posInt n) => some n
  | _ => none

/-- The value as a string. -/
def asStr : Json → Option String
  | str s => some s
  | _ => none

/-- Put `value` in the field `name`, in key order, replacing what is there. -/
def set (name : String) (value : Json) : Fields → Fields
  | [] => [(name, value)]
  | (n, v) :: rest =>
    if name = n then (name, value) :: rest
    else if name < n then (name, value) :: (n, v) :: rest
    else (n, v) :: set name value rest

/-- Put `value` in the field `name` only when there is none. -/
def orInsert (name : String) (value : Json) (fields : Fields) : Fields :=
  if (fields.lookup name).isSome then fields else set name value fields

@[simp] theorem get?_obj (name : String) (fields : Fields) :
    (obj fields).get? name = fields.lookup name := rfl

@[simp] theorem asU64_posInt (n : ℕ) : (num (.posInt n)).asU64 = some n := rfl

theorem lookup_cons_ite (name other : String) (value : Json) (rest : Fields) :
    List.lookup other ((name, value) :: rest) =
      if other = name then some value else rest.lookup other := by
  rw [List.lookup_cons]
  by_cases h : other = name
  · simp [h]
  · simp [h, beq_false_of_ne h]

theorem lookup_set (name other : String) (value : Json) (fields : Fields) :
    (set name value fields).lookup other =
      if other = name then some value else fields.lookup other := by
  induction fields with
  | nil => exact lookup_cons_ite name other value []
  | cons f rest ih =>
    obtain ⟨n, v⟩ := f
    simp only [set]
    split_ifs with h1 <;> simp only [lookup_cons_ite, ih] <;> split_ifs <;> simp_all

theorem lookup_orInsert (name other : String) (value : Json) (fields : Fields) :
    (orInsert name value fields).lookup other =
      if other = name ∧ fields.lookup name = none then some value else fields.lookup other := by
  unfold orInsert
  cases h : fields.lookup name with
  | some v => simp
  | none => simp [lookup_set]

theorem lookup_foldl_orInsert (extra fields : Fields) (name : String) :
    (extra.foldl (fun d fv => orInsert fv.1 fv.2 d) fields).lookup name =
      (fields.lookup name).or (extra.lookup name) := by
  induction extra generalizing fields with
  | nil => exact (Option.or_none).symm
  | cons fv extra ih =>
    rw [List.foldl_cons, ih, lookup_orInsert, lookup_cons_ite]
    by_cases hn : name = fv.1
    · subst hn
      cases fields.lookup fv.1 <;> simp
    · simp [hn]

end Json

/-- Bytes a character takes inside a JSON string: the short escapes take two, another control
character six, and any other its UTF-8 length. -/
def charBytes (c : Char) : ℕ :=
  if c = '"' ∨ c = '\\' then 2
  else if c.toNat = 8 ∨ c.toNat = 9 ∨ c.toNat = 10 ∨ c.toNat = 12 ∨ c.toNat = 13 then 2
  else if c.toNat < 32 then 6
  else c.utf8Size

/-- Bytes of the text of a JSON string, its quotes included. -/
def strBytes (s : String) : ℕ := 2 + (s.toList.map charBytes).sum

end McpgSdk
