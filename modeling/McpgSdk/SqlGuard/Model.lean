import Mathlib.Data.List.DropRight
import McpgSdk.Lib.Utf8
import McpgSdk.Protocol

/-!
# The read-only guard

A binding that declares `read_only` has its statement checked by a scanner that works on the bytes
of the text. It drops comments, blanks quoted regions, and takes every other byte for the character
of its number; the checks then run on the characters that are left.

* `skipLine`, `skipBlock`, `skipQuoted`: the inner loops of the scanner, on the bytes still ahead;
* `sqlSkeleton`: the scanner;
* `enforceReadOnly`: the guard, with its messages.
-/

set_option autoImplicit false

namespace McpgSdk

namespace SqlGuard

open Utf8

/-- `READ_ONLY_LEADERS`. -/
def readOnlyLeaders : List String := ["SELECT", "WITH", "SHOW", "DESCRIBE", "DESC", "EXPLAIN"]

/-- `WRITE_KEYWORDS`. -/
def writeKeywords : List String :=
  ["INSERT", "UPDATE", "DELETE", "MERGE", "UPSERT", "REPLACE", "TRUNCATE", "CREATE", "DROP",
    "ALTER", "RENAME", "GRANT", "REVOKE", "COMMENT", "INTO", "CALL", "EXEC", "EXECUTE", "COPY",
    "LOAD", "UNLOAD", "PUT", "REMOVE", "ATTACH", "DETACH", "INSTALL", "PRAGMA", "VACUUM",
    "ANALYZE", "OPTIMIZE"]

/-- `is_ident_char`. -/
def isIdentChar (c : Char) : Bool := c.isAlphanum || c == '_' || c == '$' || c == '#'

/-- `char::is_whitespace`: the characters with the property `White_Space`. -/
def isWhitespace (c : Char) : Bool :=
  let n := c.toNat
  (9 ≤ n && n ≤ 13) || n == 0x20 || n == 0x85 || n == 0xA0 || n == 0x1680 ||
    (0x2000 ≤ n && n ≤ 0x200A) || n == 0x2028 || n == 0x2029 || n == 0x202F || n == 0x205F ||
    n == 0x3000

/-- `str::trim`. -/
def trim (cs : List Char) : List Char := (cs.dropWhile isWhitespace).rdropWhile isWhitespace

/-- `to_ascii_uppercase` of a token. -/
def toAsciiUppercase (token : List Char) : String := String.ofList (token.map Char.toUpper)

/-! ## The skeleton -/

/-- The characters that open a quoted region: `'`, `"` and the backtick. -/
def quotes : List Char := [Char.ofNat 0x27, Char.ofNat 0x22, Char.ofNat 0x60]

/-- Skip a line comment, up to its newline. -/
def skipLine : List UInt8 → List UInt8
  | [] => []
  | b :: rest => if b = byte '\n' then b :: rest else skipLine rest

/-- Skip a block comment and its end. One that is not closed takes all. -/
def skipBlock : List UInt8 → List UInt8
  | [] => []
  | [_] => []
  | b :: next :: rest =>
    if b = byte '*' ∧ next = byte '/' then rest else skipBlock (next :: rest)

/-- Skip a quoted region and the quote that ends it; a doubled quote does not. -/
def skipQuoted (quote : UInt8) : List UInt8 → List UInt8
  | [] => []
  | [_] => []
  | b :: next :: rest =>
    if b = quote then if next = quote then skipQuoted quote rest else next :: rest
    else skipQuoted quote (next :: rest)

theorem length_skipLine_le (bs : List UInt8) : (skipLine bs).length ≤ bs.length := by
  induction bs with
  | nil => exact le_rfl
  | cons b rest ih =>
    unfold skipLine
    split_ifs
    · exact le_rfl
    · exact ih.trans (Nat.le_succ _)

theorem length_skipBlock_le (bs : List UInt8) : (skipBlock bs).length ≤ bs.length := by
  fun_induction skipBlock bs with
  | case1 => exact le_rfl
  | case2 => exact Nat.zero_le _
  | case3 b next rest h => exact (Nat.le_succ _).trans (Nat.le_succ _)
  | case4 b next rest h ih => exact ih.trans (Nat.le_succ _)

theorem length_skipQuoted_le (quote : UInt8) (bs : List UInt8) :
    (skipQuoted quote bs).length ≤ bs.length := by
  fun_induction skipQuoted quote bs with
  | case1 => exact le_rfl
  | case2 => exact Nat.zero_le _
  | case3 rest ih => exact ih.trans ((Nat.le_succ _).trans (Nat.le_succ _))
  | case4 next rest hn => exact Nat.le_succ _
  | case5 b next rest h ih => exact ih.trans (Nat.le_succ _)

/-- `sql_skeleton`, on the bytes of a statement. A line comment leaves nothing, a block comment or a
quoted region one space. -/
def sqlSkeleton : List UInt8 → List Char
  | [] => []
  | b :: rest =>
    if latin1 b = '-' ∧ rest.head? = some (byte '-') then sqlSkeleton (skipLine rest.tail)
    else if latin1 b = '/' ∧ rest.head? = some (byte '*') then
      ' ' :: sqlSkeleton (skipBlock rest.tail)
    else if latin1 b ∈ quotes then ' ' :: sqlSkeleton (skipQuoted b rest)
    else latin1 b :: sqlSkeleton rest
termination_by bs => bs.length
decreasing_by
  · have := length_skipLine_le rest.tail
    simp only [List.length_tail, List.length_cons] at *
    omega
  · have := length_skipBlock_le rest.tail
    simp only [List.length_tail, List.length_cons] at *
    omega
  · have := length_skipQuoted_le b rest
    simp only [List.length_cons]
    omega
  · exact Nat.lt_succ_self _

/-! ## The guard -/

/-- The pieces of a text between characters that are no part of a word. -/
def tokens (cs : List Char) : List (List Char) := cs.splitOnP fun c => !isIdentChar c

/-- More SQL after a `;`. -/
def multipleStatements (trimmed : List Char) : Bool :=
  match trimmed.findIdx? (· == ';') with
  | some idx => !(trim (trimmed.drop (idx + 1))).isEmpty
  | none => false

/-- `enforce_read_only`. -/
def enforceReadOnly (statement : String) : Except String Unit :=
  let trimmed := trim (sqlSkeleton (bytes statement))
  if trimmed.isEmpty then .error "read-only guard: empty statement"
  else if multipleStatements trimmed then
    .error ("read-only guard: multiple statements are not allowed under read_only " ++
      "(set read_only=false to allow writes)")
  else
    let first := ((tokens trimmed).find? fun t => !t.isEmpty).getD []
    if toAsciiUppercase first ∉ readOnlyLeaders then
      .error ("read-only guard: statement starts with `" ++ String.ofList first ++
        "`, not a read-only keyword (SELECT/WITH/SHOW/DESCRIBE/EXPLAIN); " ++
        "set read_only=false to allow writes")
    else
      match (tokens trimmed).find? fun t => !t.isEmpty && toAsciiUppercase t ∈ writeKeywords with
      | some token =>
        .error ("read-only guard: statement contains the write keyword `" ++
          toAsciiUppercase token ++ "` (e.g. a data-modifying CTE or EXPLAIN ANALYZE); " ++
          "set read_only=false to allow writes")
      | none => .ok ()

end SqlGuard

end McpgSdk
