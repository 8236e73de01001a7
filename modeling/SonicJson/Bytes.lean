/-
# Bytes

The texts and buffers of the library are lists of bytes, read by index
(`rd`). The characters of JSON are named in `Ch`, and `IsSpace` and `is_digit`
are the source's tests.
-/
import SonicJson.Lib.Cursor

namespace SonicJson

abbrev Bytes := List UInt8

/-- The byte at index `i`; 0 outside the buffer. -/
def rd (data : Bytes) (i : ℕ) : UInt8 := data.getD i 0

/-- The slice of `s` from `start` to `i`. -/
def slice (s : Bytes) (start i : ℕ) : Bytes := (s.drop start).take (i - start)

namespace Ch

abbrev tab : UInt8 := 9
abbrev lf : UInt8 := 10
abbrev cr : UInt8 := 13
abbrev space : UInt8 := 32
abbrev quote : UInt8 := 34
abbrev apos : UInt8 := 39
abbrev star : UInt8 := 42
abbrev plus : UInt8 := 43
abbrev comma : UInt8 := 44
abbrev minus : UInt8 := 45
abbrev dot : UInt8 := 46
abbrev slash : UInt8 := 47
abbrev zero : UInt8 := 48
abbrev nine : UInt8 := 57
abbrev colon : UInt8 := 58
abbrev upE : UInt8 := 69
abbrev lbrack : UInt8 := 91
abbrev bslash : UInt8 := 92
abbrev rbrack : UInt8 := 93
abbrev a : UInt8 := 97
abbrev e : UInt8 := 101
abbrev f : UInt8 := 102
abbrev l : UInt8 := 108
abbrev n : UInt8 := 110
abbrev r : UInt8 := 114
abbrev s : UInt8 := 115
abbrev t : UInt8 := 116
abbrev u : UInt8 := 117
abbrev x : UInt8 := 120
abbrev lbrace : UInt8 := 123
abbrev rbrace : UInt8 := 125

end Ch

def IsSpace (ch : UInt8) : Bool := ch == Ch.space || ch == Ch.cr || ch == Ch.lf || ch == Ch.tab

def is_digit (c : UInt8) : Bool := decide (Ch.zero ≤ c) && decide (c ≤ Ch.nine)

/-- `SonicError`, the codes in the order of the source. -/
inductive SonicError
  | kErrorNone
  | kParseErrorEof
  | kParseErrorInvalidChar
  | kParseErrorInfinity
  | kParseErrorUnEscaped
  | kParseErrorEscapedFormat
  | kParseErrorEscapedUnicode
  | kParseErrorInvalidUTF8
  | kParseErrorUnknownObjKey
  | kParseErrorArrIndexOutOfRange
  | kParseErrorMismatchType
  | kSerErrorUnsupportedType
  | kSerErrorInfinity
  | kSerErrorInvalidObjKey
  | kErrorNoMem
  | kParseErrorUnexpect
  | kSaxTermination
  | kUnsupportedJsonPath
  | kNotFoundByJsonPath
  | kUnmatchedTypeInJsonPath
  | kErrorNoneNoMatch
  deriving DecidableEq, Repr

open Cursor

section
variable {data t : Bytes} {p : ℕ} {b : UInt8}

theorem rd_at (h : At data p (b :: t)) : rd data p = b := h.getD 0

theorem rd_at_succ {c : UInt8} (h : At data p (b :: c :: t)) : rd data (p + 1) = c := rd_at h.succ

theorem rd_at_add (h : At data p t) (k : ℕ) : rd data (p + k) = rd t k := h.getD_add 0 k

@[simp] theorem rd_cons_zero : rd (b :: t) 0 = b := rfl

@[simp] theorem rd_cons_succ (k : ℕ) : rd (b :: t) (k + 1) = rd t k := by simp [rd]

@[simp] theorem rd_nil (k : ℕ) : rd [] k = 0 := by simp [rd]

theorem rd_append_left {a : Bytes} {k : ℕ} (h : k < a.length) : rd (a ++ t) k = rd a k := by
  simp [rd, List.getD_eq_getElem?_getD, List.getElem?_append_left h]

theorem rd_append_right (a : Bytes) (k : ℕ) : rd (a ++ t) (a.length + k) = rd t k := by
  simp [rd, List.getD_eq_getElem?_getD, List.getElem?_append_right (Nat.le_add_right a.length k)]

theorem rd_of_length_le (h : data.length ≤ p) : rd data p = 0 := by
  rw [rd, List.getD_eq_getElem?_getD, List.getElem?_eq_none h, Option.getD_none]

/-- An index inside the data reads its first byte from there. -/
theorem at_cons_rd (h : p < data.length) : At data p (rd data p :: data.drop (p + 1)) := by
  refine ⟨?_, h.le⟩
  rw [List.drop_eq_getElem_cons h]
  simp [rd, h]

end

end SonicJson
