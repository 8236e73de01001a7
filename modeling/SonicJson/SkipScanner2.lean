/-
# The scanner of paths and tuples

`SkipScanner2` keeps its position, its error and a buffer for keys between its steps. It
is a program that calls `skip_space_safe` (`SpaceCall`), so that the calls of a run can be
spoken of. On it stand `JsonTupleWithCodeGen`, which takes the values of some keys out of
an object, and `GetByJsonPathOnDemand`, which follows a path with wildcards. Both write
with `JsonGenerator`: the text of a value is parsed, and printed from its tree.
-/
import SonicJson.Lib.Prog
import SonicJson.JsonGenerator
import SonicJson.OnDemand

namespace SonicJson

open Prog

/-- The functions that come to a call of `skip_space_safe`. -/
inductive Caller
  | peek
  | advance
  | consume
  | getOne
  | skipOne
  | getOnDemand
  | parseLazy
  deriving DecidableEq

/-- A call of `skip_space_safe`: who calls, the position and what is remembered; after it, also what
is returned. -/
structure SpaceCall where
  caller : Caller
  c : UInt8
  pos : ℕ
  bits : SpaceBits

/-- The call is made. -/
def SpaceCall.skip (data : Bytes) (len : ℕ) (q : SpaceCall) : SpaceCall :=
  let (c, pos, bits) := skip_space_safe data q.pos len q.bits
  ⟨q.caller, c, pos, bits⟩

/-- The members of the scanner. -/
structure SkipScanner2 where
  scanner_ : SpaceBits
  pos_ : ℕ
  error_ : SonicError
  kbuf_ : Bytes
  isFieldName : Bool

/-- A new scanner. -/
def SkipScanner2.init : SkipScanner2 := ⟨.init, 0, .kErrorNone, [], false⟩

/-- A program over the scanner that may call `skip_space_safe`. -/
abbrev Scanning (α : Type) := Prog SpaceCall SkipScanner2 α

namespace SkipScanner2

variable (A : Arch) (data : Bytes) (len : ℕ)

/-- Whatever error there was is overwritten. -/
def setError (err : SonicError) : Scanning Unit := modify fun st => { st with error_ := err }

/-- Whether an error is set. -/
def hasError : Scanning Bool := do
  let st ← Prog.get
  pure (st.error_ != .kErrorNone)

/-- The next string is the name of a field. -/
def setIsFieldName : Scanning Unit := modify fun st => { st with isFieldName := true }

/-- Whether a field name was announced, which is forgotten. -/
def getAndClearIsFieldName : Scanning Bool := do
  let st ← Prog.get
  modify fun st => { st with isFieldName := false }
  pure st.isFieldName

/-- `RETURN_FALSE_IF_PARSE_ERROR(x)` in a function that goes on with `k`; `r` is what it returns for
`false`. -/
def returnIfParseError {α β : Type} (r : α) (x : Scanning β) (k : Scanning α) : Scanning α := do
  let _ ← x
  let err ← hasError
  if err then pure r else k

/-- The next byte that is no space, and the position behind it. -/
def SkipSpaceSafe (caller : Caller) : Scanning UInt8 :=
  call (fun st => ⟨caller, 0, st.pos_, st.scanner_⟩) fun q st => (q.c,
    { st with pos_ := q.pos, scanner_ := q.bits })

/-- Skips one value: where it begins, or `none` for the negative error. -/
def SkipOne (caller : Caller) : Scanning (Option ℕ) := do
  let c ← SkipSpaceSafe caller
  let st ← Prog.get
  let start := st.pos_ - 1
  let (ok, pos) := skipValue A data st.pos_ len c
  modify fun st => { st with pos_ := pos }
  pure (if ok then some start else none)

/-- The text of one value. -/
def getOne : Scanning Bytes := do
  match ← SkipOne A data len .getOne with
  | none => do
    setError .kParseErrorInvalidChar
    pure []
  | some start => do
    let st ← Prog.get
    pure (slice data start st.pos_)

/-- One value is passed over. -/
def skipOne : Scanning Unit := do
  match ← SkipOne A data len .skipOne with
  | none => setError .kParseErrorInvalidChar
  | some _ => pure ()

/-- The next byte that is no space; the position stays before it. -/
def peek : Scanning UInt8 := do
  let st ← Prog.get
  if len ≤ st.pos_ then do
    setError .kParseErrorEof
    pure 0
  else do
    let c ← SkipSpaceSafe .peek
    let st ← Prog.get
    if len ≤ st.pos_ ∧ IsSpace c = true then do
      -- the end is reached while still seeing spaces
      setError .kParseErrorEof
      pure 0
    else do
      modify fun st => { st with pos_ := st.pos_ - 1 }
      pure c

/-- The next byte that is no space; the position is behind it. -/
def advance : Scanning UInt8 := SkipSpaceSafe .advance

/-- Passes over `c` if it comes next. -/
def skipIfPresent (c : UInt8) : Scanning Unit := do
  let st ← Prog.get
  if st.pos_ = len then setError .kParseErrorEof
  else do
    let got ← peek len
    if got = c then do
      let _ ← advance
      pure ()
    else pure ()

/-- Whether `c` comes next. -/
def consume (c : UInt8) : Scanning Bool := do
  let st ← Prog.get
  if len ≤ st.pos_ then do
    setError .kParseErrorEof
    pure false
  else do
    let got ← SkipSpaceSafe .consume
    if got ≠ c then do
      let st ← Prog.get
      setError (if len ≤ st.pos_ ∧ IsSpace got = true then .kParseErrorEof else .kParseErrorInvalidChar)
      pure false
    else pure true

/-- Reads the key at the position: `none` where `matchKey` and `matchKeys` return before they
compare. -/
def readKey : Scanning (Option Bytes) := do
  let st ← Prog.get
  let (name, err, s) := keyAt A data len st.error_ ⟨st.pos_, st.scanner_, st.kbuf_⟩
  modify fun st => { st with pos_ := s.pos, error_ := err, kbuf_ := s.kbuf }
  pure name

/-- Whether the key at the position is `key`. -/
def matchKey (key : Bytes) : Scanning Bool := do
  let name ← readKey A data len
  pure (name == some key)

/-- The index of the first of the keys that is the name, as an `int`. -/
def keyIndex (keys : List Bytes) (name : Bytes) : ℤ :=
  match keys.findIdx? (· == name) with
  | some i => toInt32 i
  | none => -1

/-- The index of the key at the position, -1 where it is none of `keys` or cannot be read. -/
def matchKeys (keys : List Bytes) : Scanning ℤ := do
  match ← readKey A data len with
  | none => pure (-1)
  | some name => pure (keyIndex keys name)

/-- A round of the loop of `advanceKey` and `advanceKeys`, with the byte `c` before a key: `match_`
reads the key, and answers what is returned if it is one that is looked for. `miss` is returned if
there is none, and `false_` is what `RETURN_FALSE_IF_PARSE_ERROR` returns. -/
def advanceBody {α : Type} (match_ : Scanning (Option α)) (miss false_ : α) (c : UInt8) :
    Scanning (UInt8 ⊕ α) :=
  if c = Ch.rbrace then do
    -- the closing brace is left to the caller
    modify fun st => { st with pos_ := st.pos_ - 1 }
    pure (.inr miss)
  else if c ≠ Ch.quote then do
    setError .kParseErrorInvalidChar
    pure (.inr miss)
  else do
    let matched ← match_
    let err ← hasError
    if err then pure (.inr miss)
    else do
      let ok ← consume len Ch.colon
      if !ok then do
        setError .kParseErrorInvalidChar
        pure (.inr miss)
      else
        match matched with
        | some r => pure (.inr r)
        | none =>
          returnIfParseError (.inr false_) (skipOne A data len) do
            let c ← advance
            if c = Ch.comma then do
              let c ← advance
              pure (.inl c)
            else if c ≠ Ch.rbrace then do
              setError .kParseErrorInvalidChar
              pure (.inl c)
            else pure (.inl c)

/-- Whether the key is there: the position is then before its value, else before the closing brace. -/
def advanceKey (fuel : ℕ) (key : Bytes) : Scanning Bool := do
  let c ← advance
  let match_ : Scanning (Option Bool) := do
    let matched ← matchKey A data len key
    pure (if matched then some true else none)
  loop (advanceBody A data len match_ false false) fuel c

/-- The index of the first member's key that is one of the keys; -1 if there is none, and 0 if a
value cannot be skipped. -/
def advanceKeys (fuel : ℕ) (keys : List Bytes) : Scanning ℤ := do
  let c ← advance
  let match_ : Scanning (Option ℤ) := do
    let matched ← matchKeys A data len keys
    pure (if matched ≠ -1 then some matched else none)
  loop (advanceBody A data len match_ (-1) 0) fuel c

end SkipScanner2

/-! ### Tuples -/

namespace SkipScanner2

variable (G : Gen) (data : Bytes) (len : ℕ)

/-- The locals of the loop of `jsonTupleWithCodeGenImpl`, with the buffer of the generator. -/
structure Tuple where
  todo : ℤ
  result : List (Option Bytes)
  wb : WriteBuffer

/-- A round of the loop: it goes on, or the function returns. -/
def tupleBody (fuel : ℕ) (keys : List Bytes) (t : Tuple) :
    Scanning (Tuple ⊕ Bool × List (Option Bytes)) := do
  let c ← peek len
  if c ≠ Ch.rbrace ∧ 0 < t.todo then do
    let keyMatchIndex ← advanceKeys G.A data len fuel keys
    let next (t : Tuple) : Scanning (Tuple ⊕ Bool × List (Option Bytes)) :=
      returnIfParseError (.inr (false, t.result)) (skipIfPresent len Ch.comma) (pure (.inl t))
    if keyMatchIndex ≠ -1 then do
      let t := { t with todo := t.todo - 1 }
      let c ← peek len
      let type := if c = Ch.quote then JsonValueType.STRING else .OTHER
      let c ← peek len
      if c = Ch.n then
        -- nothing is done for null
        returnIfParseError (.inr (false, t.result)) (skipOne G.A data len) (next t)
      else do
        let sv ← getOne G.A data len
        let err ← hasError
        if err then pure (.inr (false, t.result))
        else
          match JsonGenerator.copyCurrentStructureJsonTupleCodeGen G sv type t.wb with
          | none => do
            setError .kParseErrorUnexpect
            pure (.inr (false, t.result))
          | some (text, wb) =>
            next { t with result := t.result.set keyMatchIndex.toNat (some text), wb := wb }
    else next t
  else pure (.inr (true, t.result))

/-- The values found so far, and whether the whole object was read without an error. -/
def jsonTupleWithCodeGenImpl (fuel : ℕ) (keys : List Bytes) (result : List (Option Bytes)) :
    Scanning (Bool × List (Option Bytes)) :=
  returnIfParseError (false, result) (consume len Ch.lbrace)
    (loop (tupleBody G data len fuel keys) fuel ⟨toInt32 keys.length, result, .init⟩)

/-- After an error the values found so far are kept in the legacy mode only. -/
def jsonTupleWithCodeGen (fuel : ℕ) (keys : List Bytes) (legacy : Bool) :
    Scanning (List (Option Bytes)) := do
  let (success, result) ← jsonTupleWithCodeGenImpl G data len fuel keys
    (List.replicate keys.length none)
  if !success && !legacy then pure (List.replicate keys.length none) else pure result

end SkipScanner2

/-- The texts of the values of the keys; `none` where the loops run longer than `fuel`. -/
def JsonTupleWithCodeGen (G : Gen) (fuel : ℕ) (json : Bytes) (keys : List Bytes) (legacy : Bool) :
    Option (List (Option Bytes)) :=
  ((SkipScanner2.jsonTupleWithCodeGen G json json.length fuel keys legacy).exec
    (SpaceCall.skip json json.length)
    .init).map Prod.fst

end SonicJson
