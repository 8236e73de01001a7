/-
# The parser

`Parser` with its state, over any handler. A label of `parseImpl` that is jumped
to from below it is a program point (`Label`); `scope_end` and the switch on the
first byte of a value, which lead from one to another, are functions. `step` is
one passage from a program point to the next, `parseImpl` a run of it, and
`Parse` adds the check of trailing characters.
-/
import SonicJson.Lib.Machine
import SonicJson.Node
import SonicJson.ParseString
import SonicJson.SkipOne

namespace SonicJson

open Cursor

/-- What a parser is built with: the vector width, the conversions, the flags and the handler. -/
structure Env (σ : Type*) where
  A : Arch
  F : FloatConv
  parseFlags : ParseFlags
  H : SAX σ

/-- The state of a parser, with the locals `depth` (its back first) and `c` of `parseImpl` and the
handler. -/
structure Parser (σ : Type*) where
  json_buf_ : Bytes
  len_ : ℕ
  pos_ : ℕ
  err_ : SonicError
  scan : SpaceBits
  depth : List ℕ
  c : UInt8
  sax : σ

/-- The labels of `parseImpl` that are jumped to. -/
inductive Label
  | obj_key
  | obj_cont
  | arr_val
  | arr_cont
  | doc_end
  deriving DecidableEq

/-- The bit of a counter in `depth` that marks an array. -/
def kArrMask : ℕ := 2 ^ 31

/-- An object has no mark. -/
def kObjMask : ℕ := 0

namespace Parser

variable {σ : Type*} (E : Env σ) (p : Parser σ)

/-- Reads the next byte that is no space into `c`. -/
def SkipSpace : Parser σ :=
  let r := skip_space p.json_buf_ p.pos_ p.scan
  { p with c := r.1, pos_ := r.2.1, scan := r.2.2 }

/-- A call of the handler. -/
def call (f : σ → Bool × σ) : Bool × Parser σ := ((f p.sax).1, { p with sax := (f p.sax).2 })

/-- `setParseError`: whatever error there was is overwritten. -/
def setParseError (err : SonicError) : Parser σ := { p with err_ := err }

/-- `if (err_ == kErrorNone) err_ = err`. -/
def setFirstError (err : SonicError) : Parser σ :=
  { p with err_ := if p.err_ = .kErrorNone then err else p.err_ }

/-- `goto err_invalid_char`. -/
def err_invalid_char : Label × Parser σ := (.doc_end, p.setFirstError .kParseErrorInvalidChar)

/-- `sonic_check_err()`: goes on with `k` if there is no error. -/
def sonic_check_err (k : Parser σ → Label × Parser σ) : Label × Parser σ :=
  if p.err_ ≠ .kErrorNone then p.err_invalid_char else k p

/-- `sonic_sax_check(r)`: goes on with `k` if the handler has answered `true`. -/
def sonic_sax_check (r : Bool × Parser σ) (k : Parser σ → Label × Parser σ) : Label × Parser σ :=
  if r.1 then k r.2 else (.doc_end, r.2.setFirstError .kSaxTermination)

/-- The four bytes from the first letter on. -/
def parseNull : Bool × Parser σ :=
  if EqBytes4 p.json_buf_ (p.pos_ - 1) kNull
    then call { p with pos_ := p.pos_ + 3 } (E.H.primitive .Null)
  else (false, p.setParseError .kParseErrorInvalidChar)

/-- The four bytes behind the first letter. -/
def parseFalse : Bool × Parser σ :=
  if EqBytes4 p.json_buf_ p.pos_ (kFalse.drop 1) then
    call { p with pos_ := p.pos_ + 4 } (E.H.primitive (.Bool false))
  else (false, p.setParseError .kParseErrorInvalidChar)

/-- The four bytes from the first letter on. -/
def parseTrue : Bool × Parser σ :=
  if EqBytes4 p.json_buf_ (p.pos_ - 1) kTrue
    then call { p with pos_ := p.pos_ + 3 } (E.H.primitive (.Bool true))
  else (false, p.setParseError .kParseErrorInvalidChar)

/-- The string and the parser after it. -/
def parseStringHelper : Bytes × Parser σ :=
  let r := parseStringInplace E.A E.parseFlags.kParseAllowUnescapedControlChars p.json_buf_ p.pos_
  ((r.buf.drop p.pos_).take r.n, { p with pos_ := r.src, json_buf_ := r.buf, err_ := r.err })

/-- A string, given to the handler as a value or as a key. -/
def parseStr (event : Bytes → σ → Bool × σ) : Bool × Parser σ :=
  let (sv, p) := p.parseStringHelper E
  if p.err_ ≠ .kErrorNone then (true, p) else p.call (event sv)

/-- A string that is a value. -/
def parseStrInPlace : Bool × Parser σ := p.parseStr E fun sv => E.H.primitive (.String sv)

/-- A string that is a key. -/
def parseKeyInPlace : Bool × Parser σ := p.parseStr E E.H.Key

/-- `parseNumber` of the parser: the scan, and what the handler answers to it. -/
def parseNumber : Parser σ :=
  let r := SonicJson.parseNumber E.F E.parseFlags p.json_buf_ p.len_ p.pos_
  match r.ev with
  | none => { p with pos_ := r.i, err_ := r.err }
  | some e =>
    let a := E.H.primitive e p.sax
    { p with pos_ := r.i, sax := a.2, err_ := if a.1 then r.err else .kSaxTermination }

/-- A document that is no container. -/
def parsePrimitives : Parser σ :=
  let ended (r : Bool × Parser σ) := if !r.1 then r.2.setFirstError .kSaxTermination else r.2
  if is_digit p.c || p.c == Ch.minus then p.parseNumber E
  else if p.c = Ch.quote then
    let r := p.parseStrInPlace E
    if r.2.len_ < r.2.pos_ then r.2.setParseError .kParseErrorInvalidChar else ended r
  else if p.c = Ch.f then ended (p.parseFalse E)
  else if p.c = Ch.t then ended (p.parseTrue E)
  else if p.c = Ch.n then ended (p.parseNull E)
  else p.setParseError .kParseErrorInvalidChar

/-- The stack of counters, put in place of the old one. -/
def setDepth (depth : List ℕ) : Parser σ := { p with depth := depth }

/-- `depth.back()`. -/
def back : ℕ := p.depth.headD 0

/-- `depth.back()++`. -/
def count : Parser σ :=
  match p.depth with
  | [] => p
  | d :: ds => p.setDepth ((d + 1) % 2 ^ 32 :: ds)

/-- `scope_end`: behind a closing bracket. -/
def scope_end : Label × Parser σ :=
  p.sonic_check_err fun p =>
    let p := p.setDepth p.depth.tail
    if p.depth.isEmpty then (.doc_end, p)
    else
      let p := p.SkipSpace
      (if p.back &&& kArrMask ≠ 0 then .arr_cont else .obj_cont, p)

/-- An opening brace has been read. -/
def start_object : Label × Parser σ :=
  sonic_sax_check (p.call E.H.StartObject) fun p =>
    let p := (p.setDepth (kObjMask :: p.depth)).SkipSpace
    if p.c = Ch.rbrace then sonic_sax_check (p.call (E.H.EndObject 0)) scope_end else (.obj_key, p)

/-- An opening bracket has been read. -/
def start_array : Label × Parser σ :=
  sonic_sax_check (p.call E.H.StartArray) fun p =>
    let p := (p.setDepth (kArrMask :: p.depth)).SkipSpace
    if p.c = Ch.rbrack then sonic_sax_check (p.call (E.H.EndArray 0)) scope_end else (.arr_val, p)

/-- The switch on the first byte of a value inside a container; `cont` is the label after it. -/
def value (cont : Label) : Label × Parser σ :=
  let next (p : Parser σ) : Label × Parser σ := (cont, p.SkipSpace)
  let literal (r : Bool × Parser σ) : Label × Parser σ :=
    r.2.sonic_check_err fun p => if !r.1 then (.doc_end, p.setParseError .kSaxTermination) else next p
  if p.c = Ch.lbrace then p.start_object E
  else if p.c = Ch.lbrack then p.start_array E
  else if is_digit p.c || p.c == Ch.minus then (p.parseNumber E).sonic_check_err next
  else if p.c = Ch.t then literal (p.parseTrue E)
  else if p.c = Ch.f then literal (p.parseFalse E)
  else if p.c = Ch.n then literal (p.parseNull E)
  else if p.c = Ch.quote then sonic_sax_check (p.parseStrInPlace E) fun p => p.sonic_check_err next
  else p.err_invalid_char

/-- The handler has answered `false` to a key and says so to skip it. `SkipOne` returns a position
or a negative error code, of which only 0 is taken for a failure. -/
def skip_key : Label × Parser σ :=
  let (start, pos, k) := SkipOne E.A p.json_buf_ p.pos_ p.len_ p.scan
  let p := { p with pos_ := pos, scan := k }
  if start = .ok 0 then p.err_invalid_char
  else
    let (c, pos) := GetNextToken E.A p.json_buf_ p.pos_ p.len_ [Ch.quote, Ch.rbrace]
    let p := { p with c := c, pos_ := pos }
    if p.c = Ch.quote then (.obj_key, { p with pos_ := p.pos_ + 1 })
    else if p.c = Ch.rbrace then
      sonic_sax_check (call { p with pos_ := p.pos_ + 1 } (E.H.EndObject p.back)) scope_end
    else p.err_invalid_char

/-- `obj_key`: a key, its colon and the value behind it. -/
def obj_key : Label × Parser σ :=
  if p.c ≠ Ch.quote then p.err_invalid_char
  else
    let key := p.parseKeyInPlace E
    let found := key.1
    key.2.sonic_check_err fun p =>
      let p := p.SkipSpace
      if p.c ≠ Ch.colon then p.err_invalid_char
      else if !found then
        if E.H.check_key_return then p.skip_key E else (.doc_end, p.setFirstError .kSaxTermination)
      else p.SkipSpace.value E .obj_cont

/-- `obj_cont`: a comma or the closing brace. -/
def obj_cont : Label × Parser σ :=
  let p := p.count
  if p.c = Ch.comma then (.obj_key, p.SkipSpace)
  else if p.c ≠ Ch.rbrace then p.err_invalid_char
  else sonic_sax_check (p.call (E.H.EndObject p.back)) scope_end

/-- `arr_cont`: a comma or the closing bracket. The handler gets the counter without the mark. -/
def arr_cont : Label × Parser σ :=
  let p := p.count
  if p.c = Ch.comma then (.arr_val, p.SkipSpace)
  else if p.c = Ch.rbrack
    then sonic_sax_check (p.call (E.H.EndArray (p.back &&& (kArrMask - 1)))) scope_end
  else p.err_invalid_char

/-- From a label to the next one. -/
def step : Label × Parser σ → Option (Label × Parser σ)
  | (.obj_key, p) => some (p.obj_key E)
  | (.obj_cont, p) => some (p.obj_cont E)
  | (.arr_val, p) => some (p.value E .arr_cont)
  | (.arr_cont, p) => some (p.arr_cont E)
  | (.doc_end, _) => none

/-- From the beginning of `parseImpl` to the first label. -/
def start : Label × Parser σ :=
  let p := p.SkipSpace
  if p.c = Ch.lbrack then p.start_array E
  else if p.c = Ch.lbrace then p.start_object E
  else (.doc_end, p.parsePrimitives E)

/-- `none` if the steps are not enough, which they are (`parseImpl_isSome`). -/
def parseImpl : Option (Parser σ) :=
  (Machine.run (step E) (p.json_buf_.length + 3) (p.start E)).map Prod.snd

/-- Whether another byte than a space is left, and the position after the loop. -/
def hasTrailingChars : Bool × ℕ :=
  let spaces := (slice p.json_buf_ p.pos_ p.len_).takeWhile IsSpace
  (decide (p.pos_ + spaces.length < p.len_), p.pos_ + spaces.length)

/-- A parser that is reset on a buffer. -/
def reset (data : Bytes) (len : ℕ) (sax : σ) : Parser σ :=
  ⟨data, len, 0, .kErrorNone, .init, [], 0, sax⟩

/-- `Parse` once the members are set: `parseImpl` and the check of what follows the value. -/
def parseAll : Option (Parser σ) :=
  (p.parseImpl E).map fun p =>
    if p.err_ = .kErrorNone then
      let (trailing, pos) := p.hasTrailingChars
      { p with pos_ := pos, err_ := if trailing then .kParseErrorInvalidChar else .kErrorNone }
    else p

/-- `Parse` of the text of length `len` in the buffer `data`, with a new parser. -/
def Parse (data : Bytes) (len : ℕ) (sax : σ) : Option (Parser σ) := (reset data len sax).parseAll E

end Parser

end SonicJson
