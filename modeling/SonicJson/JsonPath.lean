/-
# Paths with wildcards

`getJsonPath` follows a path through a text and writes what it finds: a key enters an
object, an index or a wildcard an array. A wildcard in the raw style writes its results to
a buffer of its own and counts them; two wildcards in a row flatten the arrays below them.
Every branch is a definition of its own, which gets the recursive calls as `go`, and the
whole goes by fuel: the source has loops that do not end.
-/
import SonicJson.SkipScanner2

namespace SonicJson

open Prog

/-- A step of a path; the first of a path is `root`. -/
inductive JsonPathNode
  | root
  | key (name : Bytes)
  | index (i : ℤ)
  | wildcard
  deriving DecidableEq

/-- A path: the steps from the root. -/
abbrev JsonPath := List JsonPathNode

namespace JsonPathNode

def is_wildcard (node : Option JsonPathNode) : Bool := node == some wildcard

end JsonPathNode

/-- How the values found below a wildcard are written. -/
inductive WriteStyle
  | RAW
  | FLATTEN
  | QUOTE
  deriving DecidableEq

namespace JsonGenerator

def isBeginArray (wb : WriteBuffer) : Bool := wb.buf.getLast? == some Ch.lbrack

def isEmpty (wb : WriteBuffer) : Bool := wb.buf.isEmpty

def writeComma (wb : WriteBuffer) : WriteBuffer := wb.Push Ch.comma

def writeStartArray (wb : WriteBuffer) : WriteBuffer := wb.Push Ch.lbrack

def writeEndArray (wb : WriteBuffer) : WriteBuffer := wb.Push Ch.rbrack

def writeRawValue (sv : Bytes) (wb : WriteBuffer) : WriteBuffer := wb.PushStr sv

/-- `if (!isBeginArray() && !isEmpty()) writeComma()`. -/
def separate (wb : WriteBuffer) : WriteBuffer :=
  if !isBeginArray wb && !isEmpty wb then writeComma wb else wb

end JsonGenerator

namespace SkipScanner2

open JsonGenerator

/-- What `getJsonPath` answers: whether something was written, and the buffer. -/
abbrev Answer := Bool × WriteBuffer

section
variable (A : Arch) (data : Bytes) (len : ℕ)

/-- `while (peek() != close)` around `body`, which answers with `false` where the function returns. -/
def whilePeekNe {β : Type} (close : UInt8) (body : β → Scanning (Bool × β)) (fuel : ℕ) (b : β) :
    Scanning (Bool × β) :=
  loop (fun b => do
    let c ← peek len
    if c = close then pure (.inr (true, b))
    else do
      let (more, b) ← body b
      pure (if more then .inl b else .inr (false, b))) fuel b

/-- `dirty |= getJsonPath(..)` for each element, `get` being the call; and the comma behind it. -/
def eachElement (get : WriteBuffer → Scanning Answer) (fuel : ℕ) (wb : WriteBuffer) :
    Scanning (Bool × Answer) :=
  whilePeekNe len Ch.rbrack (fun (dirty, wb) => do
    let (d, wb) ← get wb
    let dirty := dirty || d
    returnIfParseError (false, dirty, wb) (skipIfPresent len Ch.comma) (pure (true, dirty, wb)))
      fuel (false, wb)

/-- The branch for an array at the end of the path, in the flattening style. -/
def flattenArray (get : WriteBuffer → Scanning Answer) (fuel : ℕ) (wb : WriteBuffer) :
    Scanning Answer :=
  returnIfParseError (false, wb) (consume len Ch.lbrack) do
    let (ok, dirty, wb) ← eachElement len get fuel wb
    if !ok then pure (false, wb)
    else returnIfParseError (false, wb) (consume len Ch.rbrack) (pure (dirty, wb))

/-- A member is skipped. -/
def skipMember : Scanning (Bool × Unit) :=
  returnIfParseError (false, ()) (skipOne A data len) <|
    returnIfParseError (false, ()) (consume len Ch.colon) <|
      returnIfParseError (false, ()) (skipOne A data len) <|
        returnIfParseError (false, ()) (skipIfPresent len Ch.comma) (pure (true, ()))

/-- The branch for an object and a key: `get` looks for the key among the members that are left, and
once it has written something they are skipped. -/
def getObject (get : WriteBuffer → Scanning Answer) (fuel : ℕ) (wb : WriteBuffer) : Scanning Answer :=
  returnIfParseError (false, wb) (consume len Ch.lbrace) do
    let (ok, dirty, wb) ← whilePeekNe len Ch.rbrace (fun (dirty, wb) =>
      if dirty then do
        let (ok, _) ← whilePeekNe len Ch.rbrace (fun _ => skipMember A data len) fuel ()
        pure (ok, dirty, wb)
      else do
        -- the next string is a key
        setIsFieldName
        let (dirty, wb) ← get wb
        returnIfParseError (false, dirty, wb) (skipIfPresent len Ch.comma) (pure (true, dirty, wb)))
          fuel (false, wb)
    if !ok then pure (false, wb)
    else returnIfParseError (false, wb) (consume len Ch.rbrace) (pure (dirty, wb))

/-- The branch for an array and two wildcards. -/
def getDoubleWildcard (get : WriteBuffer → Scanning Answer) (fuel : ℕ) (wb : WriteBuffer) :
    Scanning Answer :=
  returnIfParseError (false, wb) (consume len Ch.lbrack) do
    let (ok, dirty, wb) ← eachElement len get fuel (writeStartArray (separate wb))
    if !ok then pure (false, wb)
    else
      let wb := writeEndArray wb
      returnIfParseError (false, wb) (consume len Ch.rbrack) (pure (dirty, wb))

/-- The branch for an array and a wildcard in the quoted style. -/
def getWildcardQuote (get : WriteBuffer → Scanning Answer) (fuel : ℕ) (wb : WriteBuffer) :
    Scanning Answer :=
  let wb := writeStartArray (separate wb)
  returnIfParseError (false, wb) (consume len Ch.lbrack) do
    let (ok, dirty, wb) ← eachElement len get fuel wb
    if !ok then pure (false, wb)
    else returnIfParseError (false, wb) (consume len Ch.rbrack) (pure (dirty, writeEndArray wb))

/-- A round of the loop of a wildcard with a buffer of its own: an element that was not moved past
is skipped. -/
def wildcardBody (get : WriteBuffer → Scanning Answer) (b : ℕ × WriteBuffer) :
    Scanning ((ℕ × WriteBuffer) ⊕ (Bool × ℕ × WriteBuffer)) := do
  let st ← Prog.get
  if len ≤ st.pos_ then pure (.inr (true, b))
  else do
    let c ← peek len
    if c = Ch.rbrack then pure (.inr (true, b))
    else do
      let pos_before := (← Prog.get).pos_
      let (d, wb) ← get b.2
      let b := (b.1 + if d then 1 else 0, wb)
      let next := returnIfParseError (.inr (false, b)) (skipIfPresent len Ch.comma) (pure (.inl b))
      let st ← Prog.get
      if st.pos_ = pos_before then returnIfParseError (.inr (false, b)) (skipOne A data len) next
        else next

end

variable (G : Gen) (data : Bytes) (len : ℕ)

/-- The branch for an array and a wildcard in the other styles: one result is written as it is, more
as an array. -/
def getWildcard (get : WriteBuffer → Scanning Answer) (fuel : ℕ) (wb : WriteBuffer) : Scanning Answer :=
  returnIfParseError (false, wb) (consume len Ch.lbrack) do
    let (ok, dirty, local_wb) ← loop (wildcardBody G.A data len get) fuel (0, .init)
    if !ok then pure (false, wb)
    else do
      let st ← Prog.get
      if st.pos_ = len then do
        setError .kParseErrorEof
        pure (false, wb)
      else
        returnIfParseError (false, wb) (consume len Ch.rbrack) <|
          if 1 < dirty then pure (true,
            writeEndArray (writeRawValue local_wb.buf (writeStartArray (separate wb))))
          else if dirty = 1 then
            match copyCurrentStructureSingleResult G local_wb.buf wb with
            | none => do
              setError .kParseErrorUnexpect
              pure (false, wb)
            | some wb => pure (true, wb)
          else pure (false, wb)

/-- The elements behind the one that was found: `false` where the function returns. -/
def skipElements (fuel : ℕ) : Scanning (Bool × Unit) :=
  loop (fun _ => do
    let c ← peek len
    if c = Ch.rbrack then pure (.inr (true, ()))
    else
      returnIfParseError (.inr (false, ())) (skipIfPresent len Ch.comma) do
        let c ← peek len
        if c = Ch.rbrack then pure (.inr (true, ()))
        else returnIfParseError (.inr (false, ())) (skipOne G.A data len) (pure (.inl ()))) fuel ()

/-- The loop of `getJsonPathArrayIndex`, at the element `cur_idx`. -/
def arrayIndexBody (get : WriteBuffer → Scanning Answer) (idx : ℤ) (wb : WriteBuffer) (fuel : ℕ)
    (cur_idx : ℤ) :
    Scanning (ℤ ⊕ Bool × Answer) := do
  let c ← peek len
  if c = Ch.rbrack then pure (.inr (true, false, wb))
  else if cur_idx = idx then do
    let (dirty, wb) ← get wb
    let (ok, _) ← skipElements G data len fuel
    pure (.inr (ok, dirty, wb))
  else
    returnIfParseError (.inr (false, false, wb)) (skipOne G.A data len) <|
      returnIfParseError (.inr (false, false, wb)) (skipIfPresent len Ch.comma)
        (pure (.inl (cur_idx + 1)))

def getJsonPathArrayIndex (get : WriteBuffer → Scanning Answer) (idx : ℤ) (fuel : ℕ)
    (wb : WriteBuffer) :
    Scanning Answer :=
  returnIfParseError (false, wb) (consume len Ch.lbrack) do
    let (ok, dirty, wb) ← loop (arrayIndexBody G data len get idx wb fuel) fuel 0
    if !ok then pure (false, wb)
    else returnIfParseError (false, wb) (consume len Ch.rbrack) (pure (dirty, wb))

/-- The value at the end of the path is written. -/
def copyValue (wb : WriteBuffer) : Scanning Answer := do
  let wb := separate wb
  let sv ← getOne G.A data len
  let err ← hasError
  if err then pure (false, wb)
  else
    match copyCurrentStructure G sv wb with
    | none => do
      setError .kParseErrorUnexpect
      pure (false, wb)
    | some wb => pure (true, wb)

/-- A string at the end of the path is written without its quotes. -/
def copyRaw (wb : WriteBuffer) : Scanning Answer := do
  let sv ← getOne G.A data len
  let err ← hasError
  if err then pure (false, wb)
  else
    match writeRaw G sv wb with
    | none => do
      setError .kParseErrorUnexpect
      pure (false, wb)
    | some wb => pure (true, wb)

/-- The branch for a key at the quote of a member's name. -/
def getMember (get : WriteBuffer → Scanning Answer) (fuel : ℕ) (key : Bytes) (wb : WriteBuffer) :
    Scanning Answer := do
  let found ← advanceKey G.A data len fuel key
  let err ← hasError
  if err then pure (false, wb)
  else if found then do
    let c ← peek len
    if c ≠ Ch.n then get wb
    else returnIfParseError (false, wb) (skipOne G.A data len) (pure (false, wb))
  else pure (false, wb)

/-- A container that the path cannot enter is skipped; the quote of a name is still to be read. -/
def skipContainer (fuel : ℕ) (c : UInt8) (wb : WriteBuffer) : Scanning Answer :=
  if c = Ch.lbrace then
    returnIfParseError (false, wb) (consume len Ch.lbrace) do
      let (ok, _) ← whilePeekNe len Ch.rbrace (fun _ => do
        let st ← Prog.get
        let (status, pos) := SkipString G.A data st.pos_ len
        modify fun st => { st with pos_ := pos }
        if status = kUnclosed then do
          setError .kParseErrorInvalidChar
          pure (false, ())
        else
          returnIfParseError (false, ()) (consume len Ch.colon) <|
            returnIfParseError (false, ()) (skipOne G.A data len) <|
              returnIfParseError (false, ()) (skipIfPresent len Ch.comma) (pure (true, ()))) fuel ()
      if !ok then pure (false, wb)
      else returnIfParseError (false, wb) (consume len Ch.rbrace) (pure (false, wb))
  else if c = Ch.lbrack then
    returnIfParseError (false, wb) (consume len Ch.lbrack) do
      let (ok, _) ← whilePeekNe len Ch.rbrack (fun _ =>
        returnIfParseError (false, ()) (skipOne G.A data len) <|
          returnIfParseError (false, ()) (skipIfPresent len Ch.comma) (pure (true, ()))) fuel ()
      if !ok then pure (false, wb)
      else returnIfParseError (false, wb) (consume len Ch.rbrack) (pure (false, wb))
  else pure (false, wb)

/-- The end of the path, with the byte `c` ahead. -/
def getEnd (go : WriteStyle → ℕ → WriteBuffer → Scanning Answer) (fuel : ℕ) (style : WriteStyle)
    (index : ℕ) (c : UInt8) (value_string : Bool) (wb : WriteBuffer) : Scanning Answer :=
  if value_string && style = .RAW then copyRaw G data len wb
  else if c = Ch.lbrack ∧ style = .FLATTEN then flattenArray len (go .FLATTEN (index + 1)) fuel wb
  else copyValue G data len wb

/-- The step `node` of the path, with the byte `c` ahead; `go` follows the path from an index on. -/
def getStep (go : WriteStyle → ℕ → WriteBuffer → Scanning Answer) (fuel : ℕ) (style : WriteStyle)
    (path : JsonPath) (index : ℕ) (c : UInt8) (field_name : Bool) (wb : WriteBuffer) :
    JsonPathNode → Scanning Answer
  | .root => skipContainer G data len fuel c wb
  | .key key =>
    if c = Ch.lbrace then getObject G.A data len (go style index) fuel wb
    else if field_name then getMember G data len (go style (index + 1)) fuel key wb
    else skipContainer G data len fuel c wb
  | .index i =>
    if c = Ch.lbrack then
      let style := if index + 2 < path.length ∧
        JsonPathNode.is_wildcard path[index + 1]? then .QUOTE else style
      getJsonPathArrayIndex G data len (go style (index + 1)) i fuel wb
    else skipContainer G data len fuel c wb
  | .wildcard =>
    if c = Ch.lbrack then
      if JsonPathNode.is_wildcard path[index + 1]?
        then getDoubleWildcard len (go .FLATTEN (index + 2)) fuel wb
      else if style ≠ .QUOTE then
        getWildcard G data len (go (if style = .RAW then .QUOTE else style) (index + 1)) fuel wb
      else getWildcardQuote len (go .QUOTE (index + 1)) fuel wb
    else if field_name then
      returnIfParseError (false, wb) (skipOne G.A data len) <|
        returnIfParseError (false, wb) (consume len Ch.colon) (go style (index + 1) wb)
    else skipContainer G data len fuel c wb

/-- The body of `getJsonPath`. -/
def getJsonPathBody (go : WriteStyle → ℕ → WriteBuffer → Scanning Answer) (fuel : ℕ)
    (style : WriteStyle) (path : JsonPath) (index : ℕ) (wb : WriteBuffer) : Scanning Answer := do
  let c ← peek len
  let is_field_name ← getAndClearIsFieldName
  let value_string := !is_field_name && c == Ch.quote
  let field_name := c == Ch.quote && is_field_name
  if is_field_name && !value_string && !field_name then do
    setError .kParseErrorUnexpect
    pure (false, wb)
  else
    match path[index]? with
    | none => getEnd G data len go fuel style index c value_string wb
    | some node =>
      if c = Ch.n then returnIfParseError (false, wb) (skipOne G.A data len) (pure (false, wb))
      else if value_string then returnIfParseError (false, wb) (skipOne G.A data len) (pure (false, wb))
      else getStep G data len go fuel style path index c field_name wb node

/-- Follows the path from `index` on; it runs out where the calls or the rounds of a loop are more
than `fuel`. -/
def getJsonPath (path : JsonPath) : ℕ → WriteStyle → ℕ → WriteBuffer → Scanning Answer
  | 0, _, _, _ => out
  | fuel + 1, style, index, wb =>
    getJsonPathBody G data len (getJsonPath path fuel) fuel style path index wb

end SkipScanner2

/-- What the path leads to in the text, and the error; `none` where the search runs longer than
`fuel`. -/
def GetByJsonPathOnDemand (G : Gen) (fuel : ℕ) (json : Bytes) (path : JsonPath) :
    Option (Bytes × SonicError) :=
  ((SkipScanner2.getJsonPath G json json.length path fuel .RAW 1 .init).exec
    (SpaceCall.skip json json.length) .init).map
    fun ((matched, wb), scan) =>
      if matched then (wb.buf, .kErrorNone)
      else if scan.error_ = .kErrorNone then ([], .kErrorNoneNoMatch)
      else (wb.buf, scan.error_)

end SonicJson
