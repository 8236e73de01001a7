/-
# The other scanners as programs

`GetOnDemand` and `ParseLazy` written as programs that call `skip_space_safe`, so that
their calls can be spoken of. Executed with `skip_space_safe` they are the functions they
stand for (`GetOnDemand_exec`, `ParseLazy_exec`).
-/
import SonicJson.LazyParse
import SonicJson.SkipScanner2

namespace SonicJson

open Prog

/-! ### Search by a pointer -/

namespace SkipScanner

abbrev Querying (α : Type) := Prog SpaceCall SkipScanner α

variable (A : Arch) (data : Bytes) (len : ℕ)

def SkipSpaceSafe : Querying UInt8 :=
  call (fun st => ⟨.getOnDemand, 0, st.pos, st.bits⟩) fun q st => (q.c,
    { st with pos := q.pos, bits := q.bits })

/-- Answers what `f` answers at the position, and moves to where it says. -/
def move {α : Type} (f : ℕ → α × ℕ) : Querying α := do
  let st ← Prog.get
  modify fun st => { st with pos := (f st.pos).2 }
  pure (f st.pos).1

/-- Fails one byte back. -/
def failBack {α : Type} (a : α) : Querying α := do
  modify fun st => { st with pos := st.pos - 1 }
  pure a

/-- The loop of `GetArrayElem`. -/
def getArrayElem : ℕ → Querying SonicError
  | 0 => pure .kErrorNone
  | index + 1 => do
    let st ← Prog.get
    if st.pos < len then do
      let c ← SkipSpaceSafe
      let ok ← move fun pos => skipComposite A data pos len c
      if !ok then pure .kParseErrorInvalidChar
      else do
        let c ← move fun pos => GetNextToken A data pos len [Ch.comma, Ch.rbrack]
        if c ≠ Ch.comma then pure .kParseErrorArrIndexOutOfRange
        else do
          modify fun st => { st with pos := st.pos + 1 }
          getArrayElem index
    else pure .kParseErrorInvalidChar

def getElem (idx : ℤ) : Querying SonicError :=
  if idx < 0 then pure .kParseErrorInvalidChar else getArrayElem A data len idx.toNat

def readKey (key : Bytes) : Querying (Bool × SonicError) := do
  let st ← Prog.get
  modify fun st => (SonicJson.matchKey A data len key st).2.2
  pure ((SonicJson.matchKey A data len key st).1, (SonicJson.matchKey A data len key st).2.1)

/-- The loop at `obj_key`. -/
def objKey (key : Bytes) : ℕ → Querying SonicError
  | 0 => out
  | fuel + 1 => do
    modify fun st => { st with pos := st.pos + 1 }
    let (matched, err) ← readKey A data len key
    if err ≠ .kErrorNone then pure err
    else do
      let c ← SkipSpaceSafe
      if c ≠ Ch.colon then failBack .kParseErrorInvalidChar
      else if matched then pure .kErrorNone
      else do
        let c ← SkipSpaceSafe
        let ok ← move fun pos => skipComposite A data pos len c
        if !ok then failBack .kParseErrorInvalidChar
        else do
          let c ← move fun pos => GetNextToken A data pos len [Ch.quote, Ch.rbrace]
          if c ≠ Ch.quote then pure .kParseErrorUnknownObjKey else objKey key fuel

/-- From `query` on. -/
def query : List PointerNode → Querying (Except SonicError ℕ)
  | [] => do
    let c ← SkipSpaceSafe
    let st ← Prog.get
    let ok ← move fun pos => skipValue A data pos len c
    pure (if ok then .ok (st.pos - 1) else .error .kParseErrorInvalidChar)
  | .str key :: path => do
    let c ← SkipSpaceSafe
    if c ≠ Ch.lbrace then failBack (.error .kParseErrorMismatchType)
    else do
      let c ← move fun pos => GetNextToken A data pos len [Ch.quote, Ch.rbrace]
      if c ≠ Ch.quote then pure (.error .kParseErrorUnknownObjKey)
      else do
        let err ← objKey A data len key (len + 1)
        if err ≠ .kErrorNone then pure (.error err) else query path
  | .num idx :: path => do
    let c ← SkipSpaceSafe
    if c ≠ Ch.lbrack then failBack (.error .kParseErrorMismatchType)
    else do
      let err ← getElem A data len idx
      if err ≠ .kErrorNone then pure (.error err) else query path

variable {A data len} {st : SkipScanner}

theorem exec_SkipSpaceSafe : SkipSpaceSafe.exec (SpaceCall.skip data len) st =
    some ((skip_space_safe data st.pos len st.bits).1, { st with
      pos := (skip_space_safe data st.pos len st.bits).2.1, bits :=
        (skip_space_safe data st.pos len st.bits).2.2 }) := rfl

theorem exec_move {α : Type} (f : ℕ → α × ℕ) : (move f).exec (SpaceCall.skip data len) st =
    some ((f st.pos).1, { st with pos := (f st.pos).2 }) := rfl

theorem exec_readKey (key : Bytes) : (readKey A data len key).exec (SpaceCall.skip data len) st =
    some (((SonicJson.matchKey A data len key st).1, (SonicJson.matchKey A data len key st).2.1),
      (SonicJson.matchKey A data len key st).2.2) := rfl

theorem exec_getArrayElem : ∀ (index : ℕ)
    (st : SkipScanner), (getArrayElem A data len index).exec (SpaceCall.skip data len) st =
    some (getArrayElemLoop A data len index st)
  | 0, _ => rfl
  | index + 1, st => by
    rw [getArrayElem, getArrayElemLoop, exec_bind, exec_get, Option.bind_some, exec_ite]
    split
    swap
    · rfl
    rw [exec_bind_of exec_SkipSpaceSafe, exec_bind_of (exec_move _), exec_ite]
    dsimp only
    split
    · rfl
    rw [exec_bind_of (exec_move _), exec_ite]
    dsimp only
    split
    · rfl
    rw [exec_bind, exec_modify, Option.bind_some, exec_getArrayElem index]

theorem exec_getElem (idx : ℤ) (st : SkipScanner) :
    (getElem A data len idx).exec (SpaceCall.skip data len) st =
    some ((GetArrayElem A data len idx st).1, (GetArrayElem A data len idx st).2) := by
  rw [getElem, exec_ite, exec_getArrayElem, GetArrayElem]
  split <;> rfl

theorem exec_objKey (key : Bytes) : ∀ (fuel : ℕ)
    (st : SkipScanner), (objKey A data len key fuel).exec (SpaceCall.skip data len) st =
    objKeyLoop A data len key fuel st
  | 0, _ => rfl
  | fuel + 1, st => by
    rw [objKey, objKeyLoop, exec_bind, exec_modify, Option.bind_some,
      exec_bind_of (exec_readKey key), exec_ite]
    dsimp only
    split
    · rfl
    rw [exec_bind_of exec_SkipSpaceSafe, exec_ite]
    split
    · rfl
    rw [exec_ite]
    split
    · rfl
    rw [exec_bind_of exec_SkipSpaceSafe, exec_bind_of (exec_move _), exec_ite]
    dsimp only
    split
    · rfl
    rw [exec_bind_of (exec_move _), exec_ite]
    dsimp only
    split
    · rfl
    exact exec_objKey key fuel _

theorem exec_query : ∀ (path : List PointerNode) (st : SkipScanner),
    ((query A data len path).exec (SpaceCall.skip data len) st).map (fun r => (r.1, r.2.pos)) =
      SonicJson.query A data len path st
  | [], st => rfl
  | .str key :: path, st => by
    rw [query, SonicJson.query, exec_bind_of exec_SkipSpaceSafe, exec_ite]
    dsimp only
    split
    · rfl
    rw [exec_bind_of (exec_move _), exec_ite]
    dsimp only
    split
    · rfl
    rw [exec_bind, exec_objKey, Option.map_bind]
    congr 1
    funext r
    dsimp only [Function.comp_apply]
    rw [exec_ite]
    split
    · rfl
    · exact exec_query path r.2
  | .num idx :: path, st => by
    rw [query, SonicJson.query, exec_bind_of exec_SkipSpaceSafe, exec_ite]
    dsimp only
    split
    · rfl
    rw [exec_bind_of (exec_getElem idx _), exec_ite]
    generalize GetArrayElem A data len idx _ = r
    split
    · rfl
    · exact exec_query path r.2

end SkipScanner

/-- The program is the function. -/
theorem GetOnDemand_exec (A : Arch) (json : Bytes) (path : List PointerNode) :
    GetOnDemand A json path =
      ((SkipScanner.query A json json.length path).exec (SpaceCall.skip json json.length)
      ⟨0, .init, List.replicate 32 0⟩).map fun r =>
        match r.1 with
        | .ok start => ⟨.kErrorNone, r.2.pos, slice json start r.2.pos⟩
        | .error e => ⟨e, r.2.pos, []⟩ := by
  rw [GetOnDemand, ← SkipScanner.exec_query, Option.map_map]
  rfl

/-! ### Lazy parsing -/

namespace Lazy

variable {σ : Type} (A : Arch) (parseFlags : ParseFlags) (H : LazySAX σ)
    (Malloc : ℕ → Option (ℕ → UInt8)) (data : Bytes)
  (len : ℕ)

abbrev Parsing (σ α : Type) := Prog SpaceCall (Lazy σ) α

def SkipSpace : Parsing σ UInt8 :=
  call (fun st => ⟨.parseLazy, 0, st.pos, st.scan⟩) fun q st => (q.c,
    { st with pos := q.pos, scan := q.bits })

/-- Tells the handler. -/
def tell (f : σ → Bool × σ) : Parsing σ Bool := do
  let st ← Prog.get
  modify fun st => { st with sax := (f st.sax).2 }
  pure (f st.sax).1

/-- The end of the parse at the position. -/
def ended (err : SonicError) : Parsing σ ParseResult := do
  let st ← Prog.get
  pure ⟨err, st.pos⟩

/-- The end of the parse at the byte before the position. -/
def invalid : Parsing σ ParseResult := do
  let st ← Prog.get
  pure ⟨.kParseErrorInvalidChar, st.pos - 1⟩

/-- The handler is told about the end. -/
def tellEnd (f : σ → Bool × σ) : Parsing σ ParseResult := do
  let ok ← tell f
  if !ok then ended .kSaxTermination else pure ⟨.kErrorNone, 0⟩

/-- `SkipOne` and `Raw`; the end of the parse where one fails. -/
def raw : Parsing σ (Option ParseResult) := do
  let c ← SkipSpace
  let st ← Prog.get
  let (ok, pos) := skipValue A data st.pos len c
  modify fun st => { st with pos := pos }
  if !ok then pure (some ⟨.kParseErrorInvalidChar, pos - 1⟩)
  else do
    let ok ← tell (H.Raw (slice data (st.pos - 1) pos))
    pure (if !ok then some ⟨.kSaxTermination, pos⟩ else none)

def key : Parsing σ (Except ParseResult (Bytes × Bool)) := do
  let st ← Prog.get
  match lazyKey A parseFlags Malloc data len st with
  | .error e => pure (.error e)
  | .ok (name, allocated, st') => do
    modify fun _ => st'
    pure (.ok (name, allocated))

/-- The label `obj_key`. -/
def objKey : ℕ → UInt8 → ℕ → Parsing σ ParseResult
  | 0, _, _ => out
  | fuel + 1, c, cnt =>
    if c ≠ Ch.quote then invalid
    else do
      match ← key A parseFlags Malloc data len with
      | .error e => pure e
      | .ok (name, allocated) => do
        let ok ← tell (H.Key name allocated)
        if !ok then ended .kSaxTermination
        else do
          let c ← SkipSpace
          if c ≠ Ch.colon then invalid
          else do
            match ← raw A H data len with
            | some e => pure e
            | none => do
              let c ← SkipSpace
              if c = Ch.comma then do
                let c ← SkipSpace
                objKey fuel c (cnt + 1)
              else if c ≠ Ch.rbrace then invalid
              else tellEnd (H.EndObject (cnt + 1))

/-- The label `arr_val`. -/
def arrVal : ℕ → ℕ → Parsing σ ParseResult
  | 0, _ => out
  | fuel + 1, cnt => do
    match ← raw A H data len with
    | some e => pure e
    | none => do
      let c ← SkipSpace
      if c = Ch.comma then arrVal fuel (cnt + 1)
      else if c ≠ Ch.rbrack then invalid
      else tellEnd (H.EndArray (cnt + 1))

def parse : Parsing σ ParseResult := do
  let c ← SkipSpace
  if c = Ch.lbrack then do
    let ok ← tell H.StartArray
    if !ok then ended .kSaxTermination
    else do
      let c ← SkipSpace
      if c = Ch.rbrack then tellEnd (H.EndArray 0)
      else do
        modify fun st => { st with pos := st.pos - 1 }
        arrVal A H data len (len + 1) 0
  else if c = Ch.lbrace then do
    let ok ← tell H.StartObject
    if !ok then ended .kSaxTermination
    else do
      let c ← SkipSpace
      if c = Ch.rbrace then tellEnd (H.EndObject 0)
        else objKey A parseFlags H Malloc data len (len + 1) c 0
  else do
    modify fun st => { st with pos := st.pos - 1 }
    match ← raw A H data len with
    | some e => pure e
    | none => pure ⟨.kErrorNone, 0⟩

variable {A parseFlags H Malloc data len} {st : Lazy σ}

theorem exec_SkipSpace : SkipSpace.exec (SpaceCall.skip data len) st =
    some ((Lazy.SkipSpaceSafe data len st).1, (Lazy.SkipSpaceSafe data len st).2) := rfl

theorem exec_tell (f : σ → Bool × σ) : (tell f).exec (SpaceCall.skip data len) st =
    some ((f st.sax).1, { st with sax := (f st.sax).2 }) := rfl

/-- What the program makes of a value is what the function makes of it. -/
def Same (r : Option ParseResult) (st' : Lazy σ) (x : Except ParseResult (Lazy σ) × σ) : Prop :=
  x = (r.elim (.ok st') .error, st'.sax)

theorem exec_raw : ∃ r st', (raw A H data len).exec (SpaceCall.skip data len) st = some (r, st') ∧
    Same r st' (lazyRaw A H data len st) := by
  rcases hs : skip_space_safe data st.pos len st.scan with ⟨c, q, k⟩
  rcases hv : skipValue A data q len c with ⟨ok, p⟩
  have hskip :
      SkipSpace.exec (SpaceCall.skip data len) st = some (c, { st with pos := q, scan := k }) := by
    rw [exec_SkipSpace, SkipSpaceSafe, hs]
  have hone : SkipOne A data st.pos len st.scan =
      (if ok then .ok (q - 1) else .error .kParseErrorInvalidChar, p, k) := by
    unfold SkipOne
    rw [hs]
    dsimp only
    rw [hv]
  have hraw : (raw A H data len).exec (SpaceCall.skip data len) st =
      (if !ok then pure (some ⟨.kParseErrorInvalidChar, p - 1⟩)
      else do
        let ok ← tell (H.Raw (slice data (q - 1) p))
        pure (if !ok then some ⟨.kSaxTermination, p⟩ else none) : Parsing σ (Option ParseResult)).exec
        (SpaceCall.skip data len) { st with pos := p, scan := k } := by
    rw [raw, exec_bind_of hskip, exec_bind, exec_get, Option.bind_some]
    dsimp only
    rw [hv]
    rfl
  rw [hraw]
  unfold lazyRaw
  obtain ⟨_, _, _, _, _, Raw⟩ := H
  cases ok with
  | false =>
    rw [show SkipOne A data st.pos len st.scan = (.error .kParseErrorInvalidChar, p, k) from hone]
    exact ⟨_, _, rfl, rfl⟩
  | true =>
    rw [show SkipOne A data st.pos len st.scan = (.ok (q - 1), p, k) from hone, exec_ite,
      if_neg (by decide), exec_bind_of (exec_tell _)]
    refine ⟨_, _, rfl, ?_⟩
    unfold Same
    dsimp only
    by_cases hr : (!(Raw (slice data (q - 1) p) st.sax).1) = true
    · rw [if_pos hr, if_pos hr]
      rfl
    · rw [if_neg hr, if_neg hr]
      rfl

theorem exec_tellEnd (f : σ → Bool × σ) :
    ((tellEnd f).exec (SpaceCall.skip data len) st).map (fun r => (r.1, r.2.sax)) =
    some (if !(f st.sax).1 then ⟨.kSaxTermination, st.pos⟩ else ⟨.kErrorNone, 0⟩, (f st.sax).2) := by
  rw [tellEnd, exec_bind_of (exec_tell f), exec_ite]
  cases (f st.sax).1 <;> rfl

theorem exec_objKey : ∀ (fuel : ℕ) (c : UInt8) (cnt : ℕ) (st : Lazy σ),
    ((objKey A parseFlags H Malloc data len fuel c cnt).exec (SpaceCall.skip data len) st).map
    (fun r => (r.1, r.2.sax)) =
      lazyObjKey A parseFlags H Malloc data len fuel c cnt st
  | 0, _, _, _ => rfl
  | fuel + 1, c, cnt, st => by
    rw [objKey, lazyObjKey, exec_ite]
    split
    · rfl
    rw [key, exec_bind, exec_bind, exec_get, Option.bind_some]
    cases lazyKey A parseFlags Malloc data len st with
    | error e => rfl
    | ok r =>
      obtain ⟨name, allocated, st₁⟩ := r
      dsimp only
      rw [exec_bind, exec_modify, Option.bind_some, exec_pure, Option.bind_some]
      dsimp only
      rw [exec_bind_of (exec_tell _), exec_ite]
      split
      · rfl
      rw [exec_bind_of exec_SkipSpace, exec_ite]
      split
      · rfl
      obtain ⟨r, st₂, h1, h2⟩ := exec_raw (A := A) (H := H)
      unfold Same at h2
      rw [exec_bind_of h1, h2]
      cases r with
      | some e => rfl
      | none =>
        dsimp only [Option.elim_none]
        rw [exec_bind_of exec_SkipSpace, exec_ite]
        split
        · rw [exec_bind_of exec_SkipSpace]
          exact exec_objKey fuel _ _ _
        rw [exec_ite]
        split
        · rfl
        · exact exec_tellEnd _

theorem exec_arrVal : ∀ (fuel cnt : ℕ) (st : Lazy σ),
    ((arrVal A H data len fuel cnt).exec (SpaceCall.skip data len) st).map (fun r => (r.1, r.2.sax)) =
      lazyArrVal A H data len fuel cnt st
  | 0, _, _ => rfl
  | fuel + 1, cnt, st => by
    obtain ⟨r, st₂, h1, h2⟩ := exec_raw (A := A) (H := H)
    unfold Same at h2
    rw [arrVal, lazyArrVal, exec_bind_of h1, h2]
    cases r with
    | some e => rfl
    | none =>
      dsimp only [Option.elim_none]
      rw [exec_bind_of exec_SkipSpace, exec_ite]
      split
      · exact exec_arrVal fuel _ _
      rw [exec_ite]
      split
      · rfl
      · exact exec_tellEnd _

end Lazy

/-- The program is the function. -/
theorem ParseLazy_exec {σ : Type} (A : Arch) (parseFlags : ParseFlags) (H : LazySAX σ)
    (Malloc : ℕ → Option (ℕ → UInt8)) (data : Bytes) (len : ℕ) (sax : σ) :
    ParseLazy A parseFlags H Malloc data len sax =
      ((Lazy.parse A parseFlags H Malloc data len).exec (SpaceCall.skip data len)
        ⟨0, .init, 0, sax⟩).map
        fun r => (r.1, r.2.sax) := by
  symm
  rw [Lazy.parse, ParseLazy, exec_bind_of Lazy.exec_SkipSpace, exec_ite]
  dsimp only
  split
  · rw [exec_bind_of (Lazy.exec_tell _), exec_ite]
    split
    · rfl
    rw [exec_bind_of Lazy.exec_SkipSpace, exec_ite]
    split
    · exact Lazy.exec_tellEnd _
    · rw [exec_bind, exec_modify, Option.bind_some]
      exact Lazy.exec_arrVal _ _ _
  rw [exec_ite]
  split
  · rw [exec_bind_of (Lazy.exec_tell _), exec_ite]
    split
    · rfl
    rw [exec_bind_of Lazy.exec_SkipSpace, exec_ite]
    split
    · exact Lazy.exec_tellEnd _
    · exact Lazy.exec_objKey _ _ _ _
  · rw [exec_bind, exec_modify, Option.bind_some]
    obtain ⟨r, st', h1, h2⟩ := Lazy.exec_raw (A := A) (H := H)
    unfold Lazy.Same at h2
    rw [exec_bind_of h1, h2]
    cases r <;> rfl

end SonicJson
