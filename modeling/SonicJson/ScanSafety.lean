/-
# Every call of the bounded skipping

The four clients of `skip_space_safe` and the calls they make. `ParseLazy` and
`GetOnDemand` call it at once, which an empty text does not allow; a path calls it in an
empty text where it has no step; a tuple can call it behind the text, after a string that
it passes over. Everywhere else each call goes well (`skip_space_safe_in_bounds`).
-/
import SonicJson.ScanCalls
import SonicJson.SpaceSafety
import SonicJson.JsonTuple

namespace SonicJson

open Prog

/-- A position within the text, and what is remembered there: true, and of the text. -/
structure Fit (data : Bytes) (pos : ℕ) (k : SpaceBits) : Prop where
  valid : k.Valid data pos
  end_le : k.nonspace_bits_end ≤ data.length
  le : pos ≤ data.length

section
variable {data : Bytes} {pos p : ℕ} {k : SpaceBits}

theorem Fit.init (data : Bytes) :
    Fit data 0 .init := ⟨SpaceBits.valid_init _ _, Nat.zero_le _, Nat.zero_le _⟩

theorem Fit.move (h : Fit data pos k) (hle : pos ≤ p) (hp : p ≤ data.length) :
    Fit data p k := ⟨h.valid.mono hle, h.end_le, hp⟩

theorem SpaceCall.Lands.fit {q : SpaceCall} (h : q.Lands data data.length) :
    Fit data (q.skip data data.length).pos (q.skip data data.length).bits :=
      ⟨h.valid, h.end_le, h.le_len⟩

/-- One step back: the byte is no space, or the last of the text. -/
theorem SpaceCall.Lands.back {q : SpaceCall} (h : q.Lands data data.length) :
    Fit data ((q.skip data data.length).pos - 1) (q.skip data data.length).bits := by
  refine ⟨fun i hi h1 h2 => ?_, h.end_le, (Nat.sub_le _ _).trans h.le_len⟩
  rcases Nat.lt_or_ge i (q.skip data data.length).pos with hlt | hge
  · obtain rfl : i = (q.skip data data.length).pos - 1 := by omega
    have hend := h.space (h.byte ▸ h1)
    have hpos := h.pos
    rw [Nat.sub_add_cancel hpos, hend, rd_of_length_le le_rfl] at h2
    exact absurd h2 (by decide)
  · exact h.valid i hge h1 h2

end

/-- The program's calls go well, and `Q` holds at the end. -/
abbrev Goes {σ α : Type} (data : Bytes) (x : Prog SpaceCall σ α) (st : σ) (Q : α → σ → Prop) : Prop :=
  x.Runs (SpaceCall.skip data data.length) (fun _ => True) (SpaceCall.SkipsSafely data data.length) st Q

section
variable {data : Bytes} {σ α β : Type} {st : σ}

theorem goes_get {k : σ → Prog SpaceCall σ α} {Q : α → σ → Prop} (h : Goes data (k st) st Q) :
    Goes data (Prog.get >>= k) st Q :=
  .bind (.get (Q := fun a s => a = st ∧ s = st) ⟨rfl, rfl⟩) fun _ _ ⟨ha, hs⟩ => ha ▸ hs ▸ h

theorem goes_modify {f : σ → σ} {k : Prog SpaceCall σ α} {Q : α → σ → Prop} (h : Goes data k (f st) Q) :
    Goes data (modify f >>= fun _ => k) st Q :=
      .bind (.modify (Q := fun _ s => s = f st) rfl) fun _ _ hs => hs ▸ h

end

/-! ### Search by a pointer -/

namespace SkipScanner

section
variable {A : Arch} {data : Bytes} {pos : ℕ} {c : UInt8}

theorem le_skipComposite : pos ≤ (skipComposite A data pos data.length c).2 := by
  by_cases hc : c = Ch.lbrace ∨ c = Ch.lbrack ∨ c = Ch.quote
  · rw [skipComposite_eq hc]
    exact le_skipValue A data pos data.length c
  · push Not at hc
    rw [skipComposite_other hc.1 hc.2.1 hc.2.2]

theorem skipComposite_le (hp : pos ≤ data.length)
    (hok : (skipComposite A data pos data.length c).1 = true) :
    (skipComposite A data pos data.length c).2 ≤ data.length := by
  unfold skipComposite at hok ⊢
  split
  · exact SkipContainer_le hp brackets_object
  next h1 =>
  split
  · exact SkipContainer_le hp brackets_array
  next h2 =>
  split
  · next h3 =>
    rw [if_neg h1, if_neg h2, if_pos h3] at hok
    exact SkipString_le hp (by simpa using hok)
  · exact hp

end

section
variable {A : Arch} {data : Bytes} {st : SkipScanner} (hlen : 0 < data.length)

/-- The scanner is within the text. -/
def Within (data : Bytes) (st : SkipScanner) : Prop := Fit data st.pos st.bits

theorem goes_move {α : Type} {f : ℕ → α × ℕ} {Q : α → SkipScanner → Prop}
    (h : Q (f st.pos).1 { st with pos := (f st.pos).2 }) :
    Goes data (move f) st Q := goes_get (goes_modify (.pure h))

theorem goes_failBack {α : Type} {a : α} {Q : α → SkipScanner → Prop} (h : ∀ s, Q a s) :
    Goes data (failBack a) st Q :=
  goes_modify (.pure (h _))

/-- A composite value is passed over. -/
theorem goes_skipComposite (h : Within data st) (c : UInt8) :
    Goes data (move fun pos => skipComposite A data pos data.length c) st
    fun ok st' => ok = true → Within data st' :=
  goes_move fun hok => h.move le_skipComposite (skipComposite_le h.le hok)

theorem goes_GetNextToken (h : Within data st) (tokens : Bytes) :
    Goes data (move fun pos => GetNextToken A data pos data.length tokens) st fun c st' =>
      Within data st' ∧ (c ≠ 0 → st'.pos < data.length) :=
  goes_move ⟨h.move (le_GetNextToken _) (GetNextToken_le h.le), GetNextToken_lt h.le⟩

theorem goes_readKey (h : Within data st) (key : Bytes) :
    Goes data (readKey A data data.length key) st fun r st' =>
    r.2 = .kErrorNone → Within data st' := by
  refine goes_get (goes_modify (.pure fun herr => ?_))
  have hle := @le_keyAt A data st .kErrorNone
  have hin := @keyAt_le A _ _ .kErrorNone h.le
  have hbits := @keyAt_bits A data st .kErrorNone
  rw [matchKey_eq] at herr ⊢
  unfold Within
  rw [hbits]
  exact h.move hle (hin.resolve_right (not_not.mpr herr))

include hlen

theorem goes_SkipSpaceSafe (h : Within data st) :
    Goes data SkipSpaceSafe st fun _ st' => Within data st' := by
  refine .call (SpaceCall.skipsSafely hlen h.valid h.le h.end_le) fun _ => ?_
  exact (SpaceCall.lands (q := ⟨.getOnDemand, 0, st.pos, st.bits⟩) hlen h.valid h.le h.end_le).fit

theorem goes_getArrayElem : ∀ (index : ℕ) {st : SkipScanner}, Within data st →
    Goes data (getArrayElem A data data.length index) st fun err st' => err = .kErrorNone →
      Within data st'
  | 0, _, h => .pure fun _ => h
  | index + 1, st, h => by
    refine goes_get (.ite (fun _ => ?_) fun _ => .pure nofun)
    refine (goes_SkipSpaceSafe hlen h).bind fun c st₁ h₁ => (goes_skipComposite h₁ c).bind
      fun ok st₂ h₂ => ?_
    refine .ite (fun _ => .pure nofun) fun hok => ?_
    have h₂ := h₂ (by simpa using hok)
    refine (goes_GetNextToken h₂ _).bind fun c st₃ ⟨h₃, hlt⟩ => .ite (fun _ => .pure nofun) fun hc => ?_
    have hlt := hlt (by rw [not_not.mp hc]; decide)
    exact goes_modify (goes_getArrayElem index (h₃.move (Nat.le_succ _) hlt))

theorem goes_objKey (key : Bytes) :
    ∀ (fuel : ℕ) {st : SkipScanner}, Within data st → st.pos < data.length →
    Goes data (objKey A data data.length key fuel) st fun err st' => err = .kErrorNone → Within data st'
  | 0, _, _, _ => .out
  | fuel + 1, st, h, hlt => by
    have h₀ : Within data { st with pos := st.pos + 1 } := h.move (Nat.le_succ _) hlt
    refine goes_modify ((goes_readKey h₀ key).bind fun r st₁ h₁ => ?_)
    refine .ite (fun he => .pure fun hn => absurd hn he) fun he => ?_
    have h₁ := h₁ (not_not.mp he)
    refine (goes_SkipSpaceSafe hlen h₁).bind fun c st₂ h₂ =>
      .ite (fun _ => goes_failBack fun _ => nofun) fun _ => ?_
    refine .ite (fun _ => .pure fun _ => h₂) fun _ => ?_
    refine (goes_SkipSpaceSafe hlen h₂).bind fun c st₃ h₃ => (goes_skipComposite h₃ c).bind
      fun ok st₄ h₄ => ?_
    refine .ite (fun _ => goes_failBack fun _ => nofun) fun hok => ?_
    have h₄ := h₄ (by simpa using hok)
    refine (goes_GetNextToken h₄ _).bind fun c st₅ ⟨h₅, hlt₅⟩ => .ite (fun _ => .pure nofun)
      fun hc => ?_
    exact goes_objKey key fuel h₅ (hlt₅ (by rw [not_not.mp hc]; decide))

theorem goes_query : ∀ (path : List PointerNode) {st : SkipScanner}, Within data st →
    Goes data (query A data data.length path) st fun _ _ => True
  | [], _, h => by
    refine (goes_SkipSpaceSafe hlen h).bind fun c st₁ _ => goes_get ?_
    exact .bind (goes_move (Q := fun _ _ => True) trivial) fun _ _ _ => .pure trivial
  | .str key :: path, _, h => by
    refine (goes_SkipSpaceSafe hlen h).bind fun c st₁ h₁ =>
      .ite (fun _ => goes_failBack fun _ => trivial) fun _ => ?_
    refine (goes_GetNextToken h₁ _).bind fun c st₂ ⟨h₂, hlt⟩ => .ite (fun _ => .pure trivial)
      fun hc => ?_
    refine (goes_objKey hlen key _ h₂ (hlt (by rw [not_not.mp hc]; decide))).bind fun err st₃ h₃ => ?_
    exact .ite (fun _ => .pure trivial) fun he => goes_query path (h₃ (not_not.mp he))
  | .num idx :: path, _, h => by
    refine (goes_SkipSpaceSafe hlen h).bind fun c st₁ h₁ =>
      .ite (fun _ => goes_failBack fun _ => trivial) fun _ => ?_
    have helem : Goes data (getElem A data data.length idx) st₁ fun err st' => err = .kErrorNone →
      Within data st' :=
      .ite (fun _ => .pure nofun) fun _ => goes_getArrayElem hlen _ h₁
    refine helem.bind fun err st₂ h₂ => .ite (fun _ => .pure trivial) fun he => ?_
    exact goes_query path (h₂ (not_not.mp he))

end

end SkipScanner

/-! ### Lazy parsing -/

namespace Lazy

section
variable {σ : Type} {A : Arch} {parseFlags : ParseFlags} {H : LazySAX σ}
    {Malloc : ℕ → Option (ℕ → UInt8)} {data : Bytes}
  {st : Lazy σ}

/-- The parser is within the text. -/
def Within (data : Bytes) (st : Lazy σ) : Prop := Fit data st.pos st.scan

theorem goes_tell {f : σ → Bool × σ} (h : Within data st) :
    Goes data (tell f) st fun _ st' => Within data st' :=
  goes_get (goes_modify (.pure h))

theorem goes_ended {err : SonicError} : Goes data (ended err) st fun _ _ => True :=
  goes_get (.pure trivial)

theorem goes_invalid : Goes data invalid st fun _ _ => True := goes_get (.pure trivial)

theorem goes_tellEnd {f : σ → Bool × σ} : Goes data (tellEnd f) st fun _ _ => True :=
  .bind (goes_get (goes_modify (.pure trivial)) : Goes data (tell f) st fun _ _ => True) fun _ _ _ =>
    .ite (fun _ => goes_ended) fun _ => .pure trivial

theorem lazyKey_within (h : Within data st) {name : Bytes} {allocated : Bool} {st' : Lazy σ}
    (hk : lazyKey A parseFlags Malloc data data.length st = .ok (name, allocated, st')) :
    Within data st' := by
  have hle := @le_SkipString A data data.length st.pos
  have hin := SkipString_le (A := A) h.le
  unfold lazyKey at hk
  dsimp only at hk
  split at hk
  · cases hk
  next hs =>
  have hst' : st'.pos = (SkipString A data st.pos data.length).2 ∧ st'.scan = st.scan := by
    split at hk
    · split at hk
      · cases hk
      · split at hk
        · cases hk
        · obtain ⟨-, hk⟩ := Prod.mk.inj (Except.ok.inj hk)
          obtain ⟨-, rfl⟩ := Prod.mk.inj hk
          exact ⟨rfl, rfl⟩
    · obtain ⟨-, hk⟩ := Prod.mk.inj (Except.ok.inj hk)
      obtain ⟨-, rfl⟩ := Prod.mk.inj hk
      exact ⟨rfl, rfl⟩
  unfold Within
  rw [hst'.1, hst'.2]
  exact h.move hle (hin hs)

theorem goes_key (h : Within data st) :
    Goes data (key A parseFlags Malloc data data.length) st fun r st' =>
    r.isOk = true → Within data st' := by
  refine goes_get ?_
  cases hk : lazyKey A parseFlags Malloc data data.length st with
  | error e => exact .pure nofun
  | ok r => exact goes_modify (.pure fun _ => lazyKey_within h hk)

variable (hlen : 0 < data.length)
include hlen

theorem goes_SkipSpace (h : Within data st) : Goes data SkipSpace st fun _ st' =>
    Within data st' ∧ 0 < st'.pos ∧ Within data { st' with pos := st'.pos - 1 } := by
  refine .call (SpaceCall.skipsSafely hlen h.valid h.le h.end_le) fun _ => ?_
  have hl := SpaceCall.lands (q := ⟨.parseLazy, 0, st.pos, st.scan⟩) hlen h.valid h.le h.end_le
  exact ⟨hl.fit, hl.pos, hl.back⟩

theorem goes_raw (h : Within data st) :
    Goes data (raw A H data data.length) st fun r st' => r = none → Within data st' := by
  refine (goes_SkipSpace hlen h).bind fun c st₁ ⟨h₁, h0, _⟩ => goes_get ?_
  have hle := le_skipValue A data st₁.pos data.length c
  have hin := skipValue_le (A := A) (c := c) h₁.le h0
  rcases hv : skipValue A data st₁.pos data.length c with ⟨ok, pos⟩
  rw [hv] at hle hin
  dsimp only at hle hin ⊢
  refine goes_modify (.ite (fun _ => .pure nofun) fun hok => ?_)
  have hpos : pos ≤ data.length := hin.resolve_right fun hc => hok (by rw [hc.2]; rfl)
  exact .bind (goes_tell (h₁.move hle hpos)) fun _ _ h₂ => .pure fun _ => h₂

theorem goes_objKey : ∀ (fuel : ℕ) (c : UInt8) (cnt : ℕ) {st : Lazy σ}, Within data st →
    Goes data (objKey A parseFlags H Malloc data data.length fuel c cnt) st fun _ _ => True
  | 0, _, _, _, _ => .out
  | fuel + 1, c, cnt, st, h => by
    refine .ite (fun _ => goes_invalid) fun _ => (goes_key h).bind fun r st₁ h₁ => ?_
    cases r with
    | error e => exact .pure trivial
    | ok r =>
      refine (goes_tell (h₁ rfl)).bind fun ok st₂ h₂ => .ite (fun _ => goes_ended) fun _ => ?_
      refine (goes_SkipSpace hlen h₂).bind fun c st₃ ⟨h₃, _⟩ => .ite (fun _ => goes_invalid) fun _ => ?_
      refine (goes_raw hlen h₃).bind fun r st₄ h₄ => ?_
      cases r with
      | some e => exact .pure trivial
      | none =>
        refine (goes_SkipSpace hlen (h₄ rfl)).bind fun c st₅ ⟨h₅, _⟩ => .ite (fun _ => ?_) fun _ => ?_
        · exact (goes_SkipSpace hlen h₅).bind fun c st₆ ⟨h₆, _⟩ => goes_objKey fuel c _ h₆
        · exact .ite (fun _ => goes_invalid) fun _ => goes_tellEnd

theorem goes_arrVal : ∀ (fuel cnt : ℕ) {st : Lazy σ}, Within data st →
    Goes data (arrVal A H data data.length fuel cnt) st fun _ _ => True
  | 0, _, _, _ => .out
  | fuel + 1, cnt, st, h => by
    refine (goes_raw hlen h).bind fun r st₁ h₁ => ?_
    cases r with
    | some e => exact .pure trivial
    | none =>
      refine (goes_SkipSpace hlen (h₁ rfl)).bind fun c st₂ ⟨h₂, _⟩ =>
        .ite (fun _ => goes_arrVal fuel _ h₂) fun _ => ?_
      exact .ite (fun _ => goes_invalid) fun _ => goes_tellEnd

theorem goes_parse (h : Within data st) :
    Goes data (parse A parseFlags H Malloc data data.length) st fun _ _ => True := by
  refine (goes_SkipSpace hlen h).bind fun c st₁ ⟨h₁, _, hb₁⟩ => .ite (fun _ => ?_) fun _ =>
    .ite (fun _ => ?_) fun _ => ?_
  · refine (goes_tell h₁).bind fun ok st₂ h₂ => .ite (fun _ => goes_ended) fun _ => ?_
    refine (goes_SkipSpace hlen h₂).bind fun c st₃ ⟨_, _, hb₃⟩ => .ite (fun _ => goes_tellEnd)
      fun _ => ?_
    exact goes_modify (goes_arrVal hlen _ _ hb₃)
  · refine (goes_tell h₁).bind fun ok st₂ h₂ => .ite (fun _ => goes_ended) fun _ => ?_
    refine (goes_SkipSpace hlen h₂).bind fun c st₃ ⟨h₃, _, _⟩ => .ite (fun _ => goes_tellEnd)
      fun _ => ?_
    exact goes_objKey hlen _ _ _ h₃
  · refine goes_modify ((goes_raw hlen hb₁).bind fun r st₂ _ => ?_)
    cases r <;> exact .pure trivial

end

end Lazy

/-! ### The calls of a run -/

/-- The calls of `skip_space_safe` that `ParseLazy` makes. -/
def ParseLazy.calls {σ : Type} (A : Arch) (parseFlags : ParseFlags) (H : LazySAX σ)
    (Malloc : ℕ → Option (ℕ → UInt8)) (json : Bytes) (sax : σ) : List SpaceCall :=
  (Lazy.parse A parseFlags H Malloc json json.length).calls (SpaceCall.skip json json.length)
    ⟨0, .init, 0, sax⟩

def GetOnDemand.calls (A : Arch) (json : Bytes) (path : List PointerNode) : List SpaceCall :=
  (SkipScanner.query A json json.length path).calls (SpaceCall.skip json json.length)
    ⟨0, .init, List.replicate 32 0⟩

def GetByJsonPathOnDemand.calls (G : Gen) (fuel : ℕ) (json : Bytes) (path : JsonPath) :
    List SpaceCall :=
  (SkipScanner2.getJsonPath G json json.length path fuel .RAW 1 .init).calls
    (SpaceCall.skip json json.length) .init

def JsonTupleWithCodeGen.calls (G : Gen) (fuel : ℕ) (json : Bytes) (keys : List Bytes)
    (legacy : Bool) : List SpaceCall :=
  (SkipScanner2.jsonTupleWithCodeGen G json json.length fuel keys legacy).calls
    (SpaceCall.skip json json.length) .init

section
variable {G : Gen} {json : Bytes}

theorem SkipScanner2.ready_init : SkipScanner2.Ready json .init :=
  ⟨⟨SpaceBits.valid_init _ _, Nat.zero_le _⟩, Nat.zero_le _⟩

/-- A run that begins with a call is safe exactly where the text is not empty. -/
theorem safe_iff {calls : List SpaceCall} {q : SpaceCall} (hq : json = [] → q ∈ calls)
    (hpos : q.pos = 0) (h : 0 < json.length → ∀ q ∈ calls, q.SkipsSafely json json.length) :
    (∀ q ∈ calls, q.SkipsSafely json json.length) ↔ json ≠ [] := by
  constructor
  · rintro hs rfl
    exact SpaceCall.not_skipsSafely hpos (hs q (hq rfl))
  · exact fun hne => h (List.length_pos_iff.mpr hne)

theorem ParseLazy.calls_safely {σ : Type} (A : Arch) (parseFlags : ParseFlags) (H : LazySAX σ)
    (Malloc : ℕ → Option (ℕ → UInt8)) (json : Bytes) (sax : σ) :
    (∀ q ∈ ParseLazy.calls A parseFlags H Malloc json sax, q.SkipsSafely json json.length) ↔
    json ≠ [] :=
  safe_iff (q := ⟨.parseLazy, 0, 0, .init⟩) (fun _ => List.mem_cons_self) rfl fun hlen =>
    (Lazy.goes_parse hlen (show Lazy.Within json ⟨0, .init, 0, sax⟩ from Fit.init json)).calls
    fun _ _ => trivial

theorem GetOnDemand.calls_safely (A : Arch) (json : Bytes) (path : List PointerNode) :
    (∀ q ∈ GetOnDemand.calls A json path, q.SkipsSafely json json.length) ↔ json ≠ [] := by
  refine safe_iff (q := ⟨.getOnDemand, 0, 0, .init⟩) (fun _ => ?_) rfl fun hlen =>
    (SkipScanner.goes_query hlen path (show SkipScanner.Within json ⟨0, .init, _⟩ from
    Fit.init json)).calls
      fun _ _ => trivial
  cases path with
  | nil => exact List.mem_cons_self
  | cons node path => cases node <;> exact List.mem_cons_self

/-- In an empty text a path with a step makes no call, and a path without one calls at once. -/
theorem getJsonPath_empty {path : JsonPath} (fuel : ℕ) :
    GetByJsonPathOnDemand.calls G (fuel + 1) [] path = [] ∧ 1 < path.length ∨
      (∃ q ∈ GetByJsonPathOnDemand.calls G (fuel + 1) [] path, q.pos = 0) ∧ ¬ 1 < path.length := by
  unfold GetByJsonPathOnDemand.calls SkipScanner2.getJsonPath SkipScanner2.getJsonPathBody
  cases h : path[1]? with
  | none =>
    right
    exact ⟨⟨⟨.getOne, 0, 0, .init⟩, List.mem_cons_self, rfl⟩,
      not_lt.mpr (List.getElem?_eq_none_iff.mp h)⟩
  | some node =>
    left
    refine ⟨?_, (List.getElem?_eq_some_iff.mp h).1⟩
    cases node <;> rfl

theorem GetByJsonPathOnDemand.calls_safely (G : Gen) (fuel : ℕ) (json : Bytes) (path : JsonPath) :
    (∀ q ∈ GetByJsonPathOnDemand.calls G (fuel + 1) json path, q.SkipsSafely json json.length) ↔
      json ≠ [] ∨ 1 < path.length := by
  by_cases hne : json = []
  · subst hne
    rcases getJsonPath_empty (G := G) fuel with ⟨h, hp⟩ | ⟨⟨q, hq, hpos⟩, hp⟩
    · rw [h]
      exact ⟨fun _ => .inr hp, fun _ _ hq => absurd hq List.not_mem_nil⟩
    · refine ⟨fun hs => ?_, fun hc => ?_⟩
      · exact absurd (hs q hq) (SpaceCall.not_skipsSafely hpos)
      · exact absurd hc (not_or.mpr ⟨not_not.mpr rfl, hp⟩)
  · refine ⟨fun _ => .inl hne, fun _ => ?_⟩
    have hsafe := SkipScanner2.safe_getJsonPath (G := G) (H := fun _ => True)
      (List.length_pos_iff.mpr hne) path (fuel + 1) .RAW 1 .init
      _ (SkipScanner2.ready_init)
    exact hsafe.calls fun _ _ => trivial

theorem JsonTupleWithCodeGen.calls_safely (G : Gen) (fuel : ℕ) (json : Bytes) (keys : List Bytes)
    (legacy : Bool)
    (h : ∀ q ∈ JsonTupleWithCodeGen.calls G fuel json keys legacy, SkipScanner2.Stays G.A json q) :
    ∀ q ∈ JsonTupleWithCodeGen.calls G fuel json keys legacy, q.SkipsSafely json json.length := by
  by_cases hne : json = []
  · subst hne
    have hnone : JsonTupleWithCodeGen.calls G fuel [] keys legacy = [] := by cases legacy <;> rfl
    rw [hnone]
    exact fun _ hq => absurd hq List.not_mem_nil
  · exact (SkipScanner2.safe_jsonTupleWithCodeGen (List.length_pos_iff.mpr hne)
      SkipScanner2.ready_init).calls h

end

/-- **Where the bounded skipping stays in bounds.** `ParseLazy` and `GetOnDemand`: on every text but
the empty one. A path: unless the text is empty and the path has no step. A tuple: as long as no
value that is passed over is a string that ends behind the text. -/
theorem skip_space_safe_in_bounds (json : Bytes) :
    (∀ (σ : Type) (A : Arch) (parseFlags : ParseFlags) (H : LazySAX σ)
    (Malloc : ℕ → Option (ℕ → UInt8)) (sax : σ),
      (∀ q ∈ ParseLazy.calls A parseFlags H Malloc json sax, q.SkipsSafely json json.length) ↔
        json ≠ []) ∧
    (∀ (A : Arch) (path : List PointerNode),
      (∀ q ∈ GetOnDemand.calls A json path, q.SkipsSafely json json.length) ↔ json ≠ []) ∧
    (∀ (G : Gen) (fuel : ℕ) (path : JsonPath),
      (∀ q ∈ GetByJsonPathOnDemand.calls G (fuel + 1) json path, q.SkipsSafely json json.length) ↔
        json ≠ [] ∨ 1 < path.length) ∧
    ∀ (G : Gen) (fuel : ℕ) (keys : List Bytes) (legacy : Bool),
      (∀ q ∈ JsonTupleWithCodeGen.calls G fuel json keys legacy, SkipScanner2.Stays G.A json q) →
        ∀ q ∈ JsonTupleWithCodeGen.calls G fuel json keys legacy, q.SkipsSafely json json.length :=
  ⟨fun _ A parseFlags H Malloc => ParseLazy.calls_safely A parseFlags H Malloc json,
    fun A => GetOnDemand.calls_safely A json, fun G fuel => GetByJsonPathOnDemand.calls_safely G
    fuel json, fun G fuel => JsonTupleWithCodeGen.calls_safely G fuel json⟩

/-- `{"x":"` with 31 letters and a backslash behind it: a string that ends behind the text. -/
def overrun : Bytes := [123, 34, 120, 34, 58, 34] ++ List.replicate 31 97 ++ [92]

/-- An empty text is read before its begin, and the text of `overrun` behind its end. -/
theorem skip_space_safe_out_of_bounds :
    (∃ q ∈ GetOnDemand.calls .avx2 [] [], ¬ q.SkipsSafely [] 0) ∧
    ∃ q ∈ JsonTupleWithCodeGen.calls plainGen 2 overrun [[97]] false,
      ¬ q.SkipsSafely overrun overrun.length := by
  refine ⟨⟨⟨.getOnDemand, 0, 0, .init⟩, List.mem_cons_self, SpaceCall.not_skipsSafely rfl⟩, ?_⟩
  have h39 : ∃ q ∈ JsonTupleWithCodeGen.calls plainGen 2 overrun [[97]] false, overrun.length <
      q.pos := by
    decide +kernel
  obtain ⟨q, hq, hlt⟩ := h39
  exact ⟨q, hq, SpaceCall.not_skipsSafely_of_lt hlt⟩

/-- The text `{"x":true}`. -/
def literalMember : Bytes := [123, 34, 120, 34, 58, 116, 114, 117, 101, 125]

/-- No string is passed over in `{"x":true}`. -/
theorem skip_space_safe_in_bounds_plain :
    ∀ q ∈ JsonTupleWithCodeGen.calls plainGen 2 literalMember [[97]] false,
      q.SkipsSafely literalMember literalMember.length := by
  have hquote : ∀ q ∈ JsonTupleWithCodeGen.calls plainGen 2 literalMember [[97]] false,
      q.caller = .skipOne → (q.skip literalMember literalMember.length).c ≠ Ch.quote := by
    decide +kernel
  exact (skip_space_safe_in_bounds literalMember).2.2.2 plainGen 2 [[97]] false
    fun q hq hcaller hover => hquote q hq hcaller hover.1

end SonicJson
