/-
# Bounded skipping stays in bounds

`Ready` is the invariant of a scanner before a call of `skip_space_safe`: its position is
within the text, and what it remembers is true and of the text. Only a string that is
skipped can take the position behind the text; the steps that look at the length first go
on from there (`Kept`), the others need an error to have been seen. So the calls of a
search along a path all go well unless the text and the path are empty, and those of a
tuple as long as no value that is passed over is such a string.
-/
import SonicJson.JsonPath
import SonicJson.SpaceReads

namespace SonicJson

open Prog

/-! ### Positions behind what is skipped -/

section
variable {A : Arch} {data : Bytes} {pos : ℕ} (hp : pos ≤ data.length)
include hp

theorem GetNextToken_le {tokens : Bytes} :
    (GetNextToken A data pos data.length tokens).2 ≤ data.length := by
  rw [GetNextToken_eq (left_slice le_rfl hp)]
  cases (slice data pos data.length).dropWhile fun b => !tokens.contains b with
  | nil => exact le_rfl
  | cons c t => exact Nat.sub_le _ _

/-- A token that is found stands in the text. -/
theorem GetNextToken_lt {tokens : Bytes} (h : (GetNextToken A data pos data.length tokens).1 ≠ 0) :
    (GetNextToken A data pos data.length tokens).2 < data.length := by
  have hl := left_slice le_rfl hp
  rw [GetNextToken_eq hl] at h ⊢
  have hle : ((slice data pos data.length).dropWhile fun b => !tokens.contains b).length ≤
      data.length := by
    have h1 :=
      (List.dropWhile_suffix (fun b => !tokens.contains b)
      (l := slice data pos data.length)).length_le
    have h2 := hl.length_add
    omega
  cases hs : (slice data pos data.length).dropWhile fun b => !tokens.contains b with
  | nil =>
    rw [hs] at h
    exact absurd rfl h
  | cons c t =>
    rw [hs, List.length_cons] at hle
    show data.length - (t.length + 1) < data.length
    omega

/-- A string that is closed is within the text. -/
theorem SkipString_le (h : (SkipString A data pos data.length).1 ≠ kUnclosed) :
    (SkipString A data pos data.length).2 ≤ data.length := by
  have hs := SkipString_spec (A := A) (left_slice le_rfl hp)
  cases he : strEnd false (slice data pos data.length) with
  | none =>
    rw [he] at hs
    exact absurd hs h
  | some t =>
    rw [he] at hs
    rw [hs.2]
    exact Nat.sub_le _ _

omit hp in
theorem skipContainerBlocks_le {left right : UInt8} :
    ∀ (fuel : ℕ) (st : ContState) {pos : ℕ}, pos ≤ data.length →
    (skipContainerBlocks data data.length left right fuel st pos).1 = false →
    (skipContainerBlocks data data.length left right fuel st pos).2 ≤ data.length
  | 0, _, _, hp, _ => hp
  | fuel + 1, st, pos, hp, h => by
    rw [skipContainerBlocks] at h ⊢
    by_cases hb : pos + 64 ≤ data.length
    · rw [if_pos hb] at h ⊢
      rcases hl : SKIP_LOOP data pos left right st with ⟨k | k, st'⟩
      · rw [hl] at h
        exact skipContainerBlocks_le fuel st' hb h
      · rw [hl] at h
        cases h
    · rw [if_neg hb] at h ⊢
      dsimp only at h ⊢
      rcases hl :
        SKIP_LOOP (slice data pos data.length ++ List.replicate (64 - (data.length - pos)) 0) 0 left
        right st
        with ⟨k | k, st'⟩
      · exact hp
      · rw [hl] at h
        cases h

theorem SkipContainer_le {left right : UInt8} (hb : Brackets left right) :
    (SkipContainer data pos data.length left right).2 ≤ data.length := by
  have hs := SkipContainer_spec hb.ne hb.right_ne_zero (left_slice le_rfl hp)
  cases he : contEnd left right false false 0 (slice data pos data.length) with
  | none =>
    rw [he] at hs
    exact skipContainerBlocks_le _ _ hp hs
  | some t =>
    rw [he] at hs
    rw [show SkipContainer data pos data.length left right = _ from hs]
    exact Nat.sub_le _ _

theorem SkipLiteral_le {c : UInt8} (h0 : 0 < pos) :
    (SkipLiteral data pos data.length c).2 ≤ data.length := by
  unfold SkipLiteral
  dsimp only
  split_ifs with h1 h2 h3 h4 h5 h6
  all_goals first
    | exact hp
    | (simp only [Bool.and_eq_true, decide_eq_true_eq] at *; omega)

/-- Only a string can be skipped to behind the text. -/
theorem skipValue_le {c : UInt8} (h0 : 0 < pos) : (skipValue A data pos data.length c).2 ≤ data.length ∨
    c = Ch.quote ∧ (skipValue A data pos data.length c).1 = false := by
  unfold skipValue
  split
  · next hc =>
    dsimp only
    by_cases hs : (SkipString A data pos data.length).1 = kUnclosed
    · exact .inr ⟨hc, by simp [hs]⟩
    · exact .inl (SkipString_le hp hs)
  left
  split_ifs
  · exact SkipContainer_le hp brackets_object
  · exact SkipContainer_le hp brackets_array
  · exact SkipLiteral_le hp h0
  · exact GetNextToken_le hp
  · exact hp

omit hp in
theorem skipValue_quote :
    (skipValue A data pos data.length Ch.quote).2 = (SkipString A data pos data.length).2 := by
  rw [skipValue, if_pos rfl]

end

/-! ### Keys -/

section
variable {A : Arch} {data : Bytes} {st : SkipScanner} {err : SonicError}

theorem le_keyAt : st.pos ≤ (keyAt A data data.length err st).2.2.pos := by
  have h := @le_SkipString A data data.length st.pos
  unfold keyAt
  dsimp only
  split_ifs <;> dsimp only <;> omega

theorem keyAt_bits : (keyAt A data data.length err st).2.2.bits = st.bits := by
  unfold keyAt
  dsimp only
  split_ifs <;> rfl

/-- A key that is read without an error is within the text. -/
theorem keyAt_le (hp : st.pos ≤ data.length) : (keyAt A data data.length err st).2.2.pos ≤ data.length ∨
    (keyAt A data data.length err st).2.1 ≠ .kErrorNone := by
  unfold keyAt
  dsimp only
  split_ifs with hs he h1 h2
  · exact .inr nofun
  · exact .inr h1
  · exact .inr h2
  · exact .inl (SkipString_le hp hs)
  · exact .inl (SkipString_le hp hs)

end

/-! ### The steps of the scanner -/

/-- The string that a call comes to, if it is one, ends behind the text when it is skipped. -/
def SpaceCall.Overruns (A : Arch) (data : Bytes) (q : SpaceCall) : Prop :=
  (q.skip data data.length).c = Ch.quote ∧
    data.length < (SkipString A data (q.skip data data.length).pos data.length).2

namespace SkipScanner2

/-- What is remembered is true from the position on, and of the text. -/
structure Sound (data : Bytes) (st : SkipScanner2) : Prop where
  valid : st.scanner_.Valid data st.pos_
  end_le : st.scanner_.nonspace_bits_end ≤ data.length

/-- Before a call that goes well. -/
structure Ready (data : Bytes) (st : SkipScanner2) : Prop where
  sound : Sound data st
  le : st.pos_ ≤ data.length

/-- The position is within the text, or an error is known. -/
structure Kept (data : Bytes) (st : SkipScanner2) : Prop where
  sound : Sound data st
  le : st.pos_ ≤ data.length ∨ st.error_ ≠ .kErrorNone

section
variable {A : Arch} {data : Bytes} {H : SpaceCall → Prop} {st : SkipScanner2} {c : UInt8}

theorem Ready.kept (h : Ready data st) : Kept data st := ⟨h.sound, .inl h.le⟩

theorem Kept.ready (h : Kept data st) (he : st.error_ = .kErrorNone) : Ready data st :=
  ⟨h.sound, h.le.resolve_right (not_not.mpr he)⟩

theorem Kept.setError (h : Kept data st) {err : SonicError} (he : err ≠ .kErrorNone) :
    Kept data { st with error_ := err } := ⟨⟨h.sound.valid, h.sound.end_le⟩, .inr he⟩

theorem Sound.move (h : Sound data st) {p : ℕ} (hp : st.pos_ ≤ p) : Sound data { st with pos_ := p } :=
  ⟨h.valid.mono hp, h.end_le⟩

/-- One step back over a byte that is no space. -/
theorem Sound.back (h : Sound data st) (h0 : 0 < st.pos_)
    (hs : IsSpace (rd data (st.pos_ - 1)) = false) :
    Sound data { st with pos_ := st.pos_ - 1 } := by
  refine ⟨fun i hi h1 => ?_, h.end_le⟩
  dsimp only at hi
  rcases Nat.lt_or_ge i st.pos_ with hlt | hge
  · obtain rfl : i = st.pos_ - 1 := by omega
    rw [hs] at h1
    cases h1
  · exact h.valid i hge h1

/-- The program's calls go well from `st` on, as long as `H` holds of them, and `Q` holds at the end. -/
abbrev Safe {α : Type} (data : Bytes) (H : SpaceCall → Prop) (x : Scanning α) (st : SkipScanner2)
    (Q : α → SkipScanner2 → Prop) :
    Prop := x.Runs (SpaceCall.skip data data.length) H (SpaceCall.SkipsSafely data data.length) st Q

/-- Where `skip_space_safe` leaves the scanner, and what it answers. -/
structure Landed (data : Bytes) (st : SkipScanner2) (c : UInt8) (st' : SkipScanner2) : Prop where
  ready : Ready data st'
  pos : 0 < st'.pos_
  le : st.pos_ ≤ st'.pos_
  byte : c = rd data (st'.pos_ - 1)
  space : IsSpace c = true → st'.pos_ = data.length
  error : st'.error_ = st.error_

/-- What a step that looks at the length first preserves. -/
structure Steps (data : Bytes) (st st' : SkipScanner2) : Prop where
  kept : Kept data st'
  le : st.pos_ ≤ data.length → st'.pos_ ≤ data.length

theorem Steps.ready {st' : SkipScanner2} (h : Steps data st st') (hr : Ready data st) :
    Ready data st' :=
  ⟨h.kept.sound, h.le hr.le⟩

theorem Ready.error (h : Ready data st) (err : SonicError) : Ready data { st with error_ := err } :=
  ⟨⟨h.sound.valid, h.sound.end_le⟩, h.le⟩

/-- One step back over the byte, if it is no space. -/
theorem Landed.back {st' : SkipScanner2} (h : Landed data st c st') (hc : ¬ IsSpace c = true) :
    Ready data { st' with pos_ := st'.pos_ - 1 } := by
  have hs : IsSpace (rd data (st'.pos_ - 1)) = false := by
    rw [← h.byte]
    simpa using hc
  exact ⟨h.ready.sound.back h.pos hs, (Nat.sub_le _ _).trans h.ready.le⟩

theorem Landed.steps {st' : SkipScanner2} (h : Landed data st c st') :
    Steps data st st' := ⟨h.ready.kept, fun _ => h.ready.le⟩

theorem Steps.refl (h : Kept data st) : Steps data st st := ⟨h, id⟩

theorem Kept.steps_error (h : Kept data st) {err : SonicError} (he : err ≠ .kErrorNone) :
    Steps data st { st with error_ := err } := ⟨h.setError he, id⟩

section
variable {α β : Type} {Q : α → SkipScanner2 → Prop} {R : β → SkipScanner2 → Prop}

theorem safe_get {k : SkipScanner2 → Scanning α} (h : Safe data H (k st) st Q) :
    Safe data H (Prog.get >>= k) st Q :=
  .bind (.get (Q := fun a s => a = st ∧ s = st) ⟨rfl, rfl⟩) fun _ _ ⟨ha, hs⟩ => ha ▸ hs ▸ h

theorem safe_hasError {Q : Bool → SkipScanner2 → Prop} (h : Q (st.error_ != .kErrorNone) st) :
    Safe data H hasError st Q :=
  safe_get (.pure h)

theorem safe_setError {Q : Unit → SkipScanner2 → Prop} {err : SonicError}
    (h : Q () { st with error_ := err }) :
    Safe data H (setError err) st Q := .modify h

/-- A step, and what comes after it where there is no error. -/
theorem safe_returnIfParseError {x : Scanning β} {k : Scanning α} {r : α} (hx : Safe data H x st R)
    (hr : ∀ b st', R b st' → st'.error_ ≠ .kErrorNone → Q r st')
    (hk : ∀ b st', R b st' → st'.error_ = .kErrorNone → Safe data H k st' Q) :
    Safe data H (returnIfParseError r x k) st Q := by
  refine hx.bind fun b st' hb => ?_
  refine .bind (safe_hasError (Q := fun e s => e = (st'.error_ != .kErrorNone) ∧ s = st')
    ⟨rfl, rfl⟩) fun e s he => ?_
  obtain ⟨rfl, rfl⟩ := he
  refine .ite (fun h => ?_) fun h => ?_
  · exact .pure (hr b _ hb (by simpa using h))
  · exact hk b _ hb (by simpa using h)

end

section
variable (hlen : 0 < data.length)
include hlen

theorem safe_SkipSpaceSafe {caller : Caller} (h : Ready data st) :
    Safe data H (SkipSpaceSafe caller) st fun c st' =>
    Landed data st c st' ∧ ∃ q : SpaceCall, q.caller = caller ∧ H q ∧ (q.skip data data.length).c = c ∧
      (q.skip data data.length).pos = st'.pos_ := by
  have hl :=
    SpaceCall.lands (q := ⟨caller, 0, st.pos_, st.scanner_⟩) hlen h.sound.valid h.le h.sound.end_le
  refine .call (SpaceCall.skipsSafely hlen h.sound.valid h.le h.sound.end_le) fun hH =>
    ⟨?_, _, rfl, hH, rfl, rfl⟩
  exact ⟨⟨⟨hl.valid, hl.end_le⟩, hl.le_len⟩, hl.pos, hl.le, hl.byte, hl.space, rfl⟩

theorem safe_peek (h : Kept data st) : Safe data H (peek data.length) st fun c st' =>
    Steps data st st' ∧ (c ≠ 0 → Ready data st') := by
  refine safe_get (.ite (fun _ => ?_) fun hlt => ?_)
  · refine .bind (safe_setError (Q := fun _ s => Steps data st s) (h.steps_error (by decide)))
      fun _ _ hs => .pure ⟨hs, ?_⟩
    exact fun h0 => absurd rfl h0
  · refine .bind (safe_SkipSpaceSafe hlen ⟨h.sound, (not_le.mp hlt).le⟩) fun c st₁ ⟨hl, _⟩ => ?_
    refine safe_get (.ite (fun _ => ?_) fun hc => ?_)
    · refine .bind (safe_setError (Q := fun _ s => Steps data st s) ?_) fun _ _ hs =>
        .pure ⟨hs, fun h0 => absurd rfl h0⟩
      exact ⟨hl.ready.kept.setError (by decide), fun _ => hl.ready.le⟩
    · refine .bind (.modify (Q := fun _ s => Ready data s) ?_) fun _ _ hs =>
        .pure ⟨⟨hs.kept, fun _ => hs.le⟩, fun _ => hs⟩
      exact hl.back fun hs => hc ⟨(hl.space hs).ge, hs⟩

theorem safe_consume (h : Kept data st) : Safe data H (consume data.length c) st fun ok st' =>
    Steps data st st' ∧ (ok = true → Ready data st') := by
  refine safe_get (.ite (fun _ => ?_) fun hlt => ?_)
  · refine .bind (safe_setError (Q := fun _ s => Steps data st s) (h.steps_error (by decide)))
      fun _ _ hs => .pure ⟨hs, nofun⟩
  · refine .bind (safe_SkipSpaceSafe hlen ⟨h.sound, (not_le.mp hlt).le⟩) fun got st₁ ⟨hl, _⟩ => ?_
    refine .ite (fun _ => safe_get ?_) fun _ => .pure ⟨⟨hl.ready.kept, fun _ => hl.ready.le⟩,
      fun _ => hl.ready⟩
    refine .bind (safe_setError (Q := fun _ s => Steps data st s) ?_) fun _ _ hs => .pure ⟨hs, nofun⟩
    refine ⟨hl.ready.kept.setError ?_, fun _ => hl.ready.le⟩
    split <;> decide

theorem safe_advance (h : Ready data st) : Safe data H advance st fun c st' => Landed data st c st' :=
  (safe_SkipSpaceSafe hlen h).mono fun _ _ hl => hl.1

theorem safe_skipIfPresent (hc : c ≠ 0) (h : Kept data st) :
    Safe data H (skipIfPresent data.length c) st fun _ st' => Steps data st st' := by
  refine safe_get (.ite (fun _ => safe_setError (h.steps_error (by decide))) fun _ => ?_)
  refine .bind (safe_peek hlen h) fun got st₁ ⟨hs, hr⟩ => ?_
  refine .ite (fun hgot => ?_) fun _ => .pure hs
  refine .bind (safe_advance hlen (hr (hgot ▸ hc))) fun _ _ hl => .pure ?_
  exact ⟨hl.ready.kept, fun _ => hl.ready.le⟩

/-- What is passed over stays within the text, or cannot be skipped, which is so for a string that
ends behind it. -/
structure Skipped (A : Arch) (data : Bytes) (H : SpaceCall → Prop) (caller : Caller)
    (st' : SkipScanner2) (failed : Prop) : Prop where
  sound : Sound data st'
  le : st'.pos_ ≤ data.length ∨ failed ∧ ∃ q : SpaceCall, q.caller = caller ∧ H q ∧ q.Overruns A data

theorem safe_SkipOne {caller : Caller} (h : Ready data st) :
    Safe data H (SkipOne A data data.length caller) st fun r st' =>
    Skipped A data H caller st' (r = none) := by
  refine .bind (safe_SkipSpaceSafe hlen h) fun c st₁ ⟨hl, q, hq, hH, hqc, hqp⟩ => safe_get ?_
  rcases hv : skipValue A data st₁.pos_ data.length c with ⟨ok, p⟩
  have hle := le_skipValue A data st₁.pos_ data.length c
  have hv' := skipValue_le (A := A) hl.ready.le hl.pos (c := c)
  rw [hv] at hle hv'
  dsimp only at hle hv' ⊢
  refine .bind (.modify (Q := fun _ s => s = { st₁ with pos_ := p }) rfl) fun _ _ hs =>
    .pure (hs ▸ ⟨hl.ready.sound.move hle, ?_⟩)
  rcases hv' with hin | ⟨rfl, rfl⟩
  · exact .inl hin
  · rcases Nat.lt_or_ge data.length p with hlt | hge
    · refine .inr ⟨rfl, q, hq, hH, hqc, ?_⟩
      rw [hqp, ← skipValue_quote, hv]
      exact hlt
    · exact .inl hge

omit hlen in
theorem Skipped.kept {caller : Caller} {failed : Prop} (h : Skipped A data H caller st failed)
    (he : failed → st.error_ ≠ .kErrorNone) : Kept data st :=
    ⟨h.sound, h.le.imp_right fun hf => he hf.1⟩

theorem safe_getOne (h : Ready data st) :
    Safe data H (getOne A data data.length) st fun _ st' => Kept data st' := by
  refine .bind (safe_SkipOne (A := A) hlen h) fun r st₁ hs => ?_
  cases r with
  | none =>
    refine .bind (safe_setError (Q := fun _ s => Kept data s) ?_) fun _ _ hk => .pure hk
    exact ⟨⟨hs.sound.valid, hs.sound.end_le⟩, .inr nofun⟩
  | some start => exact safe_get (.pure ⟨hs.sound, hs.le.imp_right fun hf => nomatch hf.1⟩)

theorem safe_skipOne (h : Ready data st) : Safe data H (skipOne A data data.length) st fun _ st' =>
    Skipped A data H .skipOne st' (st'.error_ ≠ .kErrorNone) := by
  refine .bind (safe_SkipOne hlen h) fun r st₁ hs => ?_
  cases r with
  | none =>
    refine safe_setError ⟨⟨hs.sound.valid, hs.sound.end_le⟩, hs.le.imp_right fun hf => ⟨?_, hf.2⟩⟩
    exact fun he => nomatch he
  | some start => exact .pure ⟨hs.sound, hs.le.imp_right fun hf => nomatch hf.1⟩

omit hlen in
theorem safe_readKey (h : Ready data st) :
    Safe data H (readKey A data data.length) st fun _ st' => Kept data st' := by
  refine safe_get ?_
  have hle := @le_keyAt A data ⟨st.pos_, st.scanner_, st.kbuf_⟩ st.error_
  have hin := @keyAt_le A data ⟨st.pos_, st.scanner_, st.kbuf_⟩ st.error_ h.le
  rcases hk : keyAt A data data.length st.error_ ⟨st.pos_, st.scanner_, st.kbuf_⟩ with ⟨name, err, s⟩
  rw [hk] at hle hin
  dsimp only at hle hin ⊢
  refine .bind (.modify (Q := fun _ s => Kept data s) ?_) fun _ _ hk => .pure hk
  exact ⟨⟨h.sound.valid.mono hle, h.sound.end_le⟩, hin⟩

/-! ### The search for a member -/

omit hlen in
theorem safe_modify {α : Type} {f : SkipScanner2 → SkipScanner2} {k : Scanning α}
    {Q : α → SkipScanner2 → Prop} (h : Safe data H k (f st) Q) :
    Safe data H (modify f >>= fun _ => k) st Q :=
  .bind (.modify (Q := fun _ s => s = f st) rfl) fun _ _ hs => hs ▸ h

/-- An answer of the search: where it is not `miss` the scanner is within the text, unless a value
that was passed over was not. -/
structure Advanced (A : Arch) (data : Bytes) (H : SpaceCall → Prop) {α : Type} (miss a : α)
    (st' : SkipScanner2) : Prop where
  kept : Kept data st'
  ready : a = miss ∨ Ready data st' ∨ ∃ q : SpaceCall, q.caller = .skipOne ∧ H q ∧ q.Overruns A data

section
variable {α : Type} {match_ : Scanning (Option α)} {miss false_ : α}

theorem safe_advanceBody
    (hm : ∀ st, Ready data st → Safe data H match_ st fun _ st' => Kept data st')
    {st₀ : SkipScanner2} (h : Landed data st₀ c st) :
    Safe data H (advanceBody A data data.length match_ miss false_ c) st fun r st' =>
      r.elim (fun c' => ∃ st₁, Landed data st₁ c' st') (Advanced A data H miss · st') := by
  have failed : ∀ {st err}, Kept data st → err ≠ .kErrorNone →
      Advanced A data H miss miss { st with error_ := err } := fun h he => ⟨h.setError he, .inl rfl⟩
  refine .ite (fun hc => ?_) fun _ => .ite (fun _ => ?_) fun _ => ?_
  · exact safe_modify (.pure ⟨(h.back (hc ▸ by decide)).kept, .inl rfl⟩)
  · exact safe_modify (.pure (failed h.ready.kept (by decide)))
  refine (hm st h.ready).bind fun matched st₁ h₁ => ?_
  refine .bind (safe_hasError (Q := fun e s => e = (st₁.error_ != .kErrorNone) ∧ s = st₁)
    ⟨rfl, rfl⟩) fun e s he => ?_
  obtain ⟨rfl, rfl⟩ := he
  refine .ite (fun _ => .pure ⟨h₁, .inl rfl⟩) fun he => ?_
  have hr₁ := h₁.ready (by simpa using he)
  refine .bind (safe_consume hlen h₁) fun ok st₂ ⟨h₂, hr₂⟩ => ?_
  refine .ite (fun _ => safe_modify (.pure (failed h₂.kept (by decide)))) fun hok => ?_
  have hr₂ := hr₂ (by simpa using hok)
  cases matched with
  | some r => exact .pure ⟨hr₂.kept, .inr (.inl hr₂)⟩
  | none =>
    refine safe_returnIfParseError (safe_skipOne hlen hr₂) (fun _ st₃ hs he => ?_) fun _ st₃ hs he => ?_
    · exact ⟨hs.kept fun hf => hf, .inr (hs.le.imp (fun hle => ⟨hs.sound, hle⟩) And.right)⟩
    · have hr₃ := (hs.kept fun hf => hf).ready he
      refine .bind (safe_advance hlen hr₃) fun c' st₄ h₄ => ?_
      refine .ite (fun _ => ?_) fun _ => .ite (fun _ => ?_) fun _ => .pure ⟨_, h₄⟩
      · exact .bind (safe_advance hlen h₄.ready) fun c'' st₅ h₅ => .pure ⟨_, h₅⟩
      · refine safe_modify (.pure ⟨{ st₃ with error_ := .kParseErrorInvalidChar }, ?_⟩)
        exact ⟨h₄.ready.error _, h₄.pos, h₄.le, h₄.byte, h₄.space, rfl⟩

theorem safe_advanceLoop
    (hm : ∀ st, Ready data st → Safe data H match_ st fun _ st' => Kept data st') (fuel : ℕ)
    {st₀ : SkipScanner2} (h : Landed data st₀ c st) :
    Safe data H (loop (advanceBody A data data.length match_ miss false_) fuel c) st fun a st' =>
      Advanced A data H miss a st' :=
  .loop (I := fun c s => ∃ s₀, Landed data s₀ c s) (fun _ _ ⟨_, hs⟩ => safe_advanceBody hlen hm hs)
    fuel ⟨_, h⟩

end

theorem safe_advanceKey (h : Ready data st) {fuel : ℕ} {key : Bytes} :
    Safe data H (advanceKey A data data.length fuel key) st fun _ st' => Kept data st' := by
  refine .bind (safe_advance hlen h) fun c st₁ h₁ => ?_
  refine Runs.mono (safe_advanceLoop hlen (fun st h => ?_) fuel h₁) fun _ _ ha => ha.kept
  refine .bind ((safe_readKey h).bind fun name st₁ h₁ => ?_) fun matched st₁ h₁ => .pure h₁
  exact .pure h₁

theorem safe_advanceKeys (h : Ready data st) {fuel : ℕ} {keys : List Bytes} :
    Safe data H (advanceKeys A data data.length fuel keys) st fun i st' =>
      Advanced A data H (-1) i st' := by
  refine .bind (safe_advance hlen h) fun c st₁ h₁ => ?_
  refine safe_advanceLoop hlen (fun st h => ?_) fuel h₁
  refine .bind ((safe_readKey h).bind fun name st₁ h₁ => ?_) fun matched st₁ h₁ => .pure h₁
  cases name with
  | none => exact .pure h₁
  | some name => exact .pure h₁

end

end

/-! ### Tuples -/

/-- A value that is passed over does not end behind the text. -/
def Stays (A : Arch) (data : Bytes) (q : SpaceCall) : Prop := q.caller = .skipOne → ¬ q.Overruns A data

section
variable {G : Gen} {data : Bytes} {st : SkipScanner2} (hlen : 0 < data.length)
include hlen

omit hlen in
theorem Advanced.resolve {miss a : ℤ} (h : Advanced G.A data (Stays G.A data) miss a st)
    (ha : a ≠ miss) : Ready data st := by
  rcases h.ready with hm | hr | ⟨q, hq, hH, ho⟩
  · exact absurd hm ha
  · exact hr
  · exact absurd ho (hH hq)

theorem safe_nextMember {r t : Tuple ⊕ Bool × List (Option Bytes)} (h : Kept data st)
    (hr : ∃ x, r = .inr x) :
    Safe data (Stays G.A data) (returnIfParseError r (skipIfPresent data.length Ch.comma) (pure t)) st
      fun r st' => r.elim (fun _ => Ready data st') fun _ => True := by
  obtain ⟨x, rfl⟩ := hr
  refine safe_returnIfParseError (safe_skipIfPresent hlen (by decide) h) (fun _ _ _ _ => trivial)
    fun _ st₁ hs he => .pure ?_
  cases t with
  | inl t => exact hs.kept.ready he
  | inr x => trivial

theorem safe_tupleBody (h : Ready data st) {fuel : ℕ} {keys : List Bytes} {t : Tuple} :
    Safe data (Stays G.A data) (tupleBody G data data.length fuel keys t) st
      fun r st' => r.elim (fun _ => Ready data st') fun _ => True := by
  refine .bind (safe_peek hlen h.kept) fun c st₁ ⟨h₁, _⟩ => ?_
  refine .ite (fun _ => ?_) fun _ => .pure trivial
  refine .bind (safe_advanceKeys hlen (h₁.ready h)) fun i st₂ h₂ => ?_
  refine .ite (fun hi => ?_) fun _ => safe_nextMember hlen h₂.kept ⟨_, rfl⟩
  have hr₂ := h₂.resolve hi
  refine .bind (safe_peek hlen hr₂.kept) fun c st₃ ⟨h₃, _⟩ => ?_
  have hr₃ := h₃.ready hr₂
  refine .bind (safe_peek hlen hr₃.kept) fun c' st₄ ⟨h₄, _⟩ => ?_
  have hr₄ := h₄.ready hr₃
  refine .ite (fun _ => ?_) fun _ => ?_
  · refine safe_returnIfParseError (safe_skipOne hlen hr₄) (fun _ _ _ _ => trivial)
      fun _ st₅ hs he => ?_
    exact safe_nextMember hlen (hs.kept fun hf => hf) ⟨_, rfl⟩
  · refine .bind (safe_getOne hlen hr₄) fun sv st₅ h₅ => ?_
    refine .bind (safe_hasError (Q := fun _ s => Kept data s) h₅) fun e s hs => ?_
    refine .ite (fun _ => .pure trivial) fun _ => ?_
    split
    · exact safe_modify (.pure trivial)
    · exact safe_nextMember hlen hs ⟨_, rfl⟩

theorem safe_jsonTupleWithCodeGen (h : Ready data st) {fuel : ℕ} {keys : List Bytes} {legacy : Bool} :
    Safe data (Stays G.A data) (jsonTupleWithCodeGen G data data.length fuel keys legacy) st
      fun _ _ => True := by
  refine .bind (Q := fun _ _ => True) ?_ fun r _ _ => .ite (fun _ => .pure trivial) fun _ =>
    .pure trivial
  refine safe_returnIfParseError (safe_consume hlen h.kept) (fun _ _ _ _ => trivial)
    fun _ st₁ ⟨hs, _⟩ he => ?_
  exact .loop (I := fun _ s => Ready data s) (fun _ _ hr => safe_tupleBody hlen hr) fuel
    (hs.kept.ready he)

end

/-! ### Paths -/

section
variable {G : Gen} {A : Arch} {data : Bytes} {H : SpaceCall → Prop} {st : SkipScanner2} {fuel : ℕ}
    (hlen : 0 < data.length)
include hlen

/-- A loop whose body goes on from within the text. -/
theorem safe_whilePeekNe {β : Type} {close : UInt8} {body : β → Scanning (Bool × β)}
    (hb : ∀ b st, Ready data st → Safe data H (body b) st fun r st' => Kept data st' ∧
    (r.1 = true → Ready data st')) (b : β) (h : Ready data st) :
    Safe data H (whilePeekNe data.length close body fuel b) st fun r st' =>
      Kept data st' ∧ (r.1 = true → Ready data st') := by
  refine .loop (I := fun _ s => Ready data s) (fun b st h => ?_) fuel h
  refine .bind (safe_peek hlen h.kept) fun c st₁ ⟨h₁, _⟩ =>
    .ite (fun _ => .pure ⟨h₁.kept, fun _ => h₁.ready h⟩) fun _ => ?_
  refine (hb b st₁ (h₁.ready h)).bind fun r st₂ h₂ => .pure ?_
  obtain ⟨more, b⟩ := r
  cases more with
  | true => exact h₂.2 rfl
  | false => exact ⟨h₂.1, nofun⟩

/-- The end of a round: what may be there is skipped, and without an error the scanner is within the
text. -/
theorem safe_comma {β : Type} {b : β} (h : Kept data st) :
    Safe data H (returnIfParseError (false, b) (skipIfPresent data.length Ch.comma)
      (pure (true, b))) st fun r st' =>
      Kept data st' ∧ (r.1 = true → Ready data st') :=
  safe_returnIfParseError (safe_skipIfPresent hlen (by decide) h) (fun _ _ hs _ => ⟨hs.kept, nofun⟩)
    fun _ _ hs he =>
    .pure ⟨hs.kept, fun _ => hs.kept.ready he⟩

/-- The closing bracket, and the answer. -/
theorem safe_close {α : Type} {c : UInt8} {r a : α} (h : Kept data st) :
    Safe data H (returnIfParseError r (consume data.length c) (pure a)) st fun _ st' => Kept data st' :=
  safe_returnIfParseError (safe_consume hlen h) (fun _ _ hs _ => hs.1.kept) fun _ _ hs _ =>
    .pure hs.1.kept

/-- The opening bracket, and what comes behind it. -/
theorem safe_open {α : Type} {c : UInt8} {r : α} {k : Scanning α} (h : Ready data st)
    (hk : ∀ st', Ready data st' → Safe data H k st' fun _ st'' => Kept data st'') :
    Safe data H (returnIfParseError r (consume data.length c) k) st fun _ st' => Kept data st' :=
  safe_returnIfParseError (safe_consume hlen h.kept) (fun _ _ hs _ => hs.1.kept) fun _ st' hs _ =>
    hk st' (hs.1.ready h)

/-- A value is passed over, and what comes behind it. -/
theorem safe_pass {α : Type} {r : α} {k : Scanning α} {Q : α → SkipScanner2 → Prop} (h : Ready data st)
    (hr : ∀ st', Kept data st' → Q r st') (hk : ∀ st', Ready data st' → Safe data H k st' Q) :
    Safe data H (returnIfParseError r (skipOne A data data.length) k) st Q :=
  safe_returnIfParseError (safe_skipOne hlen h) (fun _ st' hs _ => hr st' (hs.kept fun hf => hf))
    fun _ st' hs he =>
    hk st' ((hs.kept fun hf => hf).ready he)

variable {get : WriteBuffer → Scanning Answer}
  (hget : ∀ wb st, Ready data st → Safe data H (get wb) st fun _ st' => Kept data st')
include hget

theorem safe_eachElement (h : Ready data st) (wb : WriteBuffer) :
    Safe data H (eachElement data.length get fuel wb) st
    fun r st' => Kept data st' ∧ (r.1 = true → Ready data st') :=
  safe_whilePeekNe hlen (fun b st hr => (hget b.2 st hr).bind fun _ _ hk => safe_comma hlen hk) _ h

theorem safe_flattenArray (h : Ready data st) (wb : WriteBuffer) :
    Safe data H (flattenArray data.length get fuel wb) st fun _ st' => Kept data st' := by
  refine safe_open hlen h fun st₁ h₁ => .bind (safe_eachElement hlen hget h₁ wb) fun r st₂ h₂ => ?_
  exact .ite (fun _ => .pure h₂.1) fun _ => safe_close hlen h₂.1

theorem safe_getDoubleWildcard (h : Ready data st) (wb : WriteBuffer) :
    Safe data H (getDoubleWildcard data.length get fuel wb) st fun _ st' => Kept data st' := by
  refine safe_open hlen h fun st₁ h₁ => .bind (safe_eachElement hlen hget h₁ _) fun r st₂ h₂ => ?_
  exact .ite (fun _ => .pure h₂.1) fun _ => safe_close hlen h₂.1

theorem safe_getWildcardQuote (h : Ready data st) (wb : WriteBuffer) :
    Safe data H (getWildcardQuote data.length get fuel wb) st fun _ st' => Kept data st' := by
  refine safe_open hlen h fun st₁ h₁ => .bind (safe_eachElement hlen hget h₁ _) fun r st₂ h₂ => ?_
  exact .ite (fun _ => .pure h₂.1) fun _ => safe_close hlen h₂.1

omit hget in
theorem safe_skipMember (h : Ready data st) :
    Safe data H (skipMember A data data.length) st fun r st' =>
    Kept data st' ∧ (r.1 = true → Ready data st') := by
  refine safe_pass hlen h (fun _ hk => ⟨hk, nofun⟩) fun st₁ h₁ => ?_
  refine safe_returnIfParseError (safe_consume hlen h₁.kept) (fun _ _ hs _ => ⟨hs.1.kept, nofun⟩)
    fun _ st₂ hs _ => ?_
  exact safe_pass hlen (hs.1.ready h₁) (fun _ hk => ⟨hk, nofun⟩) fun st₃ h₃ => safe_comma hlen h₃.kept

theorem safe_getObject (h : Ready data st) (wb : WriteBuffer) :
    Safe data H (getObject A data data.length get fuel wb) st fun _ st' => Kept data st' := by
  refine safe_open hlen h fun st₁ h₁ => .bind (safe_whilePeekNe hlen (fun b st hr => ?_) _ h₁)
    fun r st₂ h₂ => ?_
  · refine .ite (fun _ => ?_) fun _ => ?_
    · refine .bind (safe_whilePeekNe hlen (fun _ st hr => safe_skipMember hlen hr) _ hr)
        fun r st₂ h₂ => .pure h₂
    · have hr' : Ready data { st with isFieldName := true } :=
        ⟨⟨hr.sound.valid, hr.sound.end_le⟩, hr.le⟩
      exact safe_modify ((hget b.2 _ hr').bind fun _ _ hk => safe_comma hlen hk)
  · exact .ite (fun _ => .pure h₂.1) fun _ => safe_close hlen h₂.1

theorem safe_wildcardBody (h : Kept data st) (b : ℕ × WriteBuffer) :
    Safe data H (wildcardBody A data data.length get b) st
    fun r st' => r.elim (fun _ => Kept data st') fun _ => Kept data st' := by
  have next : ∀ {st b}, Kept data st →
      Safe data H (returnIfParseError (.inr (false, b)) (skipIfPresent data.length Ch.comma)
      (pure (.inl b)) : Scanning ((ℕ × WriteBuffer) ⊕ (Bool × ℕ × WriteBuffer))) st
      fun r st' => r.elim (fun _ => Kept data st') fun _ => Kept data st' := fun h =>
    safe_returnIfParseError (safe_skipIfPresent hlen (by decide) h) (fun _ _ hs _ => hs.kept)
      fun _ _ hs _ => .pure hs.kept
  refine safe_get (.ite (fun _ => .pure h) fun hlt => ?_)
  have hr : Ready data st := ⟨h.sound, (not_le.mp hlt).le⟩
  refine .bind (safe_peek hlen h) fun c st₁ ⟨h₁, _⟩ => .ite (fun _ => .pure h₁.kept) fun _ =>
    safe_get ?_
  have hr₁ := h₁.ready hr
  refine (hget b.2 st₁ hr₁).bind fun r st₂ h₂ => safe_get (.ite (fun hpos => ?_) fun _ => next h₂)
  exact safe_pass hlen ⟨h₂.sound, hpos ▸ hr₁.le⟩ (fun _ hk => hk) fun st₃ h₃ => next h₃.kept

theorem safe_getWildcard (h : Ready data st) (wb : WriteBuffer) :
    Safe data H (getWildcard G data data.length get fuel wb) st fun _ st' => Kept data st' := by
  refine safe_open hlen h fun st₁ h₁ => ?_
  refine .bind (.loop (Q := fun _ s => Kept data s) (I := fun _ s => Kept data s)
    (fun b st hk => safe_wildcardBody hlen hget hk b) fuel h₁.kept) fun r st₂ h₂ => ?_
  refine .ite (fun _ => .pure h₂) fun _ =>
    safe_get (.ite (fun _ => safe_modify (.pure (h₂.setError (by decide)))) fun _ => ?_)
  refine safe_returnIfParseError (safe_consume hlen h₂) (fun _ _ hs _ => hs.1.kept) fun _ st₃ hs _ => ?_
  refine .ite (fun _ => .pure hs.1.kept) fun _ => .ite (fun _ => ?_) fun _ => .pure hs.1.kept
  split
  · exact safe_modify (.pure (hs.1.kept.setError (by decide)))
  · exact .pure hs.1.kept

omit hget in
theorem safe_skipElements (h : Kept data st) : Safe data H (skipElements G data data.length fuel) st
    fun _ st' => Kept data st' := by
  refine .loop (Q := fun _ s => Kept data s) (I := fun _ s => Kept data s) (fun b st h => ?_) fuel h
  refine .bind (safe_peek hlen h) fun c st₁ ⟨h₁, _⟩ => .ite (fun _ => .pure h₁.kept) fun _ => ?_
  refine safe_returnIfParseError (safe_skipIfPresent hlen (by decide) h₁.kept)
    (fun _ _ hs _ => hs.kept) fun _ st₂ hs he => ?_
  have hr := hs.kept.ready he
  refine .bind (safe_peek hlen hr.kept) fun c st₃ ⟨h₃, _⟩ => .ite (fun _ => .pure h₃.kept) fun _ => ?_
  exact safe_pass hlen (h₃.ready hr) (fun _ hk => hk) fun _ hr => .pure hr.kept

theorem safe_getJsonPathArrayIndex (h : Ready data st) (idx : ℤ) (wb : WriteBuffer) :
    Safe data H (getJsonPathArrayIndex G data data.length get idx fuel wb) st fun _ st' =>
      Kept data st' := by
  refine safe_open hlen h fun st₁ h₁ => ?_
  refine .bind (.loop (Q := fun _ s => Kept data s) (I := fun _ s => Ready data s)
    (fun i st h => ?_) fuel h₁) fun r st₂ h₂ =>
    .ite (fun _ => .pure h₂) fun _ => safe_close hlen h₂
  refine .bind (safe_peek hlen h.kept) fun c st₁ ⟨h₁, _⟩ => .ite (fun _ => .pure h₁.kept) fun _ => ?_
  refine .ite (fun _ => ?_) fun _ => ?_
  · refine (hget wb st₁ (h₁.ready h)).bind fun r st₂ h₂ => ?_
    exact .bind (safe_skipElements hlen h₂) fun _ _ h₃ => .pure h₃
  · refine safe_pass hlen (h₁.ready h) (fun _ hk => hk) fun st₂ h₂ => ?_
    exact safe_returnIfParseError (safe_skipIfPresent hlen (by decide) h₂.kept)
      (fun _ _ hs _ => hs.kept) fun _ _ hs he =>
      .pure (hs.kept.ready he)

omit hlen hget in
/-- What is taken is written, or an error is set. -/
theorem safe_written {x : Option WriteBuffer} {wb : WriteBuffer} (h : Kept data st) :
    Safe data H (match x with
    | none => do
      setError .kParseErrorUnexpect
      pure (false, wb)
    | some wb => pure (true, wb) : Scanning Answer) st fun _ st' => Kept data st' := by
  cases x with
  | none => exact safe_modify (.pure (h.setError (by decide)))
  | some wb => exact .pure h

omit hget in
theorem safe_copyValue (h : Ready data st) (wb : WriteBuffer) :
    Safe data H (copyValue G data data.length wb) st
    fun _ st' => Kept data st' := by
  refine .bind (safe_getOne hlen h) fun sv st₁ h₁ =>
    .bind (safe_hasError (Q := fun _ s => Kept data s) h₁) fun _ _ hk => ?_
  exact .ite (fun _ => .pure hk) fun _ => safe_written hk

omit hget in
theorem safe_copyRaw (h : Ready data st) (wb : WriteBuffer) :
    Safe data H (copyRaw G data data.length wb) st
    fun _ st' => Kept data st' := by
  refine .bind (safe_getOne hlen h) fun sv st₁ h₁ =>
    .bind (safe_hasError (Q := fun _ s => Kept data s) h₁) fun _ _ hk => ?_
  exact .ite (fun _ => .pure hk) fun _ => safe_written hk

theorem safe_getMember (h : Ready data st) (key : Bytes) (wb : WriteBuffer) :
    Safe data H (getMember G data data.length get fuel key wb) st fun _ st' => Kept data st' := by
  refine .bind (safe_advanceKey hlen h) fun found st₁ h₁ => ?_
  refine .bind (safe_hasError (Q := fun e s => e = (st₁.error_ != .kErrorNone) ∧ s = st₁)
    ⟨rfl, rfl⟩) fun e s he => ?_
  obtain ⟨rfl, rfl⟩ := he
  refine .ite (fun _ => .pure h₁) fun he => .ite (fun _ => ?_) fun _ => .pure h₁
  have hr := h₁.ready (by simpa using he)
  refine .bind (safe_peek hlen hr.kept) fun c st₂ ⟨h₂, _⟩ =>
    .ite (fun _ => hget wb st₂ (h₂.ready hr)) fun _ => ?_
  exact safe_pass hlen (h₂.ready hr) (fun _ hk => hk) fun _ hr => .pure hr.kept

omit hget in
theorem safe_skipContainer (h : Ready data st) (c : UInt8) (wb : WriteBuffer) :
    Safe data H (skipContainer G data data.length fuel c wb) st fun _ st' => Kept data st' := by
  refine .ite (fun _ => ?_) fun _ => .ite (fun _ => ?_) fun _ => .pure h.kept
  · refine safe_open hlen h fun st₁ h₁ =>
      .bind (safe_whilePeekNe hlen (fun b st hr => safe_get ?_) _ h₁) fun r st₂ h₂ =>
      .ite (fun _ => .pure h₂.1) fun _ => safe_close hlen h₂.1
    have hle := @le_SkipString G.A data data.length st.pos_
    have hin := SkipString_le (A := G.A) hr.le
    rcases hskip : SkipString G.A data st.pos_ data.length with ⟨status, pos⟩
    rw [hskip] at hle hin
    dsimp only at hle hin ⊢
    refine safe_modify (.ite (fun _ => ?_) fun hs => ?_)
    · refine safe_modify (.pure ⟨?_, nofun⟩)
      exact ⟨⟨(hr.sound.move hle).valid, hr.sound.end_le⟩, .inr nofun⟩
    · have hr' : Ready data { st with pos_ := pos } := ⟨hr.sound.move hle, hin hs⟩
      refine safe_returnIfParseError (safe_consume hlen hr'.kept)
        (fun _ _ hs _ => ⟨hs.1.kept, nofun⟩) fun _ st₂ hs _ => ?_
      exact safe_pass hlen (hs.1.ready hr') (fun _ hk => ⟨hk, nofun⟩) fun st₃ h₃ =>
        safe_comma hlen h₃.kept
  · refine safe_open hlen h fun st₁ h₁ => .bind (safe_whilePeekNe hlen (fun b st hr => ?_) _ h₁)
      fun r st₂ h₂ =>
      .ite (fun _ => .pure h₂.1) fun _ => safe_close hlen h₂.1
    exact safe_pass hlen hr (fun _ hk => ⟨hk, nofun⟩) fun st₃ h₃ => safe_comma hlen h₃.kept

end

section
variable {G : Gen} {data : Bytes} {H : SpaceCall → Prop} (hlen : 0 < data.length) {fuel : ℕ}
  {go : WriteStyle → ℕ → WriteBuffer → Scanning Answer}
  (hgo : ∀ style index wb st, Ready data st → Safe data H (go style index wb) st fun _ st' =>
    Kept data st')
include hlen hgo

theorem safe_getEnd {st : SkipScanner2} (h : Ready data st) (style : WriteStyle) (index : ℕ)
    (c : UInt8) (value_string : Bool) (wb : WriteBuffer) :
    Safe data H (getEnd G data data.length go fuel style index c value_string wb) st
      fun _ st' => Kept data st' := by
  refine .ite (fun _ => safe_copyRaw hlen h wb) fun _ => .ite (fun _ => ?_) fun _ =>
    safe_copyValue hlen h wb
  exact safe_flattenArray hlen (hgo _ _) h wb

theorem safe_getStep {st : SkipScanner2} (h : Ready data st) (style : WriteStyle) (path : JsonPath)
    (index : ℕ) (c : UInt8) (field_name : Bool) (wb : WriteBuffer) (node : JsonPathNode) :
    Safe data H (getStep G data data.length go fuel style path index c field_name wb node) st
      fun _ st' => Kept data st' := by
  have skip : ∀ {c wb}, Safe data H (skipContainer G data data.length fuel c wb) st fun _ st' =>
    Kept data st' :=
    safe_skipContainer hlen h _ _
  cases node with
  | root => exact skip
  | key key =>
    refine .ite (fun _ => safe_getObject hlen (hgo _ _) h wb) fun _ => .ite (fun _ => ?_) fun _ => skip
    exact safe_getMember hlen (hgo _ _) h key wb
  | index i => exact .ite (fun _ => safe_getJsonPathArrayIndex hlen (hgo _ _) h i wb) fun _ => skip
  | wildcard =>
    refine .ite (fun _ => .ite (fun _ => ?_) fun _ => .ite (fun _ => ?_) fun _ => ?_) fun _ =>
      .ite (fun _ => ?_) fun _ => skip
    · exact safe_getDoubleWildcard hlen (hgo _ _) h wb
    · exact safe_getWildcard hlen (hgo _ _) h wb
    · exact safe_getWildcardQuote hlen (hgo _ _) h wb
    · refine safe_pass hlen h (fun _ hk => hk) fun st₁ h₁ => ?_
      exact safe_open hlen h₁ fun st₂ h₂ => hgo _ _ wb st₂ h₂

theorem safe_getJsonPathBody {st : SkipScanner2} (h : Ready data st) (style : WriteStyle)
    (path : JsonPath) (index : ℕ) (wb : WriteBuffer) :
    Safe data H (getJsonPathBody G data data.length go fuel style path index wb) st
      fun _ st' => Kept data st' := by
  refine .bind (safe_peek hlen h.kept) fun c st₁ ⟨h₁, _⟩ => ?_
  have hr₁ := h₁.ready h
  refine .bind (safe_get (safe_modify (.pure ?_)) : Safe data H getAndClearIsFieldName st₁
    fun _ s => Ready data s)
    fun is_field_name st₂ hr₂ => ?_
  · exact ⟨⟨hr₁.sound.valid, hr₁.sound.end_le⟩, hr₁.le⟩
  refine .ite (fun _ => safe_modify (.pure (hr₂.kept.setError (by decide)))) fun _ => ?_
  cases path[index]? with
  | none => exact safe_getEnd hlen hgo hr₂ _ _ _ _ _
  | some node =>
    refine .ite (fun _ => ?_) fun _ => .ite (fun _ => ?_) fun _ =>
      safe_getStep hlen hgo hr₂ _ _ _ _ _ _ _
    · exact safe_pass hlen hr₂ (fun _ hk => hk) fun _ hr => .pure hr.kept
    · exact safe_pass hlen hr₂ (fun _ hk => hk) fun _ hr => .pure hr.kept

end

theorem safe_getJsonPath {G : Gen} {data : Bytes} {H : SpaceCall → Prop} (hlen : 0 < data.length)
    (path : JsonPath) :
    ∀ (fuel : ℕ) (style : WriteStyle) (index : ℕ) (wb : WriteBuffer) (st : SkipScanner2),
      Ready data st →
      Safe data H (getJsonPath G data data.length path fuel style index wb) st fun _ st' =>
        Kept data st'
  | 0, _, _, _, _, _ => .out
  | fuel + 1, style, index, wb, _, h =>
    safe_getJsonPathBody hlen (safe_getJsonPath hlen path fuel) h style path index wb

end SkipScanner2

end SonicJson
