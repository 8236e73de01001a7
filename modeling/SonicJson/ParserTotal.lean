/-
# The parser ends

Every step either ends the run, reads the `x` of the padding, after which the next
step ends it, or leaves less of the text. So the steps that `parseImpl` takes are
fewer than the bytes of the buffer, whatever the text and the handler.
-/
import SonicJson.Agree
import SonicJson.ParserSound

namespace SonicJson

open Cursor Machine

theorem skip_space_safe_bounds {data s : Bytes} {len pos : ℕ} {k : SpaceBits}
    (h : Scan data len pos k s) :
    ∃ c p' k' s', skip_space_safe data pos len k = (c, p', k') ∧ Scan data len p' k' s' ∧ pos ≤ p' := by
  have hl := h.left.length_add
  cases hs : s.dropWhile IsSpace with
  | nil =>
    obtain ⟨k', h1, h2⟩ := h.skip_space_end hs
    exact ⟨_, len, k', [], h1, h2, by omega⟩
  | cons c t =>
    obtain ⟨p', k', h1, h2, h3⟩ := h.skip_space hs
    exact ⟨c, p', k', t, h1, h2, h3.le⟩

/-- On any text `SkipOne` moves forward, and what it remembers of spaces stays true. -/
theorem SkipOne_bounds {A : Arch} {data s : Bytes} {len pos : ℕ} {k : SpaceBits}
    (h : Scan data len pos k s) :
    pos ≤ (SkipOne A data pos len k).2.1 ∧
      (SkipOne A data pos len k).2.2.Valid data (SkipOne A data pos len k).2.1 := by
  obtain ⟨c, p', k', s', h1, h2, h3⟩ := skip_space_safe_bounds h
  have h4 := le_skipValue A data p' len c
  simp only [SkipOne, h1]
  exact ⟨h3.trans h4, h2.valid.mono h4⟩

theorem dropWhile_not_head {tokens s : Bytes} {c : UInt8} {t : Bytes}
    (h : (s.dropWhile fun b => !tokens.contains b) = c :: t) : tokens.contains c = true := by
  have := List.head?_dropWhile_not (fun b => !tokens.contains b) s
  rw [h] at this
  simpa using this

namespace Parser

variable {σ : Type*} {E : Env σ} {p : Parser σ} {pad r s t : Bytes} {b : UInt8}
    {cont lbl : Label} {m : ℕ}

/-- The run has ended, or it ends with the next step, or fewer than `m` bytes of the text are left. -/
def Goes (pad : Bytes) (m : ℕ) (a : Label × Parser σ) : Prop :=
  a.1 = .doc_end ∨ a.2.c = Ch.x ∨ ∃ b r, Got a.2 pad b r ∧ r.length < m

theorem goes_check_err {f : Parser σ → Label × Parser σ} (h : p.err_ = .kErrorNone → Goes pad m (f p)) :
    Goes pad m (p.sonic_check_err f) := by
  rw [sonic_check_err]
  split
  · exact .inl rfl
  · exact h (not_not.mp ‹_›)

theorem goes_sax_check {f : Parser σ → Label × Parser σ} {x : Bool × Parser σ}
    (h : Goes pad m (f x.2)) :
    Goes pad m (sonic_sax_check x f) := by
  rw [sonic_sax_check]
  split
  exacts [h, .inl rfl]

section
variable (hpad : Sentinel pad)
include hpad

theorem goes_SkipSpace (h : OnText p pad s) (hm : s.length ≤ m) : Goes pad m (lbl, p.SkipSpace) := by
  cases hs : s.dropWhile IsSpace with
  | nil =>
    obtain ⟨r, hr⟩ := hpad.dropWhile
    exact .inr (.inl (h.toReads.SkipSpace ((append_dropWhile_nil hs pad).trans hr)).2.1)
  | cons b t =>
    refine .inr (.inr ⟨b, t, h.SkipSpace hs, ?_⟩)
    have := (List.dropWhile_suffix IsSpace (l := s)).length_le
    rw [hs, List.length_cons] at this
    omega

theorem goes_scope_end (h : OnText p pad s) (hm : s.length ≤ m) : Goes pad m p.scope_end := by
  refine goes_check_err fun _ => ?_
  dsimp only
  split
  · exact .inl rfl
  · exact goes_SkipSpace hpad (h.setDepth _) hm

/-- The end of a container is found at once, or not. -/
theorem goes_first {c : UInt8} {f : σ → Bool × σ} (h : OnText p pad s) (hm : s.length ≤ m)
    (hx : c ≠ Ch.x) :
    Goes pad m (if p.SkipSpace.c = c then sonic_sax_check (p.SkipSpace.call f) scope_end
      else (lbl, p.SkipSpace)) := by
  split
  · rename_i hc
    obtain ⟨t, hw, hg⟩ := h.SkipSpace_inv hpad hc hx
    have := hw.suffix.length_le
    simp only [List.length_cons] at this
    exact goes_sax_check (goes_scope_end hpad (hg.call f) (by omega))
  · exact goes_SkipSpace hpad h hm

theorem goes_start_object (h : OnText p pad s) (hm : s.length ≤ m) : Goes pad m (p.start_object E) :=
  goes_sax_check (goes_first hpad ((h.call _).setDepth _) hm (by decide))

theorem goes_start_array (h : OnText p pad s) (hm : s.length ≤ m) : Goes pad m (p.start_array E) :=
  goes_sax_check (goes_first hpad ((h.call _).setDepth _) hm (by decide))

omit hpad in
/-- The parser behind a number that it has accepted. -/
theorem number_onText
    (h : OnText
    { p with pos_ := (SonicJson.parseNumber E.F E.parseFlags p.json_buf_ p.len_ p.pos_).i } pad t)
    (he : (p.parseNumber E).err_ = .kErrorNone) : OnText (p.parseNumber E) pad t := by
  unfold Parser.parseNumber at *
  dsimp only at *
  split at he <;> exact ⟨⟨h.at', h.valid, he⟩, h.length⟩

theorem goes_value_got (h : Got p pad b r) (hm : r.length ≤ m) : Goes pad m (p.value E cont) := by
  have scanned : ∀ {ok : Bool} {q : Parser σ}, Scanned E p (b :: r) pad ok q →
      Goes pad m (cont, q.SkipSpace) := by
    rintro ok q ⟨v, t, hd, ht, -⟩
    have := hd.suffix.2
    simp only [List.length_cons] at this
    exact goes_SkipSpace hpad ht (by omega)
  have literal : ∀ {x : Bool × Parser σ}, (x.2.err_ = .kErrorNone → Scanned E p (b :: r) pad x.1 x.2) →
      Goes pad m (x.2.sonic_check_err fun p =>
        if !x.1 then (.doc_end, p.setParseError .kSaxTermination) else (cont, p.SkipSpace)) := by
    intro x hx
    refine goes_check_err fun he => ?_
    split
    exacts [.inl rfl, scanned (hx he)]
  rw [value, h.c]
  split
  · exact goes_start_object hpad h.toOnText hm
  split
  · exact goes_start_array hpad h.toOnText hm
  split
  · rename_i hd
    obtain ⟨t, ht, hon⟩ := h.number (F := E.F) hpad (by simpa using hd)
    have hle := ht.length_le
    refine goes_check_err fun he => goes_SkipSpace hpad (s := t) ?_ (by omega)
    exact number_onText hon he
  split
  · exact literal (parseTrue_scanned hpad h)
  split
  · rename_i hf
    subst hf
    exact literal (parseFalse_scanned hpad h)
  split
  · exact literal (parseNull_scanned hpad h)
  split
  · refine goes_sax_check (goes_check_err fun he => ?_)
    rcases parseStr_inv hpad h.toOnText he with ⟨k, t, hk⟩ | ⟨u, hu, -⟩
    · obtain ⟨p', e1, e2, -⟩ :=
        @parseStr_done _ E _ _ _ _ _ (fun sv => E.H.primitive (.String sv)) h.toOnText hk
      have := (suffix_of_unescape hk).length_le
      rw [parseStrInPlace, e1]
      exact goes_SkipSpace hpad (e2.call _) (by omega)
    · exact .inr (.inl
        (hu.SkipSpace (b := Ch.x) (t := u) (by rw [List.dropWhile_cons, if_neg (by decide)])).2.1)
  · exact .inl rfl

theorem goes_value (h : OnText p pad s) (hm : s.length ≤ m) :
    Goes pad m (p.SkipSpace.value E cont) := by
  have hg : Goes pad s.length (Label.arr_val, p.SkipSpace) := goes_SkipSpace hpad h le_rfl
  rcases hg with h1 | h1 | ⟨b, r, h1, h2⟩
  · simp at h1
  · refine .inl ?_
    rw [value, show p.SkipSpace.c = Ch.x from h1]
    rfl
  · exact goes_value_got hpad h1 (by omega)

omit hpad in
/-- The token that `GetNextToken` finds is a byte of the text, which has then been read. -/
theorem token_got {tokens : Bytes} {pos : ℕ} {k : SpaceBits} (h : OnText p pad s) (hp : p.pos_ ≤ pos)
    (hk : k.Valid p.json_buf_ pos) :
    (∃ q, GetNextToken E.A p.json_buf_ pos p.len_ tokens = (0, q)) ∨
      ∃ c t, tokens.contains c = true ∧ c :: t <:+ s ∧
        GetNextToken E.A p.json_buf_ pos p.len_ tokens = (c, p.len_ - (t.length + 1)) ∧
        Got { p with pos_ := p.len_ - (t.length + 1) + 1, scan := k, c := c } pad c t := by
  have hl := h.buf.left.length_add
  rcases lt_or_ge pos p.len_ with hlt | hge
  swap
  · exact .inl ⟨pos, GetNextToken_of_ge hge⟩
  have hleft := h.buf.left.drop (i := pos - p.pos_) (by omega)
  rw [show p.pos_ + (pos - p.pos_) = pos by omega] at hleft
  have hsl : (s.drop (pos - p.pos_)).length = p.len_ - pos := by
    rw [List.length_drop]
    omega
  have hs' : s.drop (pos - p.pos_) <:+ s := List.drop_suffix _ _
  generalize s.drop (pos - p.pos_) = s' at hleft hsl hs'
  rw [GetNextToken_eq hleft]
  cases hd : s'.dropWhile (fun b => !tokens.contains b) with
  | nil => exact .inl ⟨_, rfl⟩
  | cons c t =>
    have hsuf : c :: t <:+ s' := hd ▸ List.dropWhile_suffix _
    have hle := hsuf.length_le
    simp only [List.length_cons] at hle
    have hbyte := h.suffix (hsuf.trans hs')
    refine .inr ⟨c, t, dropWhile_not_head hd, hsuf.trans hs', rfl,
      ⟨⟨hbyte.succ, hk.mono ?_, h.err⟩, h.length⟩, rfl, hbyte⟩
    simp only
    omega

theorem goes_skip_key (h : OnText p pad s) (hm : s.length ≤ m) : Goes pad m (p.skip_key E) := by
  obtain ⟨h1, h2⟩ := @SkipOne_bounds E.A _ _ _ _ _ ⟨h.buf.left, h.valid⟩
  rw [skip_key]
  rcases hr : SkipOne E.A p.json_buf_ p.pos_ p.len_ p.scan with ⟨start, pos, k⟩
  rw [hr] at h1 h2
  dsimp only at h1 h2 ⊢
  split
  · exact .inl rfl
  rcases token_got (E := E) h h1 h2 with ⟨q, hq⟩ | ⟨c, t, htok, hsuf, hq, hg⟩
  · rw [hq]
    exact .inl rfl
  · have hlen := hsuf.length_le
    simp only [List.length_cons] at hlen
    rw [hq]
    simp only [List.contains_cons, List.contains_nil, Bool.or_false, Bool.or_eq_true,
      beq_iff_eq] at htok
    rcases htok with rfl | rfl
    · exact .inr (.inr ⟨Ch.quote, t, hg, by omega⟩)
    · exact goes_sax_check (goes_scope_end hpad (hg.call (E.H.EndObject p.back)) (by omega))

theorem goes_obj_key (h : Got p pad b r) (hm : r.length ≤ m) : Goes pad m (p.obj_key E) := by
  rw [obj_key]
  split
  · exact .inl rfl
  refine goes_check_err fun he => ?_
  rcases parseStr_inv hpad h.toOnText he with ⟨key, t, hk⟩ | ⟨u, hu, -⟩
  · obtain ⟨p', e1, e2, -⟩ := @parseStr_done _ E _ _ _ _ _ E.H.Key h.toOnText hk
    have hl := (suffix_of_unescape hk).length_le
    have e3 : p.parseKeyInPlace E = p'.call (E.H.Key key) := e1
    rw [e3]
    by_cases hc : (p'.call (E.H.Key key)).2.SkipSpace.c = Ch.colon
    swap
    · rw [if_pos hc]
      exact .inl rfl
    rw [if_neg (not_not.mpr hc)]
    obtain ⟨s₃, hw, hg⟩ := (e2.call (E.H.Key key)).SkipSpace_inv hpad hc (by decide)
    have hl' := hw.suffix.length_le
    simp only [List.length_cons] at hl'
    split
    · split
      · exact goes_skip_key hpad hg.toOnText (by omega)
      · exact .inl rfl
    · exact goes_value hpad hg.toOnText (by omega)
  · have h5 : (p.parseKeyInPlace E).2.SkipSpace.c = Ch.x :=
      (hu.SkipSpace (b := Ch.x) (t := u) (by rw [List.dropWhile_cons, if_neg (by decide)])).2.1
    rw [if_pos (by rw [h5]; decide)]
    exact .inl rfl

/-- A step on the text leaves less of it. -/
theorem goes_step (hl : lbl ≠ .doc_end) (h : Got p pad b r) :
    ∃ a, step E (lbl, p) = some a ∧ Goes pad r.length a := by
  have hcount : ∀ {f : Parser σ → Label × Parser σ}, (∀ ds, Goes pad r.length (f (p.setDepth ds))) →
      Goes pad r.length (f p.count) := by
    intro f hf
    unfold count
    split
    · exact hf p.depth
    · exact hf _
  cases lbl with
  | obj_key => exact ⟨_, rfl, goes_obj_key hpad h le_rfl⟩
  | obj_cont =>
    refine ⟨_, rfl, ?_⟩
    rw [obj_cont]
    refine hcount (f := fun p => if p.c = Ch.comma then (.obj_key, p.SkipSpace)
      else if p.c ≠ Ch.rbrace then p.err_invalid_char
      else sonic_sax_check (p.call (E.H.EndObject p.back)) scope_end) fun ds => ?_
    have h' := (h.setDepth ds).toOnText
    split
    · exact goes_SkipSpace hpad h' le_rfl
    split
    · exact .inl rfl
    · exact goes_sax_check (goes_scope_end hpad (h'.call _) le_rfl)
  | arr_val => exact ⟨_, rfl, goes_value_got hpad h le_rfl⟩
  | arr_cont =>
    refine ⟨_, rfl, ?_⟩
    rw [arr_cont]
    refine hcount (f := fun p => if p.c = Ch.comma then (.arr_val, p.SkipSpace)
      else if p.c = Ch.rbrack
        then sonic_sax_check (p.call (E.H.EndArray (p.back &&& (kArrMask - 1)))) scope_end
      else p.err_invalid_char) fun ds => ?_
    have h' := (h.setDepth ds).toOnText
    split
    · exact goes_SkipSpace hpad h' le_rfl
    split
    · exact goes_sax_check (goes_scope_end hpad (h'.call _) le_rfl)
    · exact .inl rfl
  | doc_end => exact absurd rfl hl

omit hpad in
/-- The `x` of the padding ends the run. -/
theorem step_x (hl : lbl ≠ .doc_end) (h : p.c = Ch.x) :
    ∃ q, step E (lbl, p) = some (.doc_end, q) ∧ q.sax = p.sax := by
  have hcount : p.count.c = Ch.x ∧ p.count.sax = p.sax := by
    unfold count
    split <;> exact ⟨h, rfl⟩
  cases lbl with
  | obj_key => exact ⟨p.setFirstError .kParseErrorInvalidChar, by rw [step, obj_key, h]; rfl, rfl⟩
  | obj_cont =>
    exact ⟨p.count.setFirstError .kParseErrorInvalidChar, by rw [step, obj_cont, hcount.1]; rfl,
      hcount.2⟩
  | arr_val => exact ⟨p.setFirstError .kParseErrorInvalidChar, by rw [step, value, h]; rfl, rfl⟩
  | arr_cont =>
    exact ⟨p.count.setFirstError .kParseErrorInvalidChar, by rw [step, arr_cont, hcount.1]; rfl,
      hcount.2⟩
  | doc_end => exact absurd rfl hl

theorem Goes.halts {a : Label × Parser σ} (h : Goes pad m a) :
    ∃ n q, Steps (step E) n a (.doc_end, q) ∧ n ≤ m + 1 := by
  induction m using Nat.strong_induction_on generalizing a with
  | _ m ih =>
  obtain ⟨lbl, p⟩ := a
  by_cases hl : lbl = .doc_end
  · subst hl
    exact ⟨0, p, .refl _, by omega⟩
  rcases h with h | h | ⟨b, r, h1, h2⟩
  · exact absurd h hl
  · obtain ⟨q, hq, -⟩ := @step_x _ E p lbl hl h
    exact ⟨1, q, .one hq, by omega⟩
  · obtain ⟨a, ha, hg⟩ := goes_step hpad hl h1
    obtain ⟨n, q, hn, hle⟩ := ih r.length h2 hg
    exact ⟨n + 1, q, .head ha hn, by omega⟩

theorem goes_start (h : OnText p pad s) : Goes pad s.length (p.start E) := by
  rw [start]
  have hg : Goes pad s.length (Label.arr_val, p.SkipSpace) := goes_SkipSpace hpad h le_rfl
  rcases hg with h1 | h1 | ⟨b, r, h1, h2⟩
  · simp at h1
  · refine .inl ?_
    rw [show p.SkipSpace.c = Ch.x from h1]
    rfl
  · split
    · exact goes_start_array hpad h1.toOnText h2.le
    split
    · exact goes_start_object hpad h1.toOnText h2.le
    · exact .inl rfl

/-- **The run ends** within the steps that `parseImpl` takes. -/
theorem parseImpl_isSome (h : OnText p pad s) :
    ∃ n q, Steps (step E) n (p.start E) (.doc_end, q) ∧ p.parseImpl E = some q := by
  obtain ⟨n, q, h1, h2⟩ := (goes_start hpad h).halts hpad
  refine ⟨n, q, h1, ?_⟩
  have hl := h.buf.left.length_add
  have hle := h.buf.left.le
  rw [parseImpl, run_of_steps h1 rfl (by omega)]
  rfl

end

end Parser

end SonicJson
