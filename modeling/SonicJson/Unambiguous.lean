/-
# The grammar is unambiguous

A text begins with one value at most that is followed by the end of the text,
whitespace, a comma or a closing bracket (`Der.unique`): what a text means and
where it ends are functions of its bytes (`JsonText.unique`).
-/
import SonicJson.Unescape
import SonicJson.SkipOne

namespace SonicJson

variable {s t t' : Bytes}

/-- A byte that follows a value is no byte of a number. -/
theorem not_numByte_follow {b : UInt8} {r : Bytes} (h : Follow (b :: r)) : ¬ NumByte b := by
  intro hn
  rcases h with h | rfl | rfl | rfl
  · rcases hn with hd | hn
    · rw [not_isSpace_of_digit hd] at h
      exact absurd h (by decide)
    · rcases hn with rfl | rfl | rfl | rfl | rfl <;> revert h <;> decide
  all_goals exact absurd (tokens_num hn) (by decide)

/-- Two number tokens in one place are one token. -/
theorem NumTok.unique {tok tok' : Bytes} (h : NumTok tok) (h' : NumTok tok')
    (he : tok ++ t = tok' ++ t') (ht : Follow t) (ht' : Follow t') : tok = tok' ∧ t = t' := by
  -- a longer token goes on with a byte that follows the shorter one
  have longer : ∀ {tok tok' t t' a : Bytes}, NumTok tok' → Follow t → tok' = tok ++ a →
      t = a ++ t' → a = [] := by
    rintro tok tok' t t' (_ | ⟨b, a⟩) h' ht rfl rfl
    · rfl
    · exact absurd (h'.bytes b (by simp)) (not_numByte_follow ht)
  rcases List.append_eq_append_iff.mp he with ⟨a, h1, h2⟩ | ⟨a, h1, h2⟩
  · obtain rfl := longer h' ht h1 h2
    exact ⟨by simpa using h1.symm, by simpa using h2⟩
  · obtain rfl := longer h ht' h1 h2
    exact ⟨by simpa using h1, by simpa using h2.symm⟩

section
variable {v v' : Json} {b : UInt8}

theorem Der.null_inv (h : Der s (.val .null) t) : s = kNull ++ t := by
  cases h
  rfl

theorem Der.bool_inv {x : Bool} (h : Der s (.val (.bool x)) t) :
    s = (if x then kTrue else kFalse) ++ t := by
  cases h <;> rfl

theorem Der.num_inv {tok : Bytes} (h : Der s (.val (.num tok)) t) : s = tok ++ t ∧ NumTok tok := by
  cases h with
  | num h => exact ⟨rfl, h⟩

theorem Der.str_inv {body : Bytes} (h : Der s (.val (.str body)) t) :
    ∃ r, s = Ch.quote :: r ∧ StrBody r body t := by
  cases h with
  | str h => exact ⟨_, rfl, h⟩

/-- The first byte decides the kind of a value. -/
theorem Json.eq_of_starts_null (h : v.Starts Ch.n) : v = .null := by
  cases v with
  | null => rfl
  | bool x => cases x <;> exact absurd h (by simp only [Json.Starts]; decide)
  | _ => exact absurd h (by simp only [Json.Starts]; decide)

theorem Json.eq_of_starts_true (h : v.Starts Ch.t) : v = .bool true := by
  cases v with
  | bool x =>
    cases x with
    | true => rfl
    | false => exact absurd h (by simp only [Json.Starts]; decide)
  | _ => exact absurd h (by simp only [Json.Starts]; decide)

theorem Json.eq_of_starts_false (h : v.Starts Ch.f) : v = .bool false := by
  cases v with
  | bool x =>
    cases x with
    | true => exact absurd h (by simp only [Json.Starts]; decide)
    | false => rfl
  | _ => exact absurd h (by simp only [Json.Starts]; decide)

theorem Json.eq_of_starts_str (h : v.Starts Ch.quote) : ∃ body, v = .str body := by
  cases v with
  | str body => exact ⟨body, rfl⟩
  | bool x => cases x <;> exact absurd h (by simp only [Json.Starts]; decide)
  | _ => exact absurd h (by simp only [Json.Starts]; decide)

theorem Json.eq_of_starts_num (h : v.Starts b) (hb : b = Ch.minus ∨ is_digit b = true) :
    ∃ tok, v = .num tok := by
  have ne : ∀ {c : UInt8}, b = c → ¬ (c = Ch.minus ∨ is_digit c = true) → ∃ tok, v = .num tok :=
    fun h hc => absurd (h ▸ hb) hc
  cases v with
  | num tok => exact ⟨tok, rfl⟩
  | bool x => cases x <;> exact ne h (by decide)
  | null => exact ne h (by decide)
  | str _ => exact ne h (by decide)
  | arr _ => exact ne h (by decide)
  | obj _ => exact ne h (by decide)

end

/-- What two readings of one text have in common. -/
def Item.Agree : Item → Bytes → Item → Bytes → Prop
  | .val v, t, .val v', t' => Follow t → Follow t' → v = v' ∧ t = t'
  | .elems vs, t, .elems vs', t' => vs = vs' ∧ t = t'
  | .mems ms, t, .mems ms', t' => ms = ms' ∧ t = t'
  | _, _, _, _ => True

/-- Whitespace ends in one place. -/
theorem Ws.unique {r r' : Bytes} {b b' : UInt8} (h : Ws s (b :: r)) (h' : Ws s (b' :: r'))
    (hb : IsSpace b = false) (hb' : IsSpace b' = false) : b = b' ∧ r = r' := by
  have he := (h.dropWhile_eq hb).symm.trans (h'.dropWhile_eq hb')
  exact ⟨(List.cons.inj he).1, (List.cons.inj he).2⟩

/-- Two values behind the same whitespace begin in one place. -/
theorem Der.unique_start {s₁ s₁' t t' : Bytes} {v v' : Json} (hw : Ws s s₁) (hd : Der s₁ (.val v) t)
    (hw' : Ws s s₁') (hd' : Der s₁' (.val v') t') : s₁ = s₁' := by
  obtain ⟨b, r, rfl, hb⟩ := hd.starts
  obtain ⟨b', r', rfl, hb'⟩ := hd'.starts
  obtain ⟨rfl, rfl⟩ := hw.unique hw' hb.not_isSpace hb'.not_isSpace
  rfl

/-- Two members in one place have one name, and their values begin in one place. -/
theorem Der.unique_member {s₁ s₁' s₂ s₂' s₃ s₃' s₄ s₄' k k' : Bytes} {v v' : Json}
    (hw : Ws s (Ch.quote :: s₁)) (hk : StrBody s₁ k s₂) (h2 : Ws s₂ (Ch.colon :: s₃))
    (h3 : Ws s₃ s₄) (hd : Der s₄ (.val v) t) (hw' : Ws s (Ch.quote :: s₁'))
    (hk' : StrBody s₁' k' s₂') (h2' : Ws s₂' (Ch.colon :: s₃')) (h3' : Ws s₃' s₄')
    (hd' : Der s₄' (.val v') t') : k = k' ∧ s₄ = s₄' := by
  obtain ⟨-, rfl⟩ := hw.unique hw' (by decide) (by decide)
  obtain ⟨rfl, rfl⟩ := hk.unique hk'
  obtain ⟨-, rfl⟩ := h2.unique h2' (by decide) (by decide)
  exact ⟨rfl, hd.unique_start h3 h3' hd'⟩

/-- **The grammar is unambiguous**: by induction on one of the readings. -/
theorem Der.agree {it : Item} (h : Der s it t) :
    ∀ {it' : Item} {t' : Bytes}, Der s it' t' → it.Agree t it' t' := by
  induction h with
  | null =>
    rintro (v' | _ | _) t' h' <;> try trivial
    intro _ _
    obtain ⟨b, r, he, hb⟩ := h'.starts
    obtain ⟨rfl, -⟩ := List.cons.inj he
    obtain rfl := Json.eq_of_starts_null hb
    exact ⟨rfl, List.append_cancel_left h'.null_inv⟩
  | true =>
    rintro (v' | _ | _) t' h' <;> try trivial
    intro _ _
    obtain ⟨b, r, he, hb⟩ := h'.starts
    obtain ⟨rfl, -⟩ := List.cons.inj he
    obtain rfl := Json.eq_of_starts_true hb
    exact ⟨rfl, List.append_cancel_left h'.bool_inv⟩
  | false =>
    rintro (v' | _ | _) t' h' <;> try trivial
    intro _ _
    obtain ⟨b, r, he, hb⟩ := h'.starts
    obtain ⟨rfl, -⟩ := List.cons.inj he
    obtain rfl := Json.eq_of_starts_false hb
    exact ⟨rfl, List.append_cancel_left h'.bool_inv⟩
  | num htok =>
    rintro (v' | _ | _) t' h' <;> try trivial
    intro ht ht'
    obtain ⟨b, r, he, hb⟩ := h'.starts
    obtain ⟨tok', rfl⟩ := Json.eq_of_starts_num hb (htok.head_append he.symm)
    obtain ⟨he', htok'⟩ := h'.num_inv
    obtain ⟨rfl, rfl⟩ := htok.unique htok' he' ht ht'
    exact ⟨rfl, rfl⟩
  | str hb =>
    rintro (v' | _ | _) t' h' <;> try trivial
    intro _ _
    obtain ⟨b, r, he, hst⟩ := h'.starts
    obtain ⟨rfl, -⟩ := List.cons.inj he
    obtain ⟨body', rfl⟩ := Json.eq_of_starts_str hst
    obtain ⟨r', he', hb'⟩ := h'.str_inv
    obtain ⟨-, rfl⟩ := List.cons.inj he'
    obtain ⟨rfl, rfl⟩ := hb.unique hb'
    exact ⟨rfl, rfl⟩
  | arrNil hw =>
    rintro (v' | _ | _) t' h' <;> try trivial
    intro _ _
    obtain ⟨vs', rfl, ⟨rfl, hw'⟩ | he⟩ := h'.array_inv
    · exact ⟨rfl, (hw.unique hw' (by decide) (by decide)).2⟩
    · obtain ⟨c, u, hu, hc⟩ := he.elems_starts
      rw [hw.dropWhile_eq (by decide)] at hu
      exact absurd (List.cons.inj hu).1.symm hc
  | arr hd ih =>
    rintro (v' | _ | _) t' h' <;> try trivial
    intro _ _
    obtain ⟨vs', rfl, ⟨rfl, hw'⟩ | he⟩ := h'.array_inv
    · obtain ⟨c, u, hu, hc⟩ := hd.elems_starts
      rw [hw'.dropWhile_eq (by decide)] at hu
      exact absurd (List.cons.inj hu).1.symm hc
    · obtain ⟨rfl, h1⟩ := ih he
      exact ⟨rfl, (List.cons.inj h1).2⟩
  | objNil hw =>
    rintro (v' | _ | _) t' h' <;> try trivial
    intro _ _
    obtain ⟨ms', rfl, ⟨rfl, hw'⟩ | he⟩ := h'.object_inv
    · exact ⟨rfl, (hw.unique hw' (by decide) (by decide)).2⟩
    · obtain ⟨u, hu⟩ := he.mems_starts
      rw [hw.dropWhile_eq (by decide)] at hu
      exact absurd (List.cons.inj hu).1 (by decide)
  | obj hd ih =>
    rintro (v' | _ | _) t' h' <;> try trivial
    intro _ _
    obtain ⟨ms', rfl, ⟨rfl, hw'⟩ | he⟩ := h'.object_inv
    · obtain ⟨u, hu⟩ := hd.mems_starts
      rw [hw'.dropWhile_eq (by decide)] at hu
      exact absurd (List.cons.inj hu).1 (by decide)
    · obtain ⟨rfl, h1⟩ := ih he
      exact ⟨rfl, (List.cons.inj h1).2⟩
  | elemLast hw hd hw₂ ih =>
    rintro (_ | vs' | _) t' h' <;> try trivial
    cases h' with
    | elemLast hw' hd' hw₂' =>
      obtain rfl := hd.unique_start hw hw' hd'
      obtain ⟨rfl, rfl⟩ := ih hd' (hw₂.follow (follow_rbrack _)) (hw₂'.follow (follow_rbrack _))
      obtain ⟨-, rfl⟩ := hw₂.unique hw₂' (by decide) (by decide)
      exact ⟨rfl, rfl⟩
    | elemCons hw' hd' hw₂' _ =>
      obtain rfl := hd.unique_start hw hw' hd'
      obtain ⟨rfl, rfl⟩ := ih hd' (hw₂.follow (follow_rbrack _)) (hw₂'.follow (follow_comma _))
      exact absurd (hw₂.unique hw₂' (by decide) (by decide)).1 (by decide)
  | elemCons hw hd hw₂ _ ih ih₂ =>
    rintro (_ | vs' | _) t' h' <;> try trivial
    cases h' with
    | elemLast hw' hd' hw₂' =>
      obtain rfl := hd.unique_start hw hw' hd'
      obtain ⟨rfl, rfl⟩ := ih hd' (hw₂.follow (follow_comma _)) (hw₂'.follow (follow_rbrack _))
      exact absurd (hw₂.unique hw₂' (by decide) (by decide)).1 (by decide)
    | elemCons hw' hd' hw₂' hr' =>
      obtain rfl := hd.unique_start hw hw' hd'
      obtain ⟨rfl, rfl⟩ := ih hd' (hw₂.follow (follow_comma _)) (hw₂'.follow (follow_comma _))
      obtain ⟨-, rfl⟩ := hw₂.unique hw₂' (by decide) (by decide)
      obtain ⟨rfl, rfl⟩ := ih₂ hr'
      exact ⟨rfl, rfl⟩
  | memLast hw hk h2 h3 hd h4 ih =>
    rintro (_ | _ | ms') t' h' <;> try trivial
    cases h' with
    | memLast hw' hk' h2' h3' hd' h4' =>
      obtain ⟨rfl, rfl⟩ := hd.unique_member hw hk h2 h3 hw' hk' h2' h3' hd'
      obtain ⟨rfl, rfl⟩ := ih hd' (h4.follow (follow_rbrace _)) (h4'.follow (follow_rbrace _))
      obtain ⟨-, rfl⟩ := h4.unique h4' (by decide) (by decide)
      exact ⟨rfl, rfl⟩
    | memCons hw' hk' h2' h3' hd' h4' _ =>
      obtain ⟨rfl, rfl⟩ := hd.unique_member hw hk h2 h3 hw' hk' h2' h3' hd'
      obtain ⟨rfl, rfl⟩ := ih hd' (h4.follow (follow_rbrace _)) (h4'.follow (follow_comma _))
      exact absurd (h4.unique h4' (by decide) (by decide)).1 (by decide)
  | memCons hw hk h2 h3 hd h4 _ ih ih₂ =>
    rintro (_ | _ | ms') t' h' <;> try trivial
    cases h' with
    | memLast hw' hk' h2' h3' hd' h4' =>
      obtain ⟨rfl, rfl⟩ := hd.unique_member hw hk h2 h3 hw' hk' h2' h3' hd'
      obtain ⟨rfl, rfl⟩ := ih hd' (h4.follow (follow_comma _)) (h4'.follow (follow_rbrace _))
      exact absurd (h4.unique h4' (by decide) (by decide)).1 (by decide)
    | memCons hw' hk' h2' h3' hd' h4' hr' =>
      obtain ⟨rfl, rfl⟩ := hd.unique_member hw hk h2 h3 hw' hk' h2' h3' hd'
      obtain ⟨rfl, rfl⟩ := ih hd' (h4.follow (follow_comma _)) (h4'.follow (follow_comma _))
      obtain ⟨-, rfl⟩ := h4.unique h4' (by decide) (by decide)
      obtain ⟨rfl, rfl⟩ := ih₂ hr'
      exact ⟨rfl, rfl⟩

theorem Der.unique {v v' : Json} (h : Der s (.val v) t) (h' : Der s (.val v') t') (ht : Follow t)
    (ht' : Follow t') :
    v = v' ∧ t = t' := h.agree h' ht ht'

/-- **A text has one meaning.** -/
theorem JsonText.unique {v v' : Json} (h : JsonText s v) (h' : JsonText s v') : v = v' := by
  obtain ⟨s₁, s₂, hw, hd, ht⟩ := h
  obtain ⟨s₁', s₂', hw', hd', ht'⟩ := h'
  obtain rfl := hd.unique_start hw hw' hd'
  exact (hd.unique hd' (ht.follow trivial) (ht'.follow trivial)).1

end SonicJson
