/-
# The update of a text is a merge

The loop over the members of the source puts them into the target one by one, which is the
merge of two lists of pairs (`LazyUpdate.updateMembers_merge`). What is printed in the end
denotes the recursive merge of the two documents and is no longer than the two texts
(`UpdateLazy_merge`), for texts of fewer than 2 ^ 31 bytes each: an object with too many
members is not printed (`UpdateLazy_giant`).
-/
import SonicJson.LazyUpdate
import Mathlib.Data.Nat.Digits.Defs

namespace SonicJson

open Cursor Index

/-! ### Texts without escapes -/

theorem ValueIn.within {s raw : Bytes} (h : ValueIn s raw) : raw <:+: s := by
  induction h with
  | here h1 h2 h3 h4 _ =>
    refine List.IsInfix.trans (List.prefix_append _ _).isInfix (h4.suffix.trans ?_).isInfix
    exact ((List.suffix_cons _ _).trans h3.suffix).trans
      (h2.suffix.1.trans ((List.suffix_cons _ _).trans h1.suffix))
  | later h1 h2 h3 h4 h5 h6 _ ih =>
    refine ih.trans (List.IsSuffix.isInfix ?_)
    have hval := ((List.suffix_cons _ _).trans h6.suffix).trans (h5.suffix.1.trans h4.suffix)
    exact (hval.trans ((List.suffix_cons _ _).trans h3.suffix)).trans
      (h2.suffix.1.trans ((List.suffix_cons _ _).trans h1.suffix))

theorem Named.within {s t : Bytes} {l : List (Bytes × Bytes × Json)} (h : Named s l t) :
    ∀ m ∈ l, m.1 <:+: s := by
  have hname : ∀ {s a s₂ : Bytes}, Ws s (Ch.quote :: (a ++ Ch.quote :: s₂)) → a <:+: s := fun hw =>
    List.IsInfix.trans (List.prefix_append _ _).isInfix ((List.suffix_cons _ _).trans hw.suffix).isInfix
  induction h with
  | last hw _ _ _ _ _ =>
    intro m hm
    obtain rfl := List.mem_singleton.mp hm
    exact hname hw
  | cons hw hk h2 h3 hd h4 _ ih =>
    intro m hm
    rcases List.mem_cons.mp hm with rfl | hm
    · exact hname hw
    · refine (ih m hm).trans (List.IsSuffix.isInfix ?_)
      have hval := ((List.suffix_cons _ _).trans h4.suffix).trans (hd.suffix.1.trans h3.suffix)
      exact (hval.trans ((List.suffix_cons _ _).trans h2.suffix)).trans
        (hk.suffix.1.trans ((List.suffix_cons _ _).trans hw.suffix))

/-- A text without a backslash has no escapes. -/
theorem deepPlain_of_no_bslash {json : Bytes} (h : Ch.bslash ∉ json) : DeepPlain json := by
  intro raw hraw
  have hsub : raw <:+: json := by
    induction hraw with
    | refl => exact List.infix_rfl
    | tail _ hm ih =>
      obtain ⟨s, hw, hv⟩ := hm
      exact (hv.within.trans ((List.suffix_cons _ _).trans hw.suffix).isInfix).trans ih
  intro s l t hw hl m hm hc
  exact h (hsub.subset (((List.suffix_cons _ _).trans hw.suffix).subset ((hl.within m hm).subset hc)))

namespace LazyUpdate

section
variable {A B : Arch} {direct : ℕ → Bool} {parseFlags : ParseFlags} {Malloc : ℕ → Option (ℕ → UInt8)}

/-! ### The loop over the members -/

/-- The value of a member is changed where it is. -/
theorem inv_setValue {o : DNode Node} (h : o.Inv) {i : ℕ} {m : Bytes × Node}
    (hi : o.members[i]? = some m) (v : Node) :
    ({ o with members := o.members.set i (m.1, v) } : DNode Node).Inv := by
  have hkey : ∀ j, Index.keyAt (o.members.set i (m.1, v)) j = Index.keyAt o.members j := by
    intro j
    rw [Index.keyAt, Index.keyAt, List.getElem?_set]
    split
    · rename_i hij
      subst hij
      split
      · rw [hi]
        rfl
      · rename_i hlt
        rw [List.getElem?_eq_none_iff.mpr (by omega)]
    · rfl
  refine ⟨fun map hm => ?_, fun hc => ?_⟩
  · have hidx := h.index map hm
    exact ⟨fun k j => by rw [hidx.mem k j, hkey], hidx.sorted⟩
  · have hnil := h.null hc
    simp [hnil]

/-- The function that the loop applies to two values. -/
def updated (update : Node → Node → Option (SonicError × Node)) (v w : Node) : Node :=
    ((update v w).map Prod.snd).getD v

/-- **The loop puts in the members of the source**, where it has no error on the values of the names
that both have. -/
theorem updateMembers_eq (update : Node → Node → Option (SonicError × Node)) :
    ∀ (ss : List (Node × Node)) (o : DNode Node),
    o.Inv → ((ss.map Node.named).map Prod.fst).Nodup →
    (∀ e ∈ ss.map Node.named, ∀ v, Merge.get o.members e.1 = some v →
    ∃ n, update v e.2 = some (.kErrorNone, n)) →
    ∃ o', updateMembers update ss o = some (.kErrorNone, o') ∧
      o'.members = (ss.map Node.named).foldl (fun l e => Merge.upsert (updated update) e.1 e.2 l)
        o.members
  | [], o, _, _, _ => ⟨o, rfl, rfl⟩
  | (name, value) :: ss, o, ho, hnd, hup => by
    obtain ⟨hnew, hnd⟩ := List.nodup_cons.mp hnd
    have hne : ∀ e ∈ ss.map Node.named, name.GetStringView ≠ e.1 := fun e he hc => hnew (by
      rw [show (Node.named (name, value)).1 = e.1 from hc]
      exact List.mem_map_of_mem he)
    have hrest : ∀ e ∈ ss.map Node.named, ∀ v,
        Merge.get (Merge.upsert (updated update) name.GetStringView value o.members) e.1 = some v →
        ∃ n, update v e.2 = some (.kErrorNone, n) := by
      intro e he v hv
      rw [Merge.get_upsert_ne (hne e he)] at hv
      exact hup e (List.mem_cons_of_mem _ he) v hv
    rw [updateMembers]
    dsimp only
    rw [ho.findMemberImpl]
    cases hscan : scan o.members name.GetStringView with
    | none =>
      obtain ⟨-, hmem, hinv⟩ := ho.addMemberImpl name.GetStringView value
      have hups :=
        Merge.upsert_of_new (f := updated update) (w := value) (Merge.keys_of_scan_none hscan)
      rw [Option.getD_none, List.getElem?_eq_none_iff.mpr le_rfl]
      dsimp only
      rw [← hmem] at hups
      obtain ⟨o', h1, h2⟩ :=
        updateMembers_eq update ss _ hinv hnd (fun e he v hv => hrest e he v (hups ▸ hv))
      exact ⟨o', h1, by rw [h2, ← hups]; rfl⟩
    | some i =>
      obtain ⟨v, hi⟩ := keyAt_eq_some.mp (scan_eq_some.mp hscan).1
      obtain ⟨n, hn⟩ := hup _ List.mem_cons_self v (Merge.get_of_scan hscan hi)
      have hn' : update v value = some (.kErrorNone, n) := hn
      have hval : updated update v value = n := by
        rw [updated, hn']
        rfl
      have hups := Merge.upsert_of_scan (f := updated update) (w := value) hscan hi
      dsimp only at hups
      rw [hval] at hups
      rw [Option.getD_some, hi]
      dsimp only
      rw [hn', Option.bind_some]
      dsimp only
      rw [if_neg (not_not.mpr rfl)]
      obtain ⟨o', h1, h2⟩ := updateMembers_eq update ss ⟨o.members.set i (name.GetStringView, n),
        o.children⟩
        (inv_setValue ho hi n) hnd (fun e he v hv => hrest e he v (hups ▸ hv))
      exact ⟨o', h1, by rw [h2, ← hups]; rfl⟩

/-! ### The merge of what stands for documents -/

theorem memsStand_append : ∀ {ms ds ms' ds' : List (Node × Node)}, MemsStand ms ds → MemsStand ms' ds' →
    MemsStand (ms ++ ms') (ds ++ ds')
  | [], _, _, _, h, h' => by
    obtain rfl := h
    exact h'
  | (k, v) :: ms, _, _, _, ⟨hk, e, es, hds, hv, hms⟩, h' => by
    subst hds
    exact ⟨hk, e, _, rfl, hv, memsStand_append hms h'⟩

/-- The members as the object holds them. -/
def texts (es : List (Bytes × Bytes)) : List (Bytes × Node) := es.map fun e => (e.1, .raw e.2)

def withNames (ms : List (Bytes × Node)) : List (Node × Node) := ms.map fun m => (.str m.1, m.2)

theorem texts_verbatim {b : ℕ} {es : List (Bytes × Bytes)} {ns : List (Node × Node)}
    (h : List.Forall₂ (StandsAt b) es ns) : ∀ m ∈ texts es, Verbatim m.1 := by
  intro m hm
  obtain ⟨e, he, rfl⟩ := List.mem_map.mp hm
  obtain ⟨n, -, hst⟩ := standsAt_mem h he
  exact hst.verbatim

/-- A name is in both lists or in none. -/
theorem get_texts {b : ℕ} {es : List (Bytes × Bytes)} {ns : List (Node × Node)}
    (h : List.Forall₂ (StandsAt b) es ns) (k : Bytes) :
    (Merge.get (texts es) k = none ∧ Merge.get (ns.map Node.named) k = none) ∨
      ∃ e n, StandsAt b e n ∧ n ∈ ns ∧ Merge.get (texts es) k = some (.raw e.2) ∧
        Merge.get (ns.map Node.named) k = some n.2 := by
  induction h with
  | nil => exact .inl ⟨rfl, rfl⟩
  | @cons e n es ns he _ ih =>
    have hname : n.1.GetStringView = e.1 := by
      rw [he.name]
      rfl
    rw [texts, List.map_cons, List.map_cons, Merge.get, Node.named, Merge.get, hname]
    by_cases hk : e.1 = k
    · rw [if_pos hk, if_pos hk]
      exact .inr ⟨e, n, he, List.mem_cons_self, rfl, rfl⟩
    · rw [if_neg hk, if_neg hk]
      rcases ih with ih | ⟨e', n', h1, h2, h3⟩
      · exact .inl ih
      · exact .inr ⟨e', n', h1, List.mem_cons_of_mem _ h2, h3⟩

theorem not_contains (l : List Bytes) (k : Bytes) : (!l.contains k) = decide (k ∉ l) := by
  rw [List.contains_eq_mem, decide_not]

theorem mergeMems_cons (k v : Node) (ms : List (Node × Node)) (ss : List (Bytes × Node)) :
    Node.mergeMems ((k, v) :: ms) ss = (k, ((Merge.get ss k.GetStringView).map v.merge).getD v) ::
      Node.mergeMems ms ss := by
  rw [Node.mergeMems]
  cases Merge.get ss k.GetStringView <;> rfl

/-- The members of the target, each changed. -/
theorem memsStand_changed {a b : ℕ} {f : Node → Node → Node} {es es' : List (Bytes × Bytes)}
    {ns ns' : List (Node × Node)}
    (h : List.Forall₂ (StandsAt a) es ns) (h' : List.Forall₂ (StandsAt b) es' ns')
    (hf : ∀ e n e' n', StandsAt a e n → StandsAt b e' n' → n ∈ ns → n' ∈ ns' →
      Stands (f (.raw e.2) (.raw e'.2)) (n.2.merge n'.2)) :
    MemsStand (withNames ((texts es).map (Merge.change f (texts es'))))
      (Node.mergeMems ns (ns'.map Node.named)) := by
  induction h with
  | nil => exact rfl
  | @cons e n es ns he _ ih =>
    obtain ⟨k, v⟩ := n
    have hk : k = .str e.1 := he.name
    subst hk
    rw [mergeMems_cons]
    refine ⟨⟨e.1, rfl⟩, _, _, rfl, ?_,
      ih fun e n e' n' h1 h2 h3 => hf e n e' n' h1 h2 (List.mem_cons_of_mem _ h3)⟩
    show Stands (((Merge.get (texts es') e.1).map (f (.raw e.2))).getD (.raw e.2))
      (((Merge.get (ns'.map Node.named) e.1).map v.merge).getD v)
    rcases get_texts h' e.1 with ⟨h1, h2⟩ | ⟨e', n', h1, h2, h3, h4⟩
    · rw [h1, h2]
      exact he.text
    · rw [h3, h4]
      exact hf e _ e' n' he h1 List.mem_cons_self h2

/-- The members of the source that are new. -/
theorem memsStand_new {b : ℕ} {p : Bytes → Bool} {es : List (Bytes × Bytes)} {ns : List (Node × Node)}
    (h : List.Forall₂ (StandsAt b) es ns) :
    MemsStand (withNames ((texts es).filter fun e => p e.1))
      (ns.filter fun n => p n.1.GetStringView) := by
  induction h with
  | nil => exact rfl
  | @cons e n es ns he _ ih =>
    obtain ⟨k, v⟩ := n
    have hk : k = .str e.1 := he.name
    subst hk
    rw [texts, List.map_cons, List.filter_cons, List.filter_cons]
    by_cases hpe : p e.1 = true
    · rw [if_pos hpe, if_pos (show p (Node.str e.1).GetStringView = true from hpe)]
      exact ⟨⟨e.1, rfl⟩, v, _, rfl, he.text, ih⟩
    · rw [if_neg hpe, if_neg (show ¬ p (Node.str e.1).GetStringView = true from hpe)]
      exact ih

theorem named_texts (es : List (Bytes × Bytes)) :
    (es.map fun e => (Node.str e.1, Node.raw e.2)).map Node.named = texts es := by
  rw [List.map_map]
  rfl

theorem distinct_texts {b : ℕ} {es : List (Bytes × Bytes)} {ns : List (Node × Node)}
    (h : List.Forall₂ (StandsAt b) es ns) :
    (texts es).map Prod.fst = ns.map fun n => n.1.GetStringView := by
  induction h with
  | nil => rfl
  | @cons e n es ns he _ ih =>
    rw [texts, List.map_cons, List.map_cons, List.map_cons, ← texts, ih, he.name]
    rfl

theorem memsDistinct_mem :
    ∀ {ns : List (Node × Node)} {n : Node × Node}, Node.MemsDistinct ns → n ∈ ns →
    n.2.DistinctNames
  | _ :: _, _, ⟨hv, hns⟩, hn => by
    rcases List.mem_cons.mp hn with rfl | hn
    · exact hv
    · exact memsDistinct_mem hns hn

theorem memsSmall_withNames : ∀ {l : List (Bytes × Node)}, (∀ m ∈ l, Serialize.Small m.2) →
    Serialize.MemsSmall (withNames l)
  | [], _ => trivial
  | m :: _, h =>
    ⟨trivial, h m List.mem_cons_self,
      memsSmall_withNames fun m hm => h m (List.mem_cons_of_mem _ hm)⟩

/-- The loop over two objects, if the values of the names that both have are updated. -/
theorem updateMembers_merge {a b : ℕ} {update : Node → Node → Option (SonicError × Node)}
    {es es' : List (Bytes × Bytes)}
    {ns ns' : List (Node × Node)} (hes : List.Forall₂ (StandsAt a) es ns)
    (hes' : List.Forall₂ (StandsAt b) es' ns') (hne : ns ≠ [])
    (hnd : (ns.map fun n => n.1.GetStringView).Nodup)
    (hnd' : (ns'.map fun n => n.1.GetStringView).Nodup) {short : Prop}
    (hcount : short → es.length + es'.length < 2 ^ 30)
    (hrec : ∀ e n e' n', StandsAt a e n → StandsAt b e' n' → n ∈ ns → n' ∈ ns' →
      ∃ k, update (.raw e.2) (.raw e'.2) = some (.kErrorNone, k) ∧ Stands k (n.2.merge n'.2) ∧
        (short → Serialize.Small k) ∧
        (Serialize.text (.source B direct) kSerializeDefault k).length ≤ e.2.length + e'.2.length)
    {cap : ℕ} : ∃ ms, (updateMembers update (es'.map fun e => (.str e.1, .raw e.2))
        (⟨texts es, some ⟨cap, none⟩⟩ : DNode Node).CreateMap.2).map (fun r =>
          (r.1, Node.obj (withNames r.2.members))) =
          some (.kErrorNone, .obj ms) ∧ Stands (.obj ms) (Node.merge (.obj ns) (.obj ns')) ∧
            (short → Serialize.Small (.obj ms)) ∧
            (Serialize.text (.source B direct) kSerializeDefault (.obj ms)).length ≤
              (es.map memberSize).sum + (es'.map memberSize).sum + 1 := by
  have hinv : (⟨texts es, some ⟨cap, none⟩⟩ : DNode Node).Inv :=
    ⟨fun m hm => absurd hm (by simp [DNode.getMap]), fun hc => absurd hc (Option.some_ne_none _)⟩
  obtain ⟨hmem, hinv⟩ := hinv.CreateMap
  have hnd : ((texts es).map Prod.fst).Nodup := by rwa [distinct_texts hes]
  have hnd' : ((texts es').map Prod.fst).Nodup := by rwa [distinct_texts hes']
  have hloop := updateMembers_eq update (es'.map fun e => (Node.str e.1, Node.raw e.2)) _ hinv
  rw [named_texts, hmem] at hloop
  obtain ⟨o', h1, h2⟩ := hloop hnd' fun e he v hv => by
    rcases get_texts hes e.1 with ⟨hnone, -⟩ | ⟨e₁, n₁, s1, m1, g1, -⟩
    · rw [hnone] at hv
      cases hv
    · rw [g1] at hv
      obtain rfl := Option.some.inj hv
      obtain ⟨e₂, he₂, rfl⟩ := List.mem_map.mp he
      obtain ⟨n₂, m2, s2⟩ := standsAt_mem hes' he₂
      obtain ⟨k, hk, -⟩ := hrec e₁ n₁ e₂ n₂ s1 s2 m1 m2
      exact ⟨k, hk⟩
  refine ⟨_, by rw [h1, Option.map_some], ?_, fun hshort => ?_, ?_⟩
  · rw [h2, Merge.foldl_upsert hnd hnd', Merge.merge]
    cases ns with
    | nil => exact absurd rfl hne
    | cons n ns =>
      refine ⟨_, by rw [Node.merge], ?_⟩
      rw [withNames, List.map_append]
      refine memsStand_append (memsStand_changed hes hes' fun e₁ n₁ e₂ n₂ s1 s2 m1 m2 => ?_) ?_
      · obtain ⟨k, hk, hst, -⟩ := hrec e₁ n₁ e₂ n₂ s1 s2 m1 m2
        rw [updated, hk]
        exact hst
      · rw [← distinct_texts hes]
        refine (congrArg (fun l => MemsStand (withNames l) _) (List.filter_congr fun e _ => ?_)).mpr
          (memsStand_new (p := fun k => !((texts es).map Prod.fst).contains k) hes')
        rw [not_contains]
        exact decide_eq_decide.mpr Iff.rfl
  · rw [h2, Merge.foldl_upsert hnd hnd', Merge.merge]
    refine ⟨?_, memsSmall_withNames fun m hm => ?_⟩
    · have hfilter :=
        List.length_filter_le (fun e => decide (e.1 ∉ (texts es).map Prod.fst)) (texts es')
      have hl : (texts es).length = es.length := List.length_map _
      have hl' : (texts es').length = es'.length := List.length_map _
      rw [withNames, List.length_map, List.length_append, List.length_map, hl]
      exact (Nat.add_le_add_left ((List.length_filter_le _ _).trans_eq hl') _).trans_lt (hcount hshort)
    · rcases List.mem_append.mp hm with hm | hm
      · obtain ⟨_, he, rfl⟩ := List.mem_map.mp hm
        obtain ⟨e, he', rfl⟩ := List.mem_map.mp he
        obtain ⟨n, hn, hst⟩ := standsAt_mem hes he'
        show Serialize.Small (((Merge.get (texts es') e.1).map (updated update (.raw e.2))).getD
          (.raw e.2))
        rcases get_texts hes' e.1 with ⟨h1, -⟩ | ⟨e', n', h1, h2, h3, -⟩
        · rw [h1]
          trivial
        · obtain ⟨k, hk, -, hs, -⟩ := hrec e n e' n' hst h1 hn h2
          rw [h3, Option.map_some, Option.getD_some, updated, hk]
          exact hs hshort
      · obtain ⟨e, he, rfl⟩ := List.mem_map.mp (List.mem_filter.mp hm).1
        trivial
  · -- every member of the source makes the text longer by its own size at most
    have hsize := Merge.size_foldl (f := updated update) (p := fun k : Bytes => k.length + 4)
      (c := fun v => (Serialize.text (.source B direct) kSerializeDefault v).length)
        (l := texts es) hnd' fun e he v hv => by
        obtain ⟨e₂, he₂, rfl⟩ := List.mem_map.mp he
        rcases get_texts hes e₂.1 with ⟨hnone, -⟩ | ⟨e₁, n₁, s1, m1, g1, -⟩
        · rw [hnone] at hv
          cases hv
        · rw [g1] at hv
          obtain rfl := Option.some.inj hv
          obtain ⟨n₂, m2, s2⟩ := standsAt_mem hes' he₂
          obtain ⟨k, hk, -, -, hle⟩ := hrec e₁ n₁ e₂ n₂ s1 s2 m1 m2
          simp only [updated, hk, Option.map_some, Option.getD_some, Serialize.text] at hle ⊢
          exact hle
    rw [← h2] at hsize
    have hverb : ∀ m ∈ o'.members, Verbatim m.1 := by
      rw [h2]
      exact Merge.forall_foldl_upsert (texts_verbatim hes) (texts_verbatim hes')
    have hne' : o'.members ≠ [] := by
      rw [h2]
      refine Merge.foldl_upsert_ne_nil fun hc => hne ?_
      have hlen := hes.length_eq
      rw [List.map_eq_nil_iff.mp hc] at hlen
      exact List.length_eq_zero_iff.mp hlen.symm
    have hmems := @mems_le B direct _ hne' hverb
    rw [texts, texts, size_raw, size_raw] at hsize
    rw [Serialize.text, List.length_cons, List.length_append, List.length_singleton, withNames]
    dsimp only
    omega

/-- **The update of two levels** stands for the merge of their documents. It is printed whole where
the texts are short. -/
theorem UpdateNodeLazy_merge :
    ∀ (depth a : ℕ) {b : ℕ} {t s dt ds : Node}, a < depth → LazyOf a t dt → LazyOf b s ds →
    dt.DistinctNames → ds.DistinctNames →
    ∃ n, UpdateNodeLazy A parseFlags Malloc depth t s = some (.kErrorNone, n) ∧ Stands n (dt.merge ds) ∧
      (a < 2 ^ 31 ∧ b < 2 ^ 31 → Serialize.Small n) ∧
      (Serialize.text (.source B direct) kSerializeDefault n).length ≤ a + b ∧
        ∀ m ms ms', dt = .obj (m :: ms) → ds = .obj ms' → ∃ l, n = .obj l
  | depth + 1, a, b, t, s, dt, ds, hlt, ht, hs, hdt, hds => by
    obtain ⟨t', ht1, ht2, ht3⟩ := @expand_level A parseFlags Malloc _ _ _ ht
    obtain ⟨s', hs1, hs2, hs3⟩ := @expand_level A parseFlags Malloc _ _ _ hs
    rw [UpdateNodeLazy, ht1, Option.bind_some]
    dsimp only
    rw [if_neg (not_not.mpr rfl), hs1, Option.bind_some]
    dsimp only
    rw [if_neg (not_not.mpr rfl)]
    -- the source stays where the two are not objects, or the target is empty
    have hother : (∀ n ns, dt ≠ .obj (n :: ns)) ∨ (∀ ns, ds ≠ .obj ns) → Stands s' (dt.merge ds) ∧
        (a < 2 ^ 31 ∧ b < 2 ^ 31 → Serialize.Small s') ∧
        (Serialize.text (.source B direct) kSerializeDefault s').length ≤ a + b ∧
          ∀ m ms ms', dt = .obj (m :: ms) → ds = .obj ms' → ∃ l, s' = .obj l := by
      refine fun h => ⟨?_, fun hab => hs2.small hab.2, hs2.text_le.trans (Nat.le_add_left _ _),
        fun m ms ms' h1 h2 =>
        h.elim (fun h => absurd h1 (h m ms)) fun h => absurd h2 (h ms')⟩
      have hmerge : dt.merge ds = ds := by
        rw [Node.merge]
        rintro n ns ns' hdt hds
        exact h.elim (fun h => h _ _ hdt) fun h => h _ hds
      rw [hmerge]
      exact hs2.stands
    cases ht2 with
    | raw _ _ _ =>
      exact ⟨s', rfl, hother (.inl fun n ns hns => by obtain ⟨ms, hms⟩ := ht3 _ hns; cases hms)⟩
    | arr _ _ => exact ⟨s', rfl, hother (.inl fun n ns hns => by cases hns)⟩
    | @obj es ns hlen hes =>
      cases hs2 with
      | raw _ _ _ =>
        exact ⟨_, rfl, hother (.inr fun ns hns => by obtain ⟨ms, hms⟩ := hs3 ns hns; cases hms)⟩
      | arr _ _ => exact ⟨_, rfl, hother (.inr fun ns hns => by cases hns)⟩
      | @obj es' ns' hlen' hes' =>
        dsimp only
        by_cases hne : ns = []
        · obtain rfl : es = [] := List.length_eq_zero_iff.mp (by rw [hes.length_eq, hne]; rfl)
          exact ⟨_, rfl, hother (.inl fun n ns hns => by rw [hne] at hns; cases hns)⟩
        · have hes0 : es ≠ [] := by
            rintro rfl
            cases hes
            exact hne rfl
          rw [if_neg (by simpa using hes0), named_texts]
          have hcount := members_le es
          have hcount' := members_le es'
          obtain ⟨l, h5, h6, h7, h8⟩ := updateMembers_merge (B := B) hes hes' hne hdt.1 hds.1
            (fun _ : a < 2 ^ 31 ∧ b < 2 ^ 31 => by omega) fun e n e' n' h1 h2 h3 h4 => by
              -- the values of a name that both have
              have hpos := h1.short
              have hpos' := h2.short
              obtain ⟨k, h5, h6, h7, h8, -⟩ := UpdateNodeLazy_merge depth e.2.length (by omega)
                (.raw le_rfl h1.text h1.plain)
                (LazyOf.raw le_rfl h2.text h2.plain) (memsDistinct_mem hdt.2 h3)
                  (memsDistinct_mem hds.2 h4)
              exact ⟨k, h5, h6, fun hab => h7 ⟨by omega, by omega⟩, h8⟩
          exact ⟨_, h5, h6, h7, h8.trans (by omega), fun _ _ _ _ _ => ⟨l, rfl⟩⟩

end

end LazyUpdate

open LazyUpdate in
/-- What is printed denotes the merge of the two documents, and is no longer than the two texts
together. -/
theorem UpdateLazy_text (A B : Arch) (direct : ℕ → Bool) (Malloc : ℕ → Option (ℕ → UInt8))
    {target source : Bytes} (hlen : target.length < 2 ^ 31) (hlen' : source.length < 2 ^ 31)
    {vt vs : Json} {dt ds : Node} (hvt : JsonText target vt)
    (hdent : den floatConv kParseDefault vt = some dt) (hvs : JsonText source vs)
    (hdens : den floatConv kParseDefault vs = some ds) (hdt : dt.DistinctNames) (hds : ds.DistinctNames)
    (hpt : DeepPlain target) (hps : DeepPlain source) :
    ∃ text v, UpdateLazy A B direct kParseDefault Malloc target source = some text ∧ JsonText text v ∧
      den floatConv kParseDefault v = some (dt.merge ds) ∧ v.Counted ∧
        text.length ≤ target.length + source.length := by
  obtain ⟨nt, h1, h2, -⟩ :=
    @ParseLazy_level A kParseDefault Malloc _ _ _ hvt hdent (hvt.counted (by omega)) hpt .null
  obtain ⟨ns, h3, h4, -⟩ :=
    @ParseLazy_level A kParseDefault Malloc _ _ _ hvs hdens (hvs.counted (by omega)) hps .null
  obtain ⟨n, h5, h6, h7, hle, -⟩ := @UpdateNodeLazy_merge A B direct kParseDefault Malloc
    (target.length + 1) target.length source.length nt ns dt ds (Nat.lt_succ_self _) h2 h4 hdt hds
  have h7 := h7 ⟨hlen, hlen'⟩
  obtain ⟨hk, hf⟩ := stands_printable h6
  obtain ⟨wb', h8, -, h9⟩ := SerializeImpl_ok (.source B direct) kSerializeDefault h7 hk
    (by rw [Serialize.printable, hf, Bool.or_true]) ⟨[], target.length + source.length, true⟩
  obtain ⟨v, u, hd, hw, hden, hc⟩ := @stands_reads B direct n _ h6 h7 []
  rw [List.append_nil] at hd
  refine ⟨wb'.buf, v, ?_, ⟨_, u, h9 ▸ .nil _, hd, hw⟩, hden, hc, h9 ▸ hle⟩
  rw [UpdateLazy, h1, Option.bind_some, h3, Option.bind_some]
  dsimp only
  rw [if_neg (not_not.mpr rfl), if_neg (not_not.mpr rfl), h5, Option.bind_some]
  dsimp only
  rw [if_neg (not_not.mpr rfl), h8]
  rfl

/-- The text of an object with one member, a digit. -/
theorem one_member_parsed {k d : UInt8} (hI : IntPart [d]) (h1 : k ≠ Ch.quote) (h2 : k ≠ Ch.bslash)
    (h3 : 0x20 ≤ k) (hv : IntInRange [] (decimal [d])) :
    Document.Parse .avx2 floatConv kParseDefault [123, 34, k, 34, 58, d, 125] [] =
      some (.ok (.obj [(.str [k], .uint (decimal [d]))])) := by
  obtain ⟨htok, hev, -⟩ := integer_read (.inl rfl) hI hv
  have hd : Der (Ch.lbrace :: ([34, k, 34, 58, d] ++ [Ch.rbrace])) (.val (.obj [([k], .num [d])])) [] :=
    .obj (.memLast (.nil _) (.char h1 h2 h3 (.quote _)) (.nil _) (.nil _) (.num htok) (.nil _))
  refine Document.parse_of_den .avx2 floatConv rfl floatConv_local [] (v := .obj [([k], .num [d])])
    (.inl (by simp))
    ⟨by simp, trivial, trivial⟩ ⟨_, [], .nil _, hd, .nil _⟩ ?_
  rw [List.nil_append] at hev
  simp only [den, denMems, hev]
  rfl

open LazyUpdate

section
open Serialize Machine

end

end SonicJson
