/-
# Updating twice

The merge of a document with one that it was merged with before changes nothing
(`Node.merge_again`): every member of the source is in the target by then, with what it
was merged to. So a text that is updated by the same text again still denotes the same
document (`UpdateLazy_again`).
-/
import SonicJson.LazyMerge

namespace SonicJson

open LazyUpdate

/-! ### The members of a merge -/

theorem get_of_mem : ∀ {ms : List (Node × Node)}
    {m : Node × Node}, (ms.map fun m => m.1.GetStringView).Nodup → m ∈ ms →
    Merge.get (ms.map Node.named) m.1.GetStringView = some m.2
  | n :: ms, m, hnd, hm => by
    obtain ⟨hnew, hnd⟩ := List.nodup_cons.mp hnd
    rw [List.map_cons, Node.named, Merge.get]
    rcases List.mem_cons.mp hm with rfl | hm
    · rw [if_pos rfl]
    · rw [if_neg fun hc : n.1.GetStringView = m.1.GetStringView =>
        hnew (List.mem_map.mpr ⟨m, hm, hc.symm⟩)]
      exact get_of_mem hnd hm

theorem mergeMems_names : ∀ (ms : List (Node × Node)) (ss : List (Bytes × Node)),
    (Node.mergeMems ms ss).map (fun m => m.1.GetStringView) = ms.map fun m => m.1.GetStringView
  | [], _ => by rw [Node.mergeMems]
  | (k, v) :: ms, ss => by rw [mergeMems_cons, List.map_cons, mergeMems_names ms ss, List.map_cons]

theorem mergeMems_append : ∀ (ms ms' : List (Node × Node)) (ss : List (Bytes × Node)),
    Node.mergeMems (ms ++ ms') ss = Node.mergeMems ms ss ++ Node.mergeMems ms' ss
  | [], ms', ss => by rw [Node.mergeMems, List.nil_append, List.nil_append]
  | (k, v) :: ms, ms', ss => by
    rw [List.cons_append, mergeMems_cons, mergeMems_cons, mergeMems_append ms ms' ss, List.cons_append]

/-- The members of the source with other names than those of the target. -/
def Node.newMems (names : List Bytes) (ss : List (Node × Node)) : List (Node × Node) :=
  ss.filter fun e => !names.contains e.1.GetStringView

theorem mem_newMems {names : List Bytes} {ss : List (Node × Node)} {e : Node × Node} :
    e ∈ Node.newMems names ss ↔ e ∈ ss ∧ e.1.GetStringView ∉ names := by
  rw [Node.newMems, List.mem_filter, not_contains, decide_eq_true_iff]

theorem merge_obj (m : Node × Node) (ms ss : List (Node × Node)) :
    Node.merge (.obj (m :: ms)) (.obj ss) =
    .obj (Node.mergeMems (m :: ms) (ss.map Node.named) ++
      Node.newMems ((m :: ms).map fun m => m.1.GetStringView) ss) := by
  rw [Node.merge]
  rfl

/-- The source takes the place of a target that has no members, and a source that is no object that
of any target. -/
theorem merge_other {d s : Node} (h : (∀ m ms, d ≠ .obj (m :: ms)) ∨ ∀ ms, s ≠ .obj ms) :
    d.merge s = s := by
  rw [Node.merge]
  rintro m ms ss hd hs
  exact h.elim (fun h => h m ms hd) fun h => h ss hs

theorem newMems_all {names : List Bytes} {ss : List (Node × Node)}
    (h : ∀ e ∈ ss, e.1.GetStringView ∈ names) :
    Node.newMems names ss = [] :=
  List.eq_nil_iff_forall_not_mem.mpr fun e he => (mem_newMems.mp he).2 (h e (mem_newMems.mp he).1)

/-- The names of a merge are those of the target, and behind them the new ones of the source. -/
theorem mem_names_merge {names : List Bytes} {ms ss : List (Node × Node)}
    (hms : ms.map (fun m => m.1.GetStringView) = names)
    {l : List (Bytes × Node)} {e : Node × Node} (he : e ∈ ss) :
    e.1.GetStringView ∈ (Node.mergeMems ms l ++ Node.newMems names ss).map fun m =>
      m.1.GetStringView := by
  rw [List.map_append, mergeMems_names, hms, List.mem_append]
  by_cases hin : e.1.GetStringView ∈ names
  · exact .inl hin
  · exact .inr (List.mem_map_of_mem (mem_newMems.mpr ⟨he, hin⟩))

mutual

/-- A document is merged with itself. -/
theorem Node.merge_self : ∀ {d : Node}, d.DistinctNames → d.merge d = d
  | .obj (m :: ms), h => by
    have hnone : Node.newMems ((m :: ms).map fun m => m.1.GetStringView) (m :: ms) = [] :=
      newMems_all fun e he => List.mem_map.mpr ⟨e, he, rfl⟩
    rw [merge_obj, mergeMems_self h.2 fun e he => get_of_mem h.1 he, hnone, List.append_nil]
  | .obj [], _ | .null, _ | .bool _, _ | .uint _, _ | .sint _, _ | .real _, _ | .str _,
    _ | .numStr _, _ | .raw _, _
  | .arr _, _ => merge_other (.inl fun _ _ h => by cases h)

theorem mergeMems_self : ∀ {ms : List (Node × Node)} {l : List (Bytes × Node)}, Node.MemsDistinct ms →
    (∀ e ∈ ms, Merge.get l e.1.GetStringView = some e.2) → Node.mergeMems ms l = ms
  | [], _, _, _ => by rw [Node.mergeMems]
  | (k, v) :: ms, l, h, hget => by
    have hv : Merge.get l k.GetStringView = some v := hget _ List.mem_cons_self
    rw [mergeMems_cons, hv, Option.map_some, Option.getD_some, Node.merge_self h.1,
      mergeMems_self h.2 fun e he => hget e (List.mem_cons_of_mem _ he)]

end

theorem again_of_eq {d s : Node} (h : d.merge s = s) (hs : s.DistinctNames) :
    (d.merge s).merge s = d.merge s := by
  rw [h, Node.merge_self hs]

theorem memsDistinct_of_mem :
    ∀ {ns : List (Node × Node)}, (∀ n ∈ ns, n.2.DistinctNames) → Node.MemsDistinct ns
  | [], _ => trivial
  | _ :: _, h =>
    ⟨h _ List.mem_cons_self, memsDistinct_of_mem fun n hn => h n (List.mem_cons_of_mem _ hn)⟩

theorem mem_of_get :
    ∀ {ss : List (Node × Node)} {k : Bytes} {w : Node}, Merge.get (ss.map Node.named) k = some w →
    ∃ n ∈ ss, n.2 = w
  | [], _, _, h => by cases h
  | n :: ss, k, w, h => by
    rw [List.map_cons, Node.named, Merge.get] at h
    split_ifs at h
    · exact ⟨n, List.mem_cons_self, Option.some.inj h⟩
    · obtain ⟨n', hn', hw⟩ := mem_of_get h
      exact ⟨n', List.mem_cons_of_mem _ hn', hw⟩

mutual

/-- **Merging twice is merging once.** -/
theorem Node.merge_again :
    ∀ {d s : Node}, d.DistinctNames → s.DistinctNames → (d.merge s).merge s = d.merge s
  | .obj (m :: ms), .obj ss, hd, hs => by
    obtain ⟨m', ms', hm⟩ : ∃ m' ms', Node.mergeMems (m :: ms) (ss.map Node.named) ++
        Node.newMems ((m :: ms).map fun m => m.1.GetStringView) ss = m' :: ms' := ⟨_, _, rfl⟩
    have hnone : Node.newMems ((m' :: ms').map fun m => m.1.GetStringView) ss = [] :=
      newMems_all fun e he => hm ▸ mem_names_merge rfl he
    rw [merge_obj, hm, merge_obj, hnone, List.append_nil, ← hm, mergeMems_append,
      mergeMems_again hd.2 hs.2,
      mergeMems_self (memsDistinct_of_mem fun n hn => memsDistinct_mem hs.2 (mem_newMems.mp hn).1)
        fun e he => get_of_mem hs.1 (mem_newMems.mp he).1]
  | .obj (_ :: _), .null, _, hs | .obj (_ :: _), .bool _, _, hs | .obj (_ :: _), .uint _, _, hs
  | .obj (_ :: _), .sint _, _, hs | .obj (_ :: _), .real _, _, hs | .obj (_ :: _), .str _, _, hs
  | .obj (_ :: _), .numStr _, _, hs | .obj (_ :: _), .raw _, _, hs | .obj (_ :: _), .arr _, _, hs =>
    again_of_eq (merge_other (.inr fun _ h => by cases h)) hs
  | .obj [], _, _, hs | .null, _, _, hs | .bool _, _, _, hs | .uint _, _, _, hs | .sint _, _, _,
    hs | .real _, _, _, hs
  | .str _, _, _, hs | .numStr _, _, _, hs | .raw _, _, _, hs | .arr _, _, _, hs =>
    again_of_eq (merge_other (.inl fun _ _ h => by cases h)) hs

theorem mergeMems_again : ∀ {ms ss : List (Node × Node)}, Node.MemsDistinct ms → Node.MemsDistinct ss →
    Node.mergeMems (Node.mergeMems ms (ss.map Node.named)) (ss.map Node.named) =
      Node.mergeMems ms (ss.map Node.named)
  | [], _, _, _ => by rw [Node.mergeMems, Node.mergeMems]
  | (k, v) :: ms, ss, h, hs => by
    rw [mergeMems_cons, mergeMems_cons, mergeMems_again h.2 hs]
    cases hget : Merge.get (ss.map Node.named) k.GetStringView with
    | none => rfl
    | some w =>
      obtain ⟨n, hn, rfl⟩ := mem_of_get hget
      rw [Option.map_some, Option.getD_some, Option.map_some, Option.getD_some,
        Node.merge_again h.1 (memsDistinct_mem hs hn)]

end

mutual

/-- A merge has distinct names. -/
theorem Node.merge_distinct :
    ∀ {d s : Node}, d.DistinctNames → s.DistinctNames → (d.merge s).DistinctNames
  | .obj (m :: ms), .obj ss, hd, hs => by
    rw [merge_obj]
    refine ⟨?_, memsDistinct_of_mem fun n hn => ?_⟩
    · rw [List.map_append, mergeMems_names, List.nodup_append']
      refine ⟨hd.1, hs.1.sublist (List.filter_sublist.map _), fun k hk hk' => ?_⟩
      obtain ⟨e, he, rfl⟩ := List.mem_map.mp hk'
      exact (mem_newMems.mp he).2 hk
    · rcases List.mem_append.mp hn with hn | hn
      · exact memsDistinct_mem (mergeMems_distinct hd.2 hs.2) hn
      · exact memsDistinct_mem hs.2 (mem_newMems.mp hn).1
  | .obj (_ :: _), .null, _, hs | .obj (_ :: _), .bool _, _, hs | .obj (_ :: _), .uint _, _, hs
  | .obj (_ :: _), .sint _, _, hs | .obj (_ :: _), .real _, _, hs | .obj (_ :: _), .str _, _, hs
  | .obj (_ :: _), .numStr _, _, hs | .obj (_ :: _), .raw _, _, hs | .obj (_ :: _), .arr _, _, hs => by
    rwa [merge_other (.inr fun _ h => by cases h)]
  | .obj [], _, _, hs | .null, _, _, hs | .bool _, _, _, hs | .uint _, _, _, hs | .sint _, _, _,
    hs | .real _, _, _, hs
  | .str _, _, _, hs | .numStr _, _, _, hs | .raw _, _, _, hs | .arr _, _, _, hs => by
    rwa [merge_other (.inl fun _ _ h => by cases h)]

theorem mergeMems_distinct :
    ∀ {ms ss : List (Node × Node)}, Node.MemsDistinct ms → Node.MemsDistinct ss →
    Node.MemsDistinct (Node.mergeMems ms (ss.map Node.named))
  | [], _, _, _ => by
    rw [Node.mergeMems]
    trivial
  | (k, v) :: ms, ss, h, hs => by
    rw [mergeMems_cons]
    refine ⟨?_, mergeMems_distinct h.2 hs⟩
    cases hget : Merge.get (ss.map Node.named) k.GetStringView with
    | none => exact h.1
    | some w =>
      obtain ⟨n, hn, rfl⟩ := mem_of_get hget
      exact Node.merge_distinct h.1 (memsDistinct_mem hs hn)

end

/-- **Updating again changes nothing**: the text that comes out denotes the same document, for texts
of fewer than 2 ^ 31 bytes together whose names have no escapes. -/
theorem UpdateLazy_again (A B C : Arch) (direct : ℕ → Bool) (Malloc : ℕ → Option (ℕ → UInt8))
    {target source text rest rest' : Bytes} (hlen : target.length + source.length < 2 ^ 31)
    (hlen' : text.length + source.length < 2 ^ 31) {dt ds : Node}
    (ht : Document.Parse A floatConv kParseDefault target rest = some (.ok dt))
    (hs : Document.Parse A floatConv kParseDefault source rest' = some (.ok ds))
    (hdt : dt.DistinctNames) (hds : ds.DistinctNames) (hpt : DeepPlain target) (hps : DeepPlain source)
    (hu : UpdateLazy A B direct kParseDefault Malloc target source = some text) (hpu : DeepPlain text) :
    ∃ text', UpdateLazy A B direct kParseDefault Malloc text source = some text' ∧ ∀ rest,
      Document.Parse C floatConv kParseDefault text' rest =
        Document.Parse C floatConv kParseDefault text rest := by
  obtain ⟨vt, hvt, hdent⟩ := (Document.parse_ok_iff A floatConv floatConv_local (by omega) rest).mp ht
  obtain ⟨vs, hvs, hdens⟩ := (Document.parse_ok_iff A floatConv floatConv_local (by omega) rest').mp hs
  obtain ⟨u, v, h1, h2, h3, h4, -⟩ :=
    UpdateLazy_text A B direct Malloc (by omega) (by omega) hvt hdent hvs hdens hdt hds hpt hps
  obtain rfl : u = text := Option.some.inj (h1.symm.trans hu)
  obtain ⟨text', v', h5, h6, h7, h8, hle⟩ :=
    UpdateLazy_text A B direct Malloc (by omega) (by omega) h2 h3 hvs hdens
    (Node.merge_distinct hdt hds)
    hds hpu hps
  rw [Node.merge_again hdt hds] at h7
  refine ⟨text', h5, fun rest => ?_⟩
  rw [Document.parse_of_den C floatConv rfl floatConv_local rest (.inl (by omega)) h8 h6 h7,
    Document.parse_of_den C floatConv rfl floatConv_local rest (.inl (by omega)) h4 h2 h3]

/-- The text `{"a":2}`, that comes out where `{}` is updated by it. -/
theorem UpdateLazy_again_member : ∃ text',
    UpdateLazy .avx2 .sse (fun _ => false) kParseDefault (fun _ => none) [123, 34, 97, 34, 58, 50, 125]
      [123, 34, 97, 34, 58, 50, 125] = some text' ∧ ∀ rest,
      Document.Parse .avx2 floatConv kParseDefault text' rest =
        Document.Parse .avx2 floatConv kParseDefault [123, 34, 97, 34, 58, 50, 125] rest := by
  have hempty : Document.Parse .avx2 floatConv kParseDefault [Ch.lbrace, Ch.rbrace] [] =
    some (.ok (.obj [])) :=
    Document.parse_of_den .avx2 floatConv rfl floatConv_local [] (v := .obj []) (.inl (by decide))
      ⟨by decide, trivial⟩
      ⟨_, [], .nil _, .objNil (.nil _), .nil _⟩ rfl
  have hone := one_member_parsed (k := 97) (.pos rfl (by decide) (List.all_eq_true.mp rfl))
    (by decide) (by decide) (by decide)
    (show IntInRange [] (decimal [50]) by decide)
  exact UpdateLazy_again .avx2 .sse .avx2 _ _ (by decide) (by decide) hempty hone
    ⟨List.nodup_nil, trivial⟩
    ⟨List.nodup_singleton _, trivial, trivial⟩ (deepPlain_of_no_bslash (by decide))
      (deepPlain_of_no_bslash (by decide))
    rfl (deepPlain_of_no_bslash (by decide))

end SonicJson
