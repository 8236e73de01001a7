/-
# Runs of copies and destructions

A program copies nodes out of the trees that it has, with their strings, to new trees or
over other trees, and destroys trees when it is done with them. The allocator has a block
for each request; what the constructor does where it is refused one is not part of this.
Each tree then leads to its own blocks only, or to blocks of somebody else, and the live
blocks are those of the trees (`Owned`). Every operation keeps this, in any order
(`run_owned`): no block is freed twice, none is read after it is freed, and where memory
is freed at all none is left behind.
-/
import SonicJson.NodeCopy

namespace SonicJson

namespace NodeCopy

open Blocks

namespace DNode

/-! ### The copy is sound -/

section
variable {alloc : Allocator} {copyString : Bool} {valid : Finset ℕ}

theorem paired_single {n : DNode} (hsubs : n.subs = [n]) (hn : n.Paired) : ∀ m ∈ n.subs, m.Paired := by
  intro m hm
  rw [hsubs, List.mem_singleton] at hm
  exact hm ▸ hn

theorem copyElems_length : ∀ (ns : List DNode) (h : Finset ℕ) {r : List DNode × Finset ℕ},
    copyElems alloc copyString valid ns h = some r → r.1.length = ns.length
  | [], _, _, hc => by
    obtain rfl := Option.some.inj hc
    rfl
  | n :: ns, h, r, hc => by
    rw [copyElems] at hc
    obtain ⟨s, -, hc⟩ := Option.bind_eq_some_iff.mp hc
    obtain ⟨t, ht, rfl⟩ := Option.map_eq_some_iff.mp hc
    rw [List.length_cons, List.length_cons, copyElems_length ns _ ht]

theorem paired_copyBuffer {make : Buffer → DNode} (hsubs : ∀ s, (make s).subs = [make s])
    (hp : ∀ s, (make s).Paired) {s : Buffer} {h : Finset ℕ} {r : DNode × Finset ℕ}
    (hc : copyBuffer alloc valid make s h = some r) :
    ∀ m ∈ r.1.subs, m.Paired := by
  rw [copyBuffer] at hc
  split_ifs at hc
  obtain rfl := Option.some.inj hc
  exact paired_single (hsubs _) (hp _)

mutual

/-- The names and values of a copy come in pairs as those of its source do. -/
theorem copy_paired : ∀ (n : DNode) (h : Finset ℕ) {r : DNode × Finset ℕ}, (∀ m ∈ n.subs, m.Paired) →
    copy alloc copyString valid n h = some r → ∀ m ∈ r.1.subs, m.Paired
  | obj mem ns, h, r, hp, hc => by
    rw [copy] at hc
    by_cases hcount : 0 < ns.length / 2
    · rw [if_pos hcount] at hc
      split_ifs at hc with hmem
      obtain ⟨s, hs, rfl⟩ := Option.map_eq_some_iff.mp hc
      intro m hm
      rw [subs, List.mem_append, List.mem_singleton] at hm
      rcases hm with hm | rfl
      · exact copyElems_paired ns _ (forall_subs hp).1 hs m hm
      · intro mem' ns' he
        cases he
        rw [copyElems_length ns _ hs]
        exact (forall_subs hp).2 mem ns rfl
    · rw [if_neg hcount] at hc
      obtain rfl := Option.some.inj hc
      exact paired_single rfl fun mem' ns' he => by cases he; decide
  | arr mem ns, h, r, hp, hc => by
    rw [copy] at hc
    by_cases hcount : 0 < ns.length
    · rw [if_pos hcount] at hc
      split_ifs at hc with hmem
      obtain ⟨s, hs, rfl⟩ := Option.map_eq_some_iff.mp hc
      intro m hm
      rw [subs, List.mem_append, List.mem_singleton] at hm
      rcases hm with hm | rfl
      · exact copyElems_paired ns _ (forall_subs hp).1 hs m hm
      · exact fun _ _ he => by cases he
    · rw [if_neg hcount] at hc
      obtain rfl := Option.some.inj hc
      exact paired_single rfl fun _ _ he => by cases he
  | str t s, h, r, _, hc => by
    rw [copy] at hc
    by_cases ht : t ≠ .kStringConst ∨ copyString
    · rw [if_pos ht] at hc
      exact paired_copyBuffer (fun _ => rfl) (fun _ _ _ he => by cases he) hc
    · rw [if_neg ht] at hc
      split_ifs at hc
      obtain rfl := Option.some.inj hc
      exact paired_single rfl fun _ _ he => by cases he
  | numStr o s, h, r, _, hc => paired_copyBuffer (fun _ => rfl) (fun _ _ _ he => by cases he) hc
  | raw o s, h, r, _, hc => paired_copyBuffer (fun _ => rfl) (fun _ _ _ he => by cases he) hc
  | null, _, _, _, hc => Option.some.inj hc ▸ paired_single rfl fun _ _ he => by cases he
  | bool _, _, _, _, hc => Option.some.inj hc ▸ paired_single rfl fun _ _ he => by cases he
  | uint _, _, _, _, hc => Option.some.inj hc ▸ paired_single rfl fun _ _ he => by cases he
  | sint _, _, _, _, hc => Option.some.inj hc ▸ paired_single rfl fun _ _ he => by cases he
  | real _, _, _, _, hc => Option.some.inj hc ▸ paired_single rfl fun _ _ he => by cases he

theorem copyElems_paired : ∀ (ns : List DNode) (h : Finset ℕ) {r : List DNode × Finset ℕ},
    (∀ m ∈ subsAll ns, m.Paired) → copyElems alloc copyString valid ns h = some r →
    ∀ m ∈ subsAll r.1, m.Paired
  | [], _, _, _, hc => by
    obtain rfl := Option.some.inj hc
    exact fun m hm => absurd hm List.not_mem_nil
  | n :: ns, h, r, hp, hc => by
    rw [copyElems] at hc
    obtain ⟨s, hs, hc⟩ := Option.bind_eq_some_iff.mp hc
    obtain ⟨t, ht, rfl⟩ := Option.map_eq_some_iff.mp hc
    intro m hm
    rw [subsAll, List.mem_append] at hm
    rcases hm with hm | hm
    · exact copy_paired n h (forall_subsAll hp).1 hs m hm
    · exact copyElems_paired ns _ (forall_subsAll hp).2 ht m hm

end

/-- A node that leads somewhere where it has children, with as much capacity as children, is sound. -/
theorem sound_of_reads {P : ℕ → Prop} {n : DNode} (hp : n.Paired) (he : n.Exact) (hr : n.Reads P) :
    n.Sound := by
  refine ⟨fun hm => ?_, ?_, hp, fun m ns hn => he.map m (by rw [hn]; rfl)⟩
  · by_contra hne
    have hpos : 0 < n.Size := by
      cases n with
      | arr mem ns => exact List.length_pos_iff.mpr hne
      | obj mem ns =>
        obtain ⟨k, hk⟩ := hp mem ns rfl
        have hlen : 0 < ns.length := List.length_pos_iff.mpr hne
        show 0 < ns.length / 2
        omega
      | _ => exact absurd rfl hne
    obtain ⟨m, hsome, -⟩ := hr.children hpos
    rw [hm] at hsome
    cases hsome
  · rcases Nat.eq_zero_or_pos n.Size with hz | hpos
    · omega
    · exact (he.capacity hpos).ge

end

/-! ### Operations -/

/-- The node at a place of the trees is copied to a new tree, a tree is destroyed, or it becomes a
copy of a node of another tree. -/
inductive Op
  | copy (q : List ℕ)
  | destroy (i : ℕ)
  | copyFrom (i : ℕ) (q : List ℕ)

/-- The copying constructor, the destructor and `CopyFrom`. Where there is no such node nothing
happens. -/
def exec (alloc : Allocator) : Op → List DNode × Finset ℕ → Option (List DNode × Finset ℕ)
  | .copy q, s =>
    match getIn s.1 q with
    | none => some s
    | some rhs => (copy alloc true s.2 rhs s.2).map fun r => (r.1 :: s.1, r.2)
  | .destroy i, s =>
    match s.1[i]? with
    | none => some s
    | some n => (n.destroy alloc s.2).map fun h => (s.1.eraseIdx i, h)
  | .copyFrom i q, s =>
    if q.head? = some i ∨ s.1[i]? = none ∨ getIn s.1 q = none then some s
    else (CopyFrom alloc true s.1 [i] q s.2).map fun r => (s.1.set i r.1, r.2)

def run (alloc : Allocator) : List Op → List DNode × Finset ℕ → Option (List DNode × Finset ℕ)
  | [], s => some s
  | op :: ops, s => (exec alloc op s).bind (run alloc ops)

/-- The live blocks are those of the trees and `l`, each once, and a tree leads to its own blocks
and to those of `l`. -/
structure Owned (ns : List DNode) (l : List ℕ) (h : Finset ℕ) : Prop where
  holds : Holds (blocksAll ns ++ l) h
  sound : ∀ m ∈ subsAll ns, m.Sound
  alone : ∀ n ∈ ns, ∀ m ∈ n.subs, m.Reads fun a => a ∈ n.blocks ∨ a ∈ l

/-- The tree that is set, and the others. -/
theorem set_perm {ns : List DNode} {i : ℕ} {n : DNode} (hi : ns[i]? = some n) (x : DNode) :
    (ns.set i x).Perm (x :: ns.eraseIdx i) := by
  obtain ⟨hlt, -⟩ := List.getElem?_eq_some_iff.mp hi
  rw [List.set_eq_take_append_cons_drop, if_pos hlt, List.eraseIdx_eq_take_drop_succ]
  exact List.perm_middle

theorem mem_subsAll : ∀ {ns : List DNode} {m : DNode}, m ∈ subsAll ns → ∃ n ∈ ns, m ∈ n.subs
  | n :: ns, m, hm => by
    rw [subsAll, List.mem_append] at hm
    rcases hm with hm | hm
    · exact ⟨n, List.mem_cons_self, hm⟩
    · obtain ⟨n', hn', hm⟩ := mem_subsAll hm
      exact ⟨n', List.mem_cons_of_mem _ hn', hm⟩

theorem blocks_subset {ns : List DNode} {n : DNode} (hn : n ∈ ns) :
    ∀ a ∈ n.blocks, a ∈ blocksAll ns := by
  obtain ⟨i, hi⟩ := List.mem_iff_getElem?.mp hn
  exact blocksAll_getIn (p := [i]) hi

section
variable {alloc : Allocator} {ns : List DNode} {l : List ℕ} {h : Finset ℕ}

/-- What a tree leads to is live. -/
theorem Owned.reads (hs : Owned ns l h) : ∀ m ∈ subsAll ns, m.Reads (· ∈ h) := by
  intro m hm
  obtain ⟨n, hn, hmn⟩ := mem_subsAll hm
  refine (hs.alone n hn m hmn).mono fun a ha => ?_
  rcases ha with ha | ha
  · exact hs.holds.mem_left (blocks_subset hn a ha)
  · exact hs.holds.mem_right ha

/-- A copy is a tree of its own with the value of its source, wherever that stands. -/
theorem Owned.make (hs : Owned ns l h) {rhs : DNode} (hpaired : ∀ m ∈ rhs.subs, m.Paired)
    (hreads : ∀ m ∈ rhs.subs, m.Reads (· ∈ h)) :
    ∃ n' h', DNode.copy alloc true h rhs h = some (n', h') ∧ n'.value = rhs.value ∧
      Owned (n' :: ns) l h' := by
  obtain ⟨n', h', hcopy, hc⟩ := @copy_spec alloc true h rhs h _ hpaired hreads hs.holds
  refine ⟨n', h', hcopy, hc.value, ?_, ?_, ?_⟩
  · rw [blocksAll_cons, List.append_assoc]
    exact hc.holds
  · intro m hm
    rw [subsAll, List.mem_append] at hm
    rcases hm with hm | hm
    · exact sound_of_reads (copy_paired rhs h hpaired hcopy m hm) (hc.made m hm).exact
        (hc.made m hm).reads
    · exact hs.sound m hm
  · intro n hn m hm
    rcases List.mem_cons.mp hn with rfl | hn
    · exact ((hc.made m hm).alone rfl).mono fun _ => .inl
    · exact hs.alone n hn m hm

theorem Owned.copy (hs : Owned ns l h) {q : List ℕ} {rhs : DNode} (hq : getIn ns q = some rhs) :
    ∃ n' h', DNode.copy alloc true h rhs h = some (n', h') ∧ n'.value = rhs.value ∧
      Owned (n' :: ns) l h' := by
  have hsubs := subs_of_getIn q ns hq
  exact hs.make (fun k hk => (hs.sound k (hsubs k hk)).paired) fun k hk => hs.reads k (hsubs k hk)

/-- Without a tree the others are as they were; its blocks are freed, or nobody's any more. -/
theorem Owned.destroy (hs : Owned ns l h) {i : ℕ} {n : DNode} (hi : ns[i]? = some n) :
    ∃ h' l', n.destroy alloc h = some h' ∧ Owned (ns.eraseIdx i) (l' ++ l) h' ∧
      (alloc.kNeedFree = true → l' = []) := by
  obtain ⟨a, b, rfl, herase⟩ : ∃ a b, ns = a ++ n :: b ∧ ns.eraseIdx i = a ++ b := by
    obtain ⟨hlt, rfl⟩ := List.getElem?_eq_some_iff.mp hi
    exact ⟨ns.take i, ns.drop (i + 1), by simp, List.eraseIdx_eq_take_drop_succ ns i⟩
  rw [herase]
  have hperm : (blocksAll (a ++ n :: b) ++ l).Perm (n.blocks ++ (blocksAll (a ++ b) ++ l)) := by
    rw [blocksAll_append, blocksAll_append, blocksAll_cons, List.append_assoc, List.append_assoc,
      List.append_assoc]
    exact List.perm_append_comm_assoc _ _ _
  have hsub : ∀ m ∈ subsAll (a ++ b), m ∈ subsAll (a ++ n :: b) := by
    intro m hm
    rw [subsAll_append, List.mem_append] at hm ⊢
    exact hm.imp_right fun hm => List.mem_append_right _ hm
  have hmem : ∀ k ∈ a ++ b, k ∈ a ++ n :: b := by
    intro k hk
    rw [List.mem_append] at hk ⊢
    exact hk.imp_right fun hk => List.mem_cons_of_mem _ hk
  have hn : ∀ m ∈ n.subs, m.Sound := fun m hm => hs.sound m (subs_of_getIn [i] _ hi m hm)
  have hheld := hs.holds.perm hperm
  obtain ⟨h', hd, hh'⟩ := @destroy_holds alloc _ _ _ hn hheld
  cases hfree : alloc.kNeedFree with
  | true =>
    rw [hfree, if_pos rfl] at hh'
    exact ⟨h', [], hd,
      ⟨hh', fun m hm => hs.sound m (hsub m hm), fun k hk => hs.alone k (hmem k hk)⟩, fun _ => rfl⟩
  | false =>
    rw [hfree, if_neg Bool.false_ne_true] at hh'
    subst hh'
    refine ⟨h', n.blocks, hd, ⟨hheld.perm ?_, fun m hm => hs.sound m (hsub m hm), fun k hk m hm => ?_⟩,
      fun hc => by cases hc⟩
    · rw [← List.append_assoc, ← List.append_assoc]
      exact List.perm_append_comm.append_right l
    · exact (hs.alone k (hmem k hk) m hm).mono fun a ha => ha.imp_right fun ha =>
        List.mem_append_right _ ha

theorem subsAll_perm {ns ns' : List DNode} (hp : ns.Perm ns') : (subsAll ns).Perm (subsAll ns') := by
  induction hp with
  | nil => exact .refl _
  | cons n _ ih => exact ih.append_left _
  | swap n m ns =>
    rw [subsAll, subsAll, subsAll, subsAll, ← List.append_assoc, ← List.append_assoc]
    exact List.perm_append_comm.append_right _
  | trans _ _ ih₁ ih₂ => exact ih₁.trans ih₂

/-- The order of the trees does not matter. -/
theorem Owned.perm (hs : Owned ns l h) {ns' : List DNode} (hp : ns.Perm ns') : Owned ns' l h :=
  ⟨hs.holds.perm (((subsAll_perm hp).flatMap_right own).append_right l), fun m hm =>
    hs.sound m ((subsAll_perm hp).mem_iff.mpr hm), fun n hn => hs.alone n (hp.mem_iff.mpr hn)⟩

theorem Owned.wellFormed (hs : Owned ns l h) : WellFormed ns l h := ⟨hs.holds, hs.sound, hs.reads⟩

/-- The first tree of a place holds the node that is there. -/
theorem getIn_head {ns : List DNode} {j : ℕ} {q : List ℕ} {rhs : DNode}
    (hq : getIn ns (j :: q) = some rhs) :
    ∃ n, ns[j]? = some n ∧ ∀ m ∈ rhs.subs, m ∈ n.subs := by
  cases q with
  | nil => exact ⟨rhs, hq, fun _ hm => hm⟩
  | cons k q =>
    obtain ⟨n, hn, hget⟩ := Option.bind_eq_some_iff.mp hq
    refine ⟨n, hn, fun m hm => ?_⟩
    rw [subs_ne]
    exact List.mem_append_left _ (subs_of_getIn _ _ hget m hm)

/-- A tree becomes a copy of a node of another tree. -/
theorem Owned.copyFrom (hs : Owned ns l h) {i j : ℕ} {q : List ℕ} {this rhs : DNode}
    (hi : ns[i]? = some this) (hq : getIn ns (j :: q) = some rhs) (hij : j ≠ i) :
    ∃ n' h' l', CopyFrom alloc true ns [i] (j :: q) h = some (n', h') ∧ n'.value = rhs.value ∧
      Owned (ns.set i n') (l' ++ l) h' ∧ (alloc.kNeedFree = true → l' = []) := by
  obtain ⟨h₁, l', hd, hs₁, hfree⟩ := @Owned.destroy alloc _ _ _ hs i this hi
  obtain ⟨n, hn, hsubs⟩ := getIn_head hq
  have hnmem : n ∈ ns.eraseIdx i := List.mem_eraseIdx_iff_getElem?.mpr ⟨j, hij, hn⟩
  have hlive : ∀ a ∈ n.blocks, a ∈ h₁ := fun a ha => hs₁.holds.mem_left (blocks_subset hnmem a ha)
  have hpre : ∀ p : List ℕ, ¬ (j :: q) <+: i :: p := by
    rintro p ⟨t, ht⟩
    exact hij (List.cons.inj ht).1
  have hne : [i] ≠ j :: q := fun hc => hij (List.cons.inj hc).1.symm
  -- the block in which the source stands
  have hhome : (homeIn none ns (j :: q)).all (· ∈ h₁) = true := by
    cases q with
    | nil => rfl
    | cons k q =>
      obtain ⟨a, ha, hab⟩ := home_below hs.wellFormed (p := [j]) hn hq (by simp) ⟨k :: q, rfl⟩
      rw [ha]
      exact decide_eq_true (hlive a hab)
  have hreads : ∀ m ∈ rhs.subs, m.Reads (· ∈ h₁) := by
    intro m hm
    refine hs₁.reads m ?_
    obtain ⟨k, hk⟩ := List.mem_iff_getElem?.mp hnmem
    exact subs_of_getIn [k] _ hk m (hsubs m hm)
  obtain ⟨n', h₂, hcopy, hvalue, hs₂⟩ := @Owned.make alloc _ _ _ hs₁ rhs
    (fun k hk => (hs.sound k (subs_of_getIn _ ns hq k hk)).paired) hreads
  refine ⟨n', h₂, l', ?_, hvalue, hs₂.perm (set_perm hi n').symm, hfree⟩
  have hthis : getIn ns [i] = some this := hi
  rw [CopyFrom, hthis, Option.bind_some, hq, Option.bind_some, hd, Option.bind_some, if_pos hhome,
    seen_below hq hne (hpre []), Option.bind_some, hcopy]

/-- One operation has a result and keeps the trees owned. -/
theorem exec_owned (op : Op) (hs : Owned ns l h) : ∃ s' l',
    exec alloc op (ns, h) = some s' ∧ Owned s'.1 (l' ++ l) s'.2 ∧
      (alloc.kNeedFree = true → l' = []) := by
  cases op with
  | copy q =>
    rw [exec]
    cases hq : getIn ns q with
    | none => exact ⟨_, [], rfl, hs, fun _ => rfl⟩
    | some rhs =>
      obtain ⟨n', h', hcopy, -, hs'⟩ := @Owned.copy alloc _ _ _ hs q rhs hq
      exact ⟨(n' :: ns, h'), [], by dsimp only; rw [hcopy]; rfl, hs', fun _ => rfl⟩
  | destroy i =>
    rw [exec]
    cases hi : ns[i]? with
    | none => exact ⟨_, [], rfl, hs, fun _ => rfl⟩
    | some n =>
      obtain ⟨h', l', hd, hs', hfree⟩ := @Owned.destroy alloc _ _ _ hs i n hi
      exact ⟨(ns.eraseIdx i, h'), l', by dsimp only; rw [hd]; rfl, hs', hfree⟩
  | copyFrom i q =>
    rw [exec]
    split_ifs with hno
    · exact ⟨_, [], rfl, hs, fun _ => rfl⟩
    · obtain ⟨hhead, hno⟩ := not_or.mp hno
      obtain ⟨hi, hq⟩ := not_or.mp hno
      obtain ⟨this, hi⟩ := Option.ne_none_iff_exists'.mp hi
      obtain ⟨rhs, hq⟩ := Option.ne_none_iff_exists'.mp hq
      cases q with
      | nil => cases hq
      | cons j q =>
        obtain ⟨n', h', l', hcopy, -, hs', hfree⟩ :=
          @Owned.copyFrom alloc _ _ _ hs i j q this rhs hi hq fun hc =>
          hhead (congrArg some hc)
        exact ⟨(ns.set i n', h'), l', by rw [hcopy]; rfl, hs', hfree⟩

end

/-- **Every run of copies, destructions and `CopyFrom` between trees** from trees that own their
blocks has a result, trees that own theirs: nothing is freed twice, nothing is read after it is
freed, and where memory is freed the live blocks are those of the trees and `l`. -/
theorem run_owned (alloc : Allocator) : ∀ (ops : List Op) {ns : List DNode} {l : List ℕ} {h : Finset ℕ},
    Owned ns l h → ∃ s' l', run alloc ops (ns, h) = some s' ∧ Owned s'.1 (l' ++ l) s'.2 ∧
      (alloc.kNeedFree = true → l' = [])
  | [], ns, l, h, hs => ⟨(ns, h), [], rfl, hs, fun _ => rfl⟩
  | op :: ops, ns, l, h, hs => by
    obtain ⟨s₁, l₁, h1, h2, h3⟩ := @exec_owned alloc _ _ _ op hs
    obtain ⟨s₂, l₂, h4, h5, h6⟩ := run_owned alloc ops h2
    refine ⟨s₂, l₂ ++ l₁, by rw [run, h1, Option.bind_some, h4], by rwa [List.append_assoc],
      fun hfree => ?_⟩
    rw [h3 hfree, h6 hfree]
    rfl

theorem sample_owned : Owned [sample, null] [3] {1, 2, 3} where
  holds := sample_wellFormed.holds
  sound := sample_wellFormed.sound
  alone := by
    intro n hn m hm
    rcases List.mem_cons.mp hn with rfl | hn
    · refine (sample_wellFormed.reads m (List.mem_append_left _ hm)).mono fun a ha => ?_
      have hblocks : sample.blocks = [2, 1] := rfl
      rw [hblocks]
      simp only [Finset.mem_insert, Finset.mem_singleton, List.mem_cons, List.not_mem_nil, or_false]
        at ha ⊢
      omega
    · obtain rfl := List.mem_singleton.mp hn
      exact reads_scalar rfl rfl rfl m hm

/-- The inner object is copied over the null node, and the tree that it was in is destroyed. -/
theorem run_owned_sample : ∃ s' l',
    run ⟨Source.next, true⟩ [.copyFrom 1 [0, 1], .destroy 0] ([sample, null], {1, 2, 3}) = some s' ∧
      Owned s'.1 (l' ++ [3]) s'.2 ∧ (true = true → l' = []) :=
  run_owned ⟨Source.next, true⟩ _ sample_owned

end DNode

end NodeCopy

end SonicJson
