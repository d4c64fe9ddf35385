/-
A write to one path of a region. `Config::setValue` changes a region
only at the nodes on the key's path: `child` inserts a fresh Null under
a missing name, `convert` and `ensureMap` retag a node without giving it
entries, `replace` stores the new tree under the last name, and
`fromVariant` allocates past the region.

`ChangedAlong T T' a P` says what such a change keeps, seen from `a`: a
path that parts from `P` reaches the same node, with the same cells
below it (`ChangedAlong.materialize`). One change to one node of `P`'s
way keeps it (`ChangedAlong.modify`), so each of the operations above
does (`ChangedAlong.child`, `ChangedAlong.convert`,
`ChangedAlong.replace`), and so does a sequence of them
(`ChangedAlong.trans`).
-/
import QutimConfig.Proofs.RoundTrip

namespace QutimConfig

namespace Tree

variable {T T' T'' : Tree} {a b x : Nat} {P s : List String}

-- ================================================= paths that part

/-- Two paths part: neither extends the other. -/
def Apart (q P : List String) : Prop := ¬q <+: P ∧ ¬P <+: q

theorem Reach.congr (hc : ∀ b, T.Reach x b → T'.cells b = T.cells b) {b : Nat}
    (h : T.Reach x b) : T'.Reach x b := by
  induction h with
  | refl => exact .refl
  | @child b c hb hbc ih => exact .child ih (by rw [hc b hb]; exact hbc)

/-- `T'` is `T` changed along `P` only, seen from `a`: a path that parts
from `P` reaches the same node, with the same cells below it; the region
only grows; `a` keeps its tag and its read-only flag. -/
structure ChangedAlong (T T' : Tree) (a : Nat) (P : List String) : Prop where
  lookup : ∀ q, Apart q P → T'.lookup a q = T.lookup a q
  below : ∀ q x, Apart q P → T.lookup a q = some x → ∀ b, T.Reach x b → T'.cells b = T.cells b
  next : T.next ≤ T'.next
  root : (T'.cells a).isMap = (T.cells a).isMap
  flag : (T'.cells a).readOnly = (T.cells a).readOnly

theorem ChangedAlong.refl (T : Tree) (a : Nat) (P : List String) : ChangedAlong T T a P :=
  ⟨fun _ _ => rfl, fun _ _ _ _ _ _ => rfl, le_rfl, rfl, rfl⟩

theorem ChangedAlong.trans (h₁ : ChangedAlong T T' a P) (h₂ : ChangedAlong T' T'' a P) :
    ChangedAlong T T'' a P where
  lookup q hq := (h₂.lookup q hq).trans (h₁.lookup q hq)
  below q x hq hx b hb := by
    have hc := h₁.below q x hq hx
    rw [h₂.below q x hq ((h₁.lookup q hq).trans hx) b (hb.congr hc), hc b hb]
  next := h₁.next.trans h₂.next
  root := h₂.root.trans h₁.root
  flag := h₂.flag.trans h₁.flag

/-- The tree reached along a path that parts from `P` materialises as it
did. -/
theorem ChangedAlong.materialize (hc : ChangedAlong T T' a P) (hT : T.Closed) (ha : a < T.next)
    {q : List String} (hq : Apart q P) (hx : T.lookup a q = some x) :
    T'.materialize x = T.materialize x :=
  materialize_congr hT ((lookup_reach hx).bound hT ha).2 hc.next (hc.below q x hq hx)

/-- Allocation past the region leaves every path as it was. -/
theorem ChangedAlong.of_frame (hT : T.Closed) (ha : a < T.next)
    (hframe : ∀ b < T.next, T'.cells b = T.cells b) (hn : T.next ≤ T'.next) (P : List String) :
    ChangedAlong T T' a P := by
  have hr : ∀ b, T.Reach a b → T'.cells b = T.cells b := fun b hb => hframe b (hb.bound hT ha).2
  exact ⟨fun q _ => lookup_congr hr q, fun _ _ _ hx b hb => hr b ((lookup_reach hx).trans hb),
    hn, by rw [hframe a ha], by rw [hframe a ha]⟩

-- ==================================================== one node changes

/-- A change to node `b`, at `s`, shows only on the paths that take one
of `b`'s changed entries. -/
theorem lookup_modify (hT : T.Closed) (ha : a < T.next) (hb : T.lookup a s = some b)
    (hframe : ∀ x < T.next, x ≠ b → T'.cells x = T.cells x) :
    ∀ q, (∀ y, s ++ [y] <+: q → (T'.entries b).lookup y = (T.entries b).lookup y) →
      T'.lookup a q = T.lookup a q := by
  intro q
  induction q using List.reverseRecOn with
  | nil => intro _; rfl
  | append_singleton q y ih =>
      intro hq
      rw [lookup_snoc, lookup_snoc, ih fun z hz => hq z (hz.trans (List.prefix_append _ _))]
      cases hx : T.lookup a q with
      | none => rfl
      | some x =>
          by_cases hxb : x = b
          · subst hxb
            obtain rfl := lookup_inj hT ha hx hb
            exact hq y (List.prefix_refl _)
          · have he : T'.entries x = T.entries x := by
              simp only [entries, hframe x ((lookup_reach hx).bound hT ha).2 hxb]
            simp only [Option.some_bind, he]

theorem lookup_modify_self (hT : T.Closed) (ha : a < T.next) (hb : T.lookup a s = some b)
    (hframe : ∀ x < T.next, x ≠ b → T'.cells x = T.cells x) : T'.lookup a s = some b :=
  (lookup_modify hT ha hb hframe s fun _ h => absurd h.length_le (by simp)).trans hb

/-- Only the empty path reaches the node it starts from. -/
theorem lookup_ne_root (hT : T.Closed) (ha : a < T.next) (hb : T.lookup a s = some b)
    (hs : s ≠ []) : b ≠ a := by
  obtain ⟨t, n, rfl⟩ := (List.eq_nil_or_concat s).resolve_left hs
  rw [List.concat_eq_append] at hb
  exact (lookup_above hT ha hb).ne'

/-- The node at `s` is a Map where `s` is empty, so the start keeps its
tag whatever happens to the node's entries. -/
theorem root_isMap (hT : T.Closed) (ha : a < T.next) (hb : T.lookup a s = some b)
    (hroot : s = [] → (T.cells b).isMap) (hba : b = a) : (T.cells a).isMap := by
  by_cases hs : s = []
  · exact hba ▸ hroot hs
  · exact absurd hba (lookup_ne_root hT ha hb hs)

/-- How a change to node `b`, at `s`, may treat its entry under `y` for
the region to change along `P` only: the entry stays; or it is `P`'s
last name; or, on the way to `P`, a missing entry becomes a fresh node
with no entries. -/
def KeyOK (T T' : Tree) (b : Nat) (s P : List String) (y : String) : Prop :=
  (T'.entries b).lookup y = (T.entries b).lookup y ∨ s ++ [y] = P ∨
    (s ++ [y] <+: P ∧ (T.entries b).lookup y = none ∧
      ∃ c, (T'.entries b).lookup y = some c ∧ T.next ≤ c ∧ T'.entries c = [])

/-- A change to one node on `P`'s way, whose entries change as `KeyOK`
allows, changes the region along `P` only. -/
theorem ChangedAlong.modify (hT : T.Closed) (ha : a < T.next) (hb : T.lookup a s = some b)
    (hs : s <+: P) (hframe : ∀ x < T.next, x ≠ b → T'.cells x = T.cells x)
    (hn : T.next ≤ T'.next) (hkeys : ∀ y, KeyOK T T' b s P y)
    (hroot : b = a → (T'.cells a).isMap = (T.cells a).isMap)
    (hflag : (T'.cells b).readOnly = (T.cells b).readOnly) : ChangedAlong T T' a P where
  lookup q hq := by
    by_cases hch : ∀ y, s ++ [y] <+: q → (T'.entries b).lookup y = (T.entries b).lookup y
    · exact lookup_modify hT ha hb hframe q hch
    push_neg at hch
    obtain ⟨y, ⟨r, rfl⟩, hne⟩ := hch
    rcases hkeys y with h | h | ⟨hP, hnone, c, hc, -, hce⟩
    · exact absurd h hne
    · exact absurd (by rw [← h]; exact List.prefix_append _ _) hq.2
    · cases r with
      | nil => exact absurd (by simpa using hP) hq.1
      | cons z r =>
          rw [lookup_append T', lookup_append T, lookup_snoc, lookup_snoc,
            lookup_modify_self hT ha hb hframe, hb]
          simp only [Option.some_bind, hc, hnone, Option.none_bind]
          show ((T'.entries c).lookup z).bind _ = none
          rw [hce]
          rfl
  below q x hq hx z hz := by
    refine hframe z (((lookup_reach hx).trans hz).bound hT ha).2 fun e => hq.1 ?_
    subst e
    exact (lookup_prefix_of_reach hT ha hx hz hb).trans hs
  next := hn
  root := by
    by_cases hba : b = a
    · exact hroot hba
    · rw [hframe a ha (Ne.symm hba)]
  flag := by
    by_cases hba : b = a
    · exact hba ▸ hflag
    · rw [hframe a ha (Ne.symm hba)]

-- ========================================================= operations

/-- `child(name)` on a writable node always answers a node. -/
theorem child_some_of_writable {name : String} {r : Option Nat} (hro : (T.cells b).readOnly = false)
    (e : T.child b name = some (r, T')) : r.isSome := by
  rcases child_cases e with ⟨c, rfl, -⟩ | ⟨-, -, h, -⟩ | ⟨rfl, -⟩
  · rfl
  · simp [hro] at h
  · rfl

/-- `ConfigAtom::child(name)` on the node at `s`, one name along `P`:
the region changes along `P` only, and an answered child is the node at
`s ++ [name]`, with the node's read-only flag. -/
theorem ChangedAlong.child {name : String} (hT : T.Closed) (ha : a < T.next)
    (hb : T.lookup a s = some b) (hP : s ++ [name] <+: P) (hroot : s = [] → (T.cells b).isMap)
    {r : Option Nat} (e : T.child b name = some (r, T')) :
    ChangedAlong T T' a P ∧ ∀ c ∈ r, T'.lookup a (s ++ [name]) = some c ∧
      (T'.cells c).readOnly = (T.cells b).readOnly := by
  have hbn := ((lookup_reach hb).bound hT ha).2
  rcases child_cases e with ⟨c, rfl, rfl, hc⟩ | ⟨rfl, rfl, -, -⟩ | ⟨rfl, hro, hnone, rfl⟩
  · refine ⟨.refl _ a P, fun c' hc' => ?_⟩
    cases Option.mem_some_iff.1 hc'
    rw [lookup_snoc, hb]
    exact ⟨hc, hT.readOnly b hbn c (entry_child hc)⟩
  · exact ⟨.refl _ a P, fun _ h => nomatch h⟩
  · -- a fresh Null at the next address, inserted under `name`
    set T₁ := ((T.ensureMap b).alloc (Atom.create false)).1
    have hfresh : T₁.cells T.next = Atom.create false := by
      have := alloc_cells_self (T.ensureMap b) (Atom.create false)
      rwa [ensureMap_next] at this
    have hframe : ∀ x < T.next, x ≠ b →
        (T₁.setPayload b (.map (QMap.insert name T.next (T.entries b)))).cells x = T.cells x :=
      fun x hx hxb => by
        rw [setPayload_cells_ne _ _ hxb, alloc_cells_ne _ _ (by simpa using Nat.ne_of_lt hx),
          ensureMap_cells_ne hxb]
    have hempty : (T₁.setPayload b (.map (QMap.insert name T.next (T.entries b)))).entries
        T.next = [] := by
      simp only [entries, setPayload_cells_ne _ _ (Nat.ne_of_gt hbn), hfresh, Atom.create]
    refine ⟨.modify hT ha hb ((List.prefix_append s [name]).trans hP) hframe (by simp [T₁])
      (fun y => ?_) (fun hba => ?_) ?_, fun c hc => ?_⟩
    · by_cases hy : y = name
      · subst hy
        exact .inr (.inr ⟨hP, hnone, T.next, by simp, le_rfl, hempty⟩)
      · exact .inl (by rw [entries_setPayload_map, QMap.lookup_insert_ne _ _ hy])
    · rw [root_isMap hT ha hb hroot hba]
      subst hba
      simp [Atom.isMap, Atom.type, Payload.type]
    · rw [setPayload_cells_self, alloc_cells_ne _ _ (by simpa using Nat.ne_of_lt hbn)]
      exact ensureMap_readOnly
    · cases Option.mem_some_iff.1 hc
      rw [lookup_snoc, lookup_modify_self hT ha hb hframe,
        setPayload_cells_ne _ _ (Nat.ne_of_gt hbn), hfresh, hro]
      simp [Atom.create]

@[simp] theorem entries_convert_map : (T.convert a .map).entries a = T.entries a := by
  unfold convert
  split_ifs <;> simp

theorem convert_map_cells_ne (h : b ≠ a) : (T.convert a .map).cells b = T.cells b := by
  unfold convert
  split_ifs
  · rfl
  · exact ensureMap_cells_ne h

@[simp] theorem convert_map_readOnly : ((T.convert a .map).cells a).readOnly = (T.cells a).readOnly := by
  unfold convert
  split_ifs <;> simp

/-- `ConfigAtom::convert(Map)` on the node at `s`, a prefix of `P`. -/
theorem ChangedAlong.convert (hT : T.Closed) (ha : a < T.next) (hb : T.lookup a s = some b)
    (hs : s <+: P) (hroot : s = [] → (T.cells b).isMap) :
    ChangedAlong T (T.convert b .map) a P ∧ (T.convert b .map).lookup a s = some b := by
  have hframe : ∀ x < T.next, x ≠ b → (T.convert b .map).cells x = T.cells x :=
    fun x _ hxb => convert_map_cells_ne hxb
  refine ⟨.modify hT ha hb hs hframe (by simp) (fun y => .inl (by simp)) (fun hba => ?_) (by simp),
    lookup_modify_self hT ha hb hframe⟩
  have hm := root_isMap hT ha hb hroot hba
  subst hba
  rw [convert_map_of_isMap hm]

/-- What `replace(name, v)` does: it stores `v` under `name` where the
name is missing or `QVariant::cmp` finds its entry's tree unequal to
`v`'s, and otherwise changes nothing. -/
theorem replace_cases {name : String} {v : Nat} {changed : Bool}
    (e : T.replace b name v = some (changed, T')) :
    (T.cells b).isMap ∧
      ((T' = T.setPayload b (.map (QMap.insert name v (T.entries b))) ∧
          ∀ c, (T.entries b).lookup name = some c → (T.materialize c).cmp (T.materialize v) = false) ∨
        T' = T ∧ ∃ c, (T.entries b).lookup name = some c ∧
          (T.materialize c).cmp (T.materialize v) = true) := by
  unfold Tree.replace at e
  split_ifs at e with hm
  refine ⟨by simpa using hm, ?_⟩
  split at e
  · next c hc =>
      split_ifs at e with hne <;> simp only [Option.some.injEq, Prod.mk.injEq] at e <;>
        obtain ⟨-, rfl⟩ := e
      · exact .inl ⟨rfl, fun c' hc' => by cases hc.symm.trans hc'; simpa using hne⟩
      · exact .inr ⟨rfl, c, hc, by simpa using hne⟩
  · next hc =>
      simp only [Option.some.injEq, Prod.mk.injEq] at e
      exact .inl ⟨e.2.symm, fun c' hc' => by cases hc.symm.trans hc'⟩

theorem replace_isSome (hm : (T.cells b).isMap) (name : String) (v : Nat) :
    ∃ r, T.replace b name v = some r := by
  unfold Tree.replace
  rw [if_neg (by simp [hm])]
  split
  · split_ifs <;> exact ⟨_, rfl⟩
  · exact ⟨_, rfl⟩

/-- `ConfigAtom::replace(name, v)` on the node at `s`, for `P`'s last
name, with `v` a node past it: the region changes along `P` only, and
the node at `P` materialises as `replace` leaves it (`Variant.kept`). -/
theorem ChangedAlong.replace {name : String} {v : Nat} {changed : Bool} (hT : T.Closed)
    (ha : a < T.next) (hb : T.lookup a s = some b) (hP : s ++ [name] = P) (hv : v < T.next)
    (hbv : b < v) (e : T.replace b name v = some (changed, T')) :
    ChangedAlong T T' a P ∧ ∃ x, T'.lookup a P = some x ∧
      T'.materialize x = Variant.kept ((T.lookup a P).map T.materialize) (T.materialize v) := by
  have hlP : T.lookup a P = (T.entries b).lookup name := by rw [← hP, lookup_snoc, hb]; rfl
  rw [hlP]
  obtain ⟨hm, ⟨rfl, hne⟩ | ⟨rfl, c, hc, hcv⟩⟩ := replace_cases e
  · have hframe : ∀ x < T.next, x ≠ b →
        (T.setPayload b (.map (QMap.insert name v (T.entries b)))).cells x = T.cells x :=
      fun x _ hxb => setPayload_cells_ne _ _ hxb
    have hkept : Variant.kept (((T.entries b).lookup name).map T.materialize) (T.materialize v) =
        T.materialize v := by
      cases hl : (T.entries b).lookup name with
      | none => rfl
      | some c => simp [Variant.kept, hne c hl]
    refine ⟨.modify hT ha hb (hP ▸ List.prefix_append s [name]) hframe (by simp) (fun y => ?_)
      (fun hba => ?_) (by simp), v, ?_, ?_⟩
    · by_cases hy : y = name
      · exact .inr (.inl (hy ▸ hP))
      · exact .inl (by rw [entries_setPayload_map, QMap.lookup_insert_ne _ _ hy])
    · subst hba
      rw [hm]
      simp [Atom.isMap, Atom.type, Payload.type]
    · rw [← hP, lookup_snoc, lookup_modify_self hT ha hb hframe]
      simp
    · rw [hkept]
      refine materialize_congr hT hv (by simp) fun x hx => setPayload_cells_ne _ _ ?_
      exact Nat.ne_of_gt (lt_of_lt_of_le hbv (hx.bound hT hv).1)
  · refine ⟨.refl _ a P, c, by rw [hlP]; exact hc, ?_⟩
    simp [hc, Variant.kept, hcv]

/-- `ConfigAtom::remove(name)` on the start node: the region changes along
`[name]` only. -/
theorem ChangedAlong.remove {name : String} {removed : Bool} (hT : T.Closed) (ha : a < T.next)
    (e : T.remove a name = some (removed, T')) : ChangedAlong T T' a [name] := by
  unfold Tree.remove at e
  split_ifs at e with hm
  simp only [Option.some.injEq, Prod.mk.injEq] at e
  obtain ⟨-, rfl⟩ := e
  refine .modify hT ha (rfl : T.lookup a [] = some a) (List.nil_prefix) (fun x _ hx => setPayload_cells_ne _ _ hx)
    (by simp) (fun y => ?_) (fun _ => ?_) (by simp)
  · by_cases hy : y = name
    · exact .inr (.inl (by rw [hy]; rfl))
    · exact .inl (by rw [entries_setPayload_map, QMap.lookup_erase_ne _ hy])
  · simp only [Bool.not_eq_true', Bool.not_eq_false] at hm
    rw [setPayload_cells_self, hm]
    rfl

end Tree

end QutimConfig
