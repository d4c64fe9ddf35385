/-
What the region invariant gives a reader of the store.

A region is a forest whose edges point forward, so a node is reached
along one path only (`lookup_inj`), and a node below another lies below
its path (`lookup_prefix_of_reach`). A node's materialised tree reads
only the cells below it (`toVariant_congr`), and past the region's size
the fuel no longer matters (`toVariant_fuel`): a write that leaves the
cells below a node alone leaves its materialised tree alone
(`materialize_congr`).
-/
import QutimConfig.Proofs.Layers

namespace QutimConfig

namespace Tree

variable {T T' : Tree} {a b c x y z : Nat}

/-- `c` lies below `a`: reached through children, list items included. -/
inductive Reach (T : Tree) (a : Nat) : Nat → Prop
  | refl : Reach T a a
  | child {b c : Nat} : Reach T a b → c ∈ (T.cells b).payload.children → Reach T a c

theorem Reach.trans (h₁ : T.Reach a b) (h₂ : T.Reach b c) : T.Reach a c := by
  induction h₂ with
  | refl => exact h₁
  | child _ hc ih => exact .child ih hc

/-- Below an allocated node lie allocated nodes at or after it. -/
theorem Reach.bound (hT : T.Closed) (ha : a < T.next) (h : T.Reach a b) : a ≤ b ∧ b < T.next := by
  induction h with
  | refl => exact ⟨le_rfl, ha⟩
  | child _ hc ih => exact ⟨ih.1.trans (hT.above _ ih.2 _ hc).le, hT.bound _ ih.2 _ hc⟩

/-- A node carries the read-only flag of every node above it. -/
theorem Reach.readOnly (hT : T.Closed) (ha : a < T.next) (h : T.Reach a b) :
    (T.cells b).readOnly = (T.cells a).readOnly := by
  induction h with
  | refl => rfl
  | @child b c hab hc ih => rw [hT.readOnly b (hab.bound hT ha).2 c hc, ih]

theorem entry_child {n : String} (h : (T.entries a).lookup n = some c) :
    c ∈ (T.cells a).payload.children :=
  mem_children_of_entries (List.mem_map.2 ⟨(n, c), QMap.mem_of_lookup h, rfl⟩)

/-- One name further down a path. -/
theorem lookup_snoc_some {s : List String} {n : String} (h : T.lookup a (s ++ [n]) = some x) :
    ∃ b, T.lookup a s = some b ∧ (T.entries b).lookup n = some x := by
  rw [lookup_snoc] at h
  exact Option.bind_eq_some.1 h

theorem lookup_reach : ∀ {s : List String} {x : Nat}, T.lookup a s = some x → T.Reach a x := by
  intro s
  induction s using List.reverseRecOn with
  | nil => intro x h; cases h; exact .refl
  | append_singleton s n ih =>
      intro x h
      obtain ⟨b, hb, hx⟩ := lookup_snoc_some h
      exact .child (ih hb) (entry_child hx)

/-- A path that takes a step ends strictly below where it starts. -/
theorem lookup_above (hT : T.Closed) (ha : a < T.next) {s : List String} {n : String}
    (h : T.lookup a (s ++ [n]) = some x) : a < x := by
  obtain ⟨b, hb, hx⟩ := lookup_snoc_some h
  have := (lookup_reach hb).bound hT ha
  exact lt_of_le_of_lt this.1 (hT.above b this.2 x (entry_child hx))

theorem key_eq_of_values_nodup {m : List (String × Nat)} {k k' : String}
    (hn : (m.map (·.2)).Nodup) (h : m.lookup k = some c) (h' : m.lookup k' = some c) : k = k' := by
  have := List.inj_on_of_nodup_map hn (QMap.mem_of_lookup h) (QMap.mem_of_lookup h') rfl
  exact (Prod.mk.inj this).1

/-- A node is reached along one path only. -/
theorem lookup_inj (hT : T.Closed) (ha : a < T.next) :
    ∀ {s s' : List String} {x : Nat}, T.lookup a s = some x → T.lookup a s' = some x → s = s' := by
  intro s
  induction s using List.reverseRecOn with
  | nil =>
      intro s' x h h'
      cases h
      rcases List.eq_nil_or_concat s' with rfl | ⟨t, n, rfl⟩
      · rfl
      · rw [List.concat_eq_append] at h'
        exact absurd (lookup_above hT ha h') (Nat.lt_irrefl _)
  | append_singleton s n ih =>
      intro s' x h h'
      obtain ⟨b, hb, hx⟩ := lookup_snoc_some h
      have hbb := (lookup_reach hb).bound hT ha
      rcases List.eq_nil_or_concat s' with rfl | ⟨t, n', rfl⟩
      · cases h'
        exact absurd (lookup_above hT ha h) (Nat.lt_irrefl _)
      · rw [List.concat_eq_append] at h' ⊢
        obtain ⟨b', hb', hx'⟩ := lookup_snoc_some h'
        have hbb' := (lookup_reach hb').bound hT ha
        obtain rfl := hT.parent b hbb.2 b' hbb'.2 x (entry_child hx) (entry_child hx')
        rw [ih hb hb', key_eq_of_values_nodup (hT.nodup_entries hbb.2) hx hx']

/-- A node reached along `s'` that lies below the node at `s` extends
`s`. -/
theorem lookup_prefix_of_reach (hT : T.Closed) (ha : a < T.next) {s : List String}
    (hy : T.lookup a s = some y) (hr : T.Reach y x) :
    ∀ {s' : List String}, T.lookup a s' = some x → s <+: s' := by
  have hyb := (lookup_reach hy).bound hT ha
  induction hr with
  | refl => intro s' h; exact lookup_inj hT ha hy h ▸ List.prefix_refl _
  | @child b x hyb' hc ih =>
      intro s' h
      have hb := hyb'.bound hT hyb.2
      rcases List.eq_nil_or_concat s' with rfl | ⟨t, n, rfl⟩
      · cases h
        have := hT.above b hb.2 _ hc
        have := hyb.1
        have := hb.1
        omega
      · rw [List.concat_eq_append] at h ⊢
        obtain ⟨b', hb', hx⟩ := lookup_snoc_some h
        have hbb' := (lookup_reach hb').bound hT ha
        obtain rfl := hT.parent b hb.2 b' hbb'.2 x hc (entry_child hx)
        exact (ih hb').trans (List.prefix_append _ _)

-- ================================================ what a node reads

/-- Lookups from a node read only the cells below it. -/
theorem lookup_congr (hy : ∀ b, T.Reach y b → T'.cells b = T.cells b) :
    ∀ s, T'.lookup y s = T.lookup y s := by
  intro s
  induction s generalizing y with
  | nil => rfl
  | cons n ns ih =>
      have he : T'.entries y = T.entries y := by simp only [entries, hy y .refl]
      simp only [lookup, he]
      cases hc : (T.entries y).lookup n with
      | none => rfl
      | some c =>
          exact ih fun b hb => hy b (Reach.trans (.child .refl (entry_child hc)) hb)

/-- One level of `toVariant`: a node's tree is built from its payload
and its children's trees. -/
theorem toVariant_succ_congr {n m : Nat} (hz : (T'.cells z).payload = (T.cells z).payload)
    (hc : ∀ c ∈ (T.cells z).payload.children, T'.toVariant m c = T.toVariant n c) :
    T'.toVariant (m + 1) z = T.toVariant (n + 1) z := by
  simp only [toVariant, hz]
  split
  · next mm hm =>
      congr 1
      refine List.foldl_ext _ _ _ fun acc p hp => ?_
      rw [hc p.2 (by simp only [hm, Payload.children]; exact List.mem_map_of_mem _ hp)]
  · next xs hm =>
      congr 1
      exact List.map_congr_left fun c hc' => hc c (by simpa [hm, Payload.children] using hc')
  · rfl
  · rfl

/-- The materialised tree of a node reads only the cells below it. -/
theorem toVariant_congr (hz : ∀ b, T.Reach z b → T'.cells b = T.cells b) :
    ∀ n, T'.toVariant n z = T.toVariant n z := by
  intro n
  induction n generalizing z with
  | zero => rfl
  | succ n ih =>
      exact toVariant_succ_congr (by rw [hz z .refl]) fun c hc =>
        ih fun b hb => hz b (Reach.trans (.child .refl hc) hb)

/-- Past the distance to the end of the region, fuel changes nothing. -/
theorem toVariant_fuel (hT : T.Closed) :
    ∀ {n m z : Nat}, z < T.next → T.next - z ≤ n → T.next - z ≤ m →
      T.toVariant n z = T.toVariant m z := by
  intro n
  induction n with
  | zero => intro m z hz hn _; omega
  | succ n ih =>
      intro m z hz hn hm
      cases m with
      | zero => omega
      | succ m =>
          refine toVariant_succ_congr rfl fun c hc => ?_
          have := hT.above z hz c hc
          exact ih (hT.bound z hz c hc) (by omega) (by omega)

/-- A region that grew without touching the cells below a node has the
same materialised tree at it. -/
theorem materialize_congr (hT : T.Closed) (hz : z < T.next) (hn : T.next ≤ T'.next)
    (hc : ∀ b, T.Reach z b → T'.cells b = T.cells b) : T'.materialize z = T.materialize z := by
  unfold materialize
  rw [toVariant_congr hc, toVariant_fuel (n := T'.next) (m := T.next) hT hz (by omega) (by omega)]

end Tree

end QutimConfig
