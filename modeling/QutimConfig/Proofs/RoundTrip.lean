/-
`ConfigAtom::toVariant` undoes `ConfigAtom::fromVariant` on the values a
`QVariant` can hold: materialising the node built from `v` gives `v`
back (`materialize_fromVariant`).

A `QVariantMap` keeps its keys in `QString` order, once each; the model
writes a map as an association list, so the statement is about the
values whose every map is so ordered (`Variant.canonical`). On such a
list `QMap::insert` appends each entry in turn (`QMap.insert_of_lt`),
and the fold of inserts that both conversions perform rebuilds it
(`QMap.foldl_insert_sorted`).
-/
import QutimConfig.Proofs.Shape

namespace QutimConfig

-- ==================================================== the key order

namespace QMap

variable {α β : Type}

theorem keyLessChars_asymm : ∀ (k j : List Char), keyLessChars k j = true → keyLessChars j k = false
  | [], [], _ => rfl
  | [], _ :: _, _ => rfl
  | _ :: _, [], h => by simp [keyLessChars] at h
  | c :: cs, d :: ds, h => by
      unfold keyLessChars at h ⊢
      by_cases hcd : c = d
      · subst hcd; simpa using keyLessChars_asymm cs ds (by simpa using h)
      · have hdc : d ≠ c := Ne.symm hcd
        simp only [hcd, hdc, if_false, decide_eq_true_eq, decide_eq_false_iff_not, not_lt] at h ⊢
        exact h.le

theorem keyLess_asymm {k j : String} (h : keyLess k j = true) : keyLess j k = false :=
  keyLessChars_asymm _ _ h

theorem keyLess_irrefl (k : String) : keyLess k k = false := by
  cases h : keyLess k k
  · rfl
  · simpa [h] using keyLess_asymm h

/-- A key after every key of the map is appended. -/
theorem insert_of_lt {k : String} {v : α} :
    ∀ {m : List (String × α)}, (∀ p ∈ m, keyLess p.1 k = true) → insert k v m = m ++ [(k, v)]
  | [], _ => rfl
  | (j, w) :: m, h => by
      have hj := h (j, w) (.head _)
      have hne : k ≠ j := fun e => by subst e; simp [keyLess_irrefl] at hj
      unfold insert
      rw [if_neg (by simp [keyLess_asymm hj]), if_neg hne,
        insert_of_lt fun p hp => h p (.tail _ hp)]
      rfl

/-- Inserting, one by one, the entries of a list whose keys are in
order, each after the accumulator's, appends them. -/
theorem foldl_insert_sorted (f : α → β) :
    ∀ (m : List (String × α)) (acc : List (String × β)),
      (m.map (·.1)).Pairwise (keyLess · · = true) →
      (∀ p ∈ acc, ∀ q ∈ m, keyLess p.1 q.1 = true) →
      m.foldl (fun acc p => insert p.1 (f p.2) acc) acc = acc ++ m.map fun p => (p.1, f p.2)
  | [], acc, _, _ => by simp
  | (k, x) :: m, acc, hs, hacc => by
      simp only [List.map_cons, List.pairwise_cons, List.mem_map] at hs
      have hk : ∀ q ∈ m, keyLess k q.1 = true := fun q hq => hs.1 q.1 ⟨q, hq, rfl⟩
      rw [List.foldl_cons, insert_of_lt fun p hp => hacc p hp (k, x) (.head _),
        foldl_insert_sorted f m _ hs.2 fun p hp q hq => ?_]
      · simp
      · rcases List.mem_append.1 hp with hp | hp
        · exact hacc p hp q (.tail _ hq)
        · rw [List.mem_singleton.1 hp]
          exact hk q hq

end QMap

-- ================================================= canonical values

namespace Variant

mutual
/-- A value a `QVariant` can hold: in every map, the keys are in
`QString` order, each once. -/
def canonical : Variant → Bool
  | .invalid => true
  | .scalar _ => true
  | .list xs => canonicalList xs
  | .map m => decide ((m.map (·.1)).Pairwise (QMap.keyLess · · = true)) && canonicalMap m
/-- `canonical` of every element. -/
def canonicalList : List Variant → Bool
  | [] => true
  | x :: xs => canonical x && canonicalList xs
/-- `canonical` of every value of a map. -/
def canonicalMap : List (String × Variant) → Bool
  | [] => true
  | (_, x) :: m => canonical x && canonicalMap m
end

theorem size_le_sizeList {x : Variant} : ∀ {xs : List Variant}, x ∈ xs → x.size ≤ sizeList xs
  | _ :: _, .head _ => by simp only [sizeList]; omega
  | _ :: _, .tail _ h => by have := size_le_sizeList h; simp only [sizeList]; omega

theorem size_le_sizeMap {p : String × Variant} :
    ∀ {m : List (String × Variant)}, p ∈ m → p.2.size ≤ sizeMap m
  | _ :: _, .head _ => by simp only [sizeMap]; omega
  | _ :: _, .tail _ h => by have := size_le_sizeMap h; simp only [sizeMap]; omega

end Variant

-- ==================================================== the round trip

namespace Tree

variable {T : Tree}

mutual
/-- `fromVariant` allocates `size` nodes. -/
theorem fromVariant_next (ro : Bool) : ∀ (v : Variant) (T : Tree),
    (Tree.fromVariant ro v T).2.next = T.next + v.size
  | .invalid, T => rfl
  | .scalar _, T => rfl
  | .list xs, T => by
      simp only [Tree.fromVariant, fromVariantList_next, alloc_next, Variant.size]; omega
  | .map m, T => by
      simp only [Tree.fromVariant, fromVariantMap_next, alloc_next, Variant.size]; omega
theorem fromVariantList_next (ro : Bool) (a : Nat) : ∀ (xs : List Variant) (T : Tree),
    (Tree.fromVariantList ro a xs T).next = T.next + Variant.sizeList xs
  | [], T => rfl
  | x :: xs, T => by
      simp only [Tree.fromVariantList, fromVariantList_next, setPayload_next, fromVariant_next,
        Variant.sizeList]
      omega
theorem fromVariantMap_next (ro : Bool) (a : Nat) : ∀ (m : List (String × Variant)) (T : Tree),
    (Tree.fromVariantMap ro a m T).next = T.next + Variant.sizeMap m
  | [], T => rfl
  | (k, x) :: m, T => by
      simp only [Tree.fromVariantMap, fromVariantMap_next, setPayload_next, fromVariant_next,
        Variant.sizeMap]
      omega
end

/-- A child `c` of node `a` keeps its materialised tree while the loops
of `fromVariant` allocate past the region and rewrite `a`. -/
theorem toVariant_of_frame {T' : Tree} (hT : T.Closed) {a c : Nat} (ha : a < T.next)
    (hc : c ∈ (T.cells a).payload.children)
    (hframe : ∀ b < T.next, b ≠ a → T'.cells b = T.cells b) (n : Nat) :
    T'.toVariant n c = T.toVariant n c := by
  have hac := hT.above a ha c hc
  have hcn := hT.bound a ha c hc
  exact toVariant_congr (fun b hb => hframe b (hb.bound hT hcn).2
    (Nat.ne_of_gt (lt_of_lt_of_le hac (hb.bound hT hcn).1))) n

/-- The frame of one round of the loops: the element's subtree is built
past the region, then the node's payload is rewritten. -/
theorem frame_round {T₁ : Tree} {a : Nat} (hframe : ∀ b < T.next, T₁.cells b = T.cells b)
    (p : Payload) : ∀ b < T.next, b ≠ a → (T₁.setPayload a p).cells b = T.cells b :=
  fun b hb hba => by rw [setPayload_cells_ne _ _ hba, hframe b hb]

/-- The element's subtree, built past the region, keeps its materialised
tree when the round then rewrites the node's payload. -/
theorem toVariant_round {T₁ : Tree} (h₁ : T₁.Closed) {a : Nat} (ha : a < T.next)
    (hlt : T.next < T₁.next) (p : Payload) (n : Nat) :
    (T₁.setPayload a p).toVariant n T.next = T₁.toVariant n T.next :=
  toVariant_congr (fun _ hb => setPayload_cells_ne _ _
    (Nat.ne_of_gt (lt_of_lt_of_le ha (hb.bound h₁ hlt).1))) n

theorem fuel_ne_zero_of_size {v : Variant} {n : Nat} (hn : v.size ≤ n) : n ≠ 0 := by
  have := v.size_pos; omega

mutual
/-- Materialising the node `fromVariant` builds gives the value back,
with any fuel past its size. -/
theorem toVariant_fromVariant (ro : Bool) : ∀ (v : Variant) {T : Tree} {n : Nat}, T.Closed →
    v.canonical = true → v.size ≤ n → (Tree.fromVariant ro v T).2.toVariant n T.next = v
  | v, T, 0, _, _, hn => absurd rfl (fuel_ne_zero_of_size hn)
  | .invalid, T, n + 1, _, _, _ => by simp [Tree.fromVariant, toVariant, Atom.create]
  | .scalar s, T, n + 1, _, _, _ => by simp [Tree.fromVariant, toVariant]
  | .list xs, T, n + 1, hT, hv, hn => by
      have hsize : ∀ x ∈ xs, x.size ≤ n := fun x hx => by
        have := Variant.size_le_sizeList hx; simp only [Variant.size] at hn; omega
      have h₀ := (hT.alloc (x := ⟨.list [], ro⟩) rfl).1
      have hl := fromVariantList_toVariant ro T.next xs h₀ (by simp) (alloc_cells_self _ _)
        (by simp : ([] : List Nat).map _ = []) hv hsize
      simpa [Tree.fromVariant] using hl
  | .map m, T, n + 1, hT, hv, hn => by
      simp only [Variant.canonical, Bool.and_eq_true, decide_eq_true_eq] at hv
      have hsize : ∀ p ∈ m, p.2.size ≤ n := fun p hp => by
        have := Variant.size_le_sizeMap hp; simp only [Variant.size] at hn; omega
      have h₀ := (hT.alloc (x := ⟨.map [], ro⟩) rfl).1
      have hm := fromVariantMap_toVariant ro T.next m h₀ (by simp) (alloc_cells_self _ _)
        (by simp : ([] : List (String × Nat)).map _ = []) hv.2 hsize (by simpa using hv.1)
      simpa [Tree.fromVariant] using hm
/-- The list loop of `fromVariant` appends the materialised elements. -/
theorem fromVariantList_toVariant (ro : Bool) (a : Nat) : ∀ (xs : List Variant) {T : Tree}
    {ys : List Nat} {pre : List Variant} {n : Nat}, T.Closed → a < T.next →
    T.cells a = ⟨.list ys, ro⟩ → ys.map (T.toVariant n) = pre →
    Variant.canonicalList xs = true → (∀ x ∈ xs, x.size ≤ n) →
    (Tree.fromVariantList ro a xs T).toVariant (n + 1) a = .list (pre ++ xs)
  | [], T, ys, pre, n, _, _, hys, hpre, _, _ => by
      simp [Tree.fromVariantList, toVariant, hys, hpre]
  | x :: xs, T, ys, pre, n, hT, ha, hys, hpre, hv, hn => by
      simp only [Variant.canonicalList, Bool.and_eq_true] at hv
      obtain ⟨h₁, h₂, h₃, h₄⟩ := hT.fromVariant_spec ro x
      have hca := h₃ a ha
      have hs := hT.appendRoot h₁ ha h₂ h₃ (by rw [h₄, hys])
      have hitems : (Tree.fromVariant ro x T).2.items a = ys := by simp [items, hca, hys]
      have hpre' : (ys ++ [T.next]).map
          (((Tree.fromVariant ro x T).2.setPayload a (.list (ys ++ [T.next]))).toVariant n) =
            pre ++ [x] := by
        rw [List.map_append, ← hpre, List.map_singleton,
          toVariant_round h₁ ha h₂,
          toVariant_fromVariant ro x hT hv.1 (hn x (.head _))]
        congr 1
        refine List.map_congr_left fun c hc => toVariant_of_frame hT ha ?_ (frame_round h₃ _) n
        simp [hys, Payload.children, hc]
      have hrec := fromVariantList_toVariant ro a xs (hitems ▸ hs) (by simp; omega)
        (by simp [hca, hys]) hpre' hv.2 fun y hy => hn y (.tail _ hy)
      simpa [Tree.fromVariantList, hitems] using hrec
/-- The map loop of `fromVariant` inserts the materialised entries; on
keys in order, `QMap::insert` appends them. -/
theorem fromVariantMap_toVariant (ro : Bool) (a : Nat) : ∀ (m : List (String × Variant))
    {T : Tree} {es : List (String × Nat)} {pre : List (String × Variant)} {n : Nat}, T.Closed →
    a < T.next → T.cells a = ⟨.map es, ro⟩ → es.map (fun p => (p.1, T.toVariant n p.2)) = pre →
    Variant.canonicalMap m = true → (∀ p ∈ m, p.2.size ≤ n) →
    ((pre ++ m).map (·.1)).Pairwise (QMap.keyLess · · = true) →
    (Tree.fromVariantMap ro a m T).toVariant (n + 1) a = .map (pre ++ m)
  | [], T, es, pre, n, _, _, hes, hpre, _, _, hs => by
      have hk : (es.map (·.1)).Pairwise (QMap.keyLess · · = true) := by
        rw [← hpre] at hs; simpa [Function.comp_def] using hs
      simp only [Tree.fromVariantMap, toVariant, hes, List.append_nil]
      rw [QMap.foldl_insert_sorted (T.toVariant n) es [] hk (by simp), List.nil_append, hpre]
  | (k, x) :: m, T, es, pre, n, hT, ha, hes, hpre, hv, hn, hs => by
      simp only [Variant.canonicalMap, Bool.and_eq_true] at hv
      obtain ⟨h₁, h₂, h₃, h₄⟩ := hT.fromVariant_spec ro x
      have hca := h₃ a ha
      have hentries : (Tree.fromVariant ro x T).2.entries a = es := by simp [entries, hca, hes]
      -- the new key comes after every key already there
      have hlt : ∀ p ∈ es, QMap.keyLess p.1 k = true := fun p hp => by
        rw [List.map_append, List.pairwise_append] at hs
        exact hs.2.2 p.1 (hpre ▸ List.mem_map.2 ⟨_, List.mem_map_of_mem _ hp, rfl⟩) k (.head _)
      have hins : QMap.insert k T.next es = es ++ [(k, T.next)] := QMap.insert_of_lt hlt
      have hs' := hT.insertRoot h₁ ha h₂ h₃ (by rw [h₄, hes]) k
      rw [hentries, hins] at hs'
      have hpre' : (es ++ [(k, T.next)]).map (fun p => (p.1,
          ((Tree.fromVariant ro x T).2.setPayload a (.map (es ++ [(k, T.next)]))).toVariant n p.2)) =
            pre ++ [(k, x)] := by
        rw [List.map_append, ← hpre, List.map_singleton,
          toVariant_round h₁ ha h₂,
          toVariant_fromVariant ro x hT hv.1 (hn (k, x) (.head _))]
        congr 1
        refine List.map_congr_left fun p hp => ?_
        rw [toVariant_of_frame hT ha ?_ (frame_round h₃ _) n]
        simp only [hes, Payload.children, List.mem_map]
        exact ⟨p, hp, rfl⟩
      have hrec := fromVariantMap_toVariant ro a m hs' (by simp; omega)
        (by simp [hca, hes]) hpre' hv.2 (fun p hp => hn p (.tail _ hp)) (by simpa using hs)
      simpa [Tree.fromVariantMap, hentries, hins] using hrec
end

/-- `ConfigAtom::toVariant` of the node `fromVariant` builds is the value
it was built from. -/
theorem materialize_fromVariant (ro : Bool) {v : Variant} (hT : T.Closed)
    (hv : v.canonical = true) :
    (Tree.fromVariant ro v T).2.materialize (Tree.fromVariant ro v T).1 = v := by
  rw [fromVariant_fst, materialize, toVariant_fromVariant ro v hT hv (by rw [fromVariant_next]; omega)]

end Tree

end QutimConfig
