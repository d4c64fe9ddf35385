/-
What a node shows through the API, without its node numbers: its tag,
a Map's keys in stored order with what each key shows, a List's
elements in order, a Value's scalar (`Outline`). On these terms
`ConfigAtom::toVariant` and `ConfigAtom::fromVariant` (config.cpp:72-156)
are inverse both ways round:

- from a tree value, `fromVariant` then `toVariant` gives the value
  back (`materialize_fromVariant`, RoundTrip.lean), and every node
  built carries the flag it was built with (`Reach.readOnly`);
- from a node, `toVariant` then `fromVariant` builds a node with the
  same outline.

The second direction rests on `Reachable.shaped` (Shaped.lean).
`toVariant` re-sorts a Map's keys as it inserts them and reads an
invalid Value back as a Null node, so a node with unsorted keys or an
invalid Value would come back changed; no reachable node has either
(`Shaped.outline_eq`).
-/
import QutimConfig.Proofs.Shaped

namespace QutimConfig

/-- What the API shows of a node: `type()`, a Map's `childGroups` and
`childKeys` in stored order, a List's elements, a Value's variant. -/
inductive Outline where
  | null
  | value (v : Variant)
  | list (xs : List Outline)
  | map (m : List (String × Outline))
  deriving Repr

namespace Outline

mutual
/-- The outline of the node `fromVariant` builds from a tree value. -/
def ofVariant : Variant → Outline
  | .invalid => .null
  | .scalar s => .value (.scalar s)
  | .list xs => .list (ofVariantList xs)
  | .map m => .map (ofVariantMap m)
/-- `ofVariant` of every element. -/
def ofVariantList : List Variant → List Outline
  | [] => []
  | x :: xs => ofVariant x :: ofVariantList xs
/-- `ofVariant` of every value of a map. -/
def ofVariantMap : List (String × Variant) → List (String × Outline)
  | [] => []
  | (k, x) :: m => (k, ofVariant x) :: ofVariantMap m
end

theorem ofVariantList_eq : ∀ xs : List Variant, ofVariantList xs = xs.map ofVariant
  | [] => rfl
  | x :: xs => by rw [ofVariantList, ofVariantList_eq xs, List.map_cons]

theorem ofVariantMap_eq :
    ∀ m : List (String × Variant), ofVariantMap m = m.map fun p => (p.1, ofVariant p.2)
  | [] => rfl
  | (k, x) :: m => by rw [ofVariantMap, ofVariantMap_eq m, List.map_cons]

end Outline

namespace Variant

theorem canonicalList_eq : ∀ xs : List Variant, canonicalList xs = xs.all canonical
  | [] => rfl
  | x :: xs => by rw [canonicalList, canonicalList_eq xs, List.all_cons]

theorem canonicalMap_eq :
    ∀ m : List (String × Variant), canonicalMap m = m.all fun p => canonical p.2
  | [] => rfl
  | (k, x) :: m => by rw [canonicalMap, canonicalMap_eq m, List.all_cons]

end Variant

namespace Tree

variable {T : Tree}

/-- The outline of node `a`, `fuel` levels deep: `toVariant`'s walk,
keeping a Map's stored order and a Value's variant as they are. -/
def outline (T : Tree) : Nat → Nat → Outline
  | 0, _ => .null
  | n + 1, a =>
      match (T.cells a).payload with
      | .map m => .map (m.map fun p => (p.1, outline T n p.2))
      | .list xs => .list (xs.map (outline T n))
      | .value v => .value v
      | .null => .null

/-- The outline of a node, with the region's size as fuel (as
`materialize`). -/
def outlineOf (T : Tree) (a : Nat) : Outline := T.outline T.next a

/-- A shaped Map's `toVariant`: the inserts keep the stored order. -/
theorem Shaped.toVariant_map (hT : T.Shaped) {n a : Nat} {m : List (String × Nat)}
    (hp : (T.cells a).payload = .map m) :
    T.toVariant (n + 1) a = .map (m.map fun p => (p.1, T.toVariant n p.2)) := by
  have hs := hT a
  rw [hp, shaped_map] at hs
  simp only [toVariant, hp, QMap.foldl_insert_sorted _ m [] hs (by simp), List.nil_append]

/-- On a shaped region a node's outline is the outline of its
materialised tree. -/
theorem Shaped.outline_eq (hT : T.Shaped) :
    ∀ n a, T.outline n a = Outline.ofVariant (T.toVariant n a)
  | 0, _ => rfl
  | n + 1, a => by
      cases hp : (T.cells a).payload with
      | map m =>
          simp only [hT.toVariant_map hp, outline, hp, Outline.ofVariant, Outline.ofVariantMap_eq,
            List.map_map, Function.comp_def, hT.outline_eq n]
      | list xs =>
          simp only [toVariant, outline, hp, Outline.ofVariant, Outline.ofVariantList_eq,
            List.map_map, Function.comp_def, funext (hT.outline_eq n)]
      | value v =>
          have hs := hT a
          rw [hp] at hs
          cases v <;> simp_all [Payload.shaped, outline, toVariant, Outline.ofVariant]
      | null => simp only [toVariant, outline, hp, Outline.ofVariant]

/-- A shaped node materialises to a tree value: its Maps' keys are in
order. -/
theorem Shaped.canonical_toVariant (hT : T.Shaped) : ∀ n a, (T.toVariant n a).canonical = true
  | 0, _ => rfl
  | n + 1, a => by
      have hs := hT a
      cases hp : (T.cells a).payload with
      | map m =>
          rw [hp, shaped_map] at hs
          simp only [hT.toVariant_map hp, Variant.canonical, Variant.canonicalMap_eq, List.map_map,
            Function.comp_def, hs, decide_True, Bool.true_and, List.all_map, List.all_eq_true]
          intro x hx
          obtain ⟨p, -, rfl⟩ := List.mem_map.1 hx
          exact hT.canonical_toVariant n p.2
      | list xs =>
          simp only [toVariant, hp, Variant.canonical, Variant.canonicalList_eq, List.all_map,
            Function.comp_def, List.all_eq_true]
          intro x hx
          obtain ⟨c, -, rfl⟩ := List.mem_map.1 hx
          exact hT.canonical_toVariant n c
      | value v =>
          rw [hp] at hs
          cases v <;> simp_all [Payload.shaped, toVariant, Variant.canonical]
      | null => simp only [toVariant, hp, Variant.canonical]

end Tree

/-- `fromVariant` and `toVariant` are inverse. Read forwards: a tree
value built into any closed region materialises back to itself, and
every node the build reaches carries its read-only flag. Read
backwards: rebuilding any node of a reachable world from its
materialised tree gives a node with the same outline. -/
theorem toVariant_fromVariant_inverse :
    (∀ (ro : Bool) (v : Variant) (T : Tree), T.Closed → v.canonical = true →
      (Tree.fromVariant ro v T).2.materialize (Tree.fromVariant ro v T).1 = v ∧
        ∀ b, (Tree.fromVariant ro v T).2.Reach (Tree.fromVariant ro v T).1 b →
          ((Tree.fromVariant ro v T).2.cells b).readOnly = ro) ∧
    ∀ (env : Env) (cs : CryptoService) (w : World), Reachable env cs w →
      ∀ p, w.store.heap.Valid p → ∀ (ro : Bool) (T : Tree), T.Closed → T.Shaped →
        (Tree.fromVariant ro (w.store.heap.materialize p) T).2.outlineOf
            (Tree.fromVariant ro (w.store.heap.materialize p) T).1 =
          (w.store.heap.trees p.tree).outlineOf p.addr := by
  refine ⟨fun ro v T hT hv => ⟨Tree.materialize_fromVariant ro hT hv, fun b hb => ?_⟩,
    fun env cs w hr p _ ro T hT hS => ?_⟩
  · obtain ⟨h₁, h₂, -, h₄⟩ := hT.fromVariant_spec ro v
    rw [Tree.fromVariant_fst] at hb
    rw [hb.readOnly h₁ h₂, h₄]
  · have hw := hr.shaped p.tree
    have hv : (w.store.heap.materialize p).canonical = true := hw.canonical_toVariant _ _
    rw [Tree.outlineOf, (hS.fromVariant ro _).outline_eq, ← Tree.materialize,
      Tree.materialize_fromVariant ro hT hv, Heap.materialize, Tree.materialize,
      Tree.outlineOf, hw.outline_eq]

/-- A one-key Map built read-only into a fresh region, and the same Map
read from the world `fromTree` makes of it, rebuilt. -/
theorem toVariant_fromVariant_inverse_map :
    (Tree.fromVariant true (.map [("k", .scalar (.int 1))]) Tree.empty).2.materialize
        (Tree.fromVariant true (.map [("k", .scalar (.int 1))]) Tree.empty).1 =
      .map [("k", .scalar (.int 1))] ∧
    ∃ w, run Env.sample ⟨id, id⟩ (World.init FileSystem.empty)
        [.fromTree (.map [("k", .scalar (.int 1))])] = some w ∧
      (Tree.fromVariant false (w.store.heap.materialize ⟨0, 0⟩) Tree.empty).2.outlineOf
          (Tree.fromVariant false (w.store.heap.materialize ⟨0, 0⟩) Tree.empty).1 =
        (w.store.heap.trees 0).outlineOf 0 :=
  ⟨(toVariant_fromVariant_inverse.1 true (.map [("k", .scalar (.int 1))]) Tree.empty
      Tree.closed_empty rfl).1, _, rfl,
    toVariant_fromVariant_inverse.2 Env.sample ⟨id, id⟩ _
      (Reachable.run (.init .empty) (rfl : run Env.sample ⟨id, id⟩ (World.init .empty)
        [.fromTree (.map [("k", .scalar (.int 1))])] = _))
      ⟨0, 0⟩ ⟨by decide, by decide⟩ false Tree.empty Tree.closed_empty Tree.shaped_empty⟩

end QutimConfig
