/-
What every node the process builds looks like: a Map's keys are in
`QMap` order, each once, and a Value holds a scalar (`Payload.shaped`).
`QMap::insert` and `QMap::remove` keep the order (`QMap.insert_sorted`,
`QMap.erase_sorted`; `QString::operator<` is a strict total order),
`fromVariant` fills its Maps by inserts, and `ensureValue`'s invalid
variant never stays in a node: `convert` is only asked for Maps and
Lists. So every node operation keeps a region shaped, every action
keeps the heap shaped, and every node of a reachable world is shaped
(`Reachable.shaped`).

The chain mirrors the heap invariant's (Invariant.lean): one lemma per
node operation, lifted through `ConfigLevel::map`, the cursor
operations and the opening of Sources to `perform`.
-/
import QutimConfig.Proofs.RoundTrip
import QutimConfig.Proofs.Invariant

namespace QutimConfig


-- ======================================================= the key order

namespace QMap

variable {α : Type}

theorem char_eq_of_toNat {c d : Char} (h : c.toNat = d.toNat) : c = d := by
  rw [← Char.ofNat_toNat c, h, Char.ofNat_toNat]

theorem keyLessChars_trans : ∀ (a b c : List Char),
    keyLessChars a b = true → keyLessChars b c = true → keyLessChars a c = true
  | [], _ :: _, _ :: _, _, _ => rfl
  | x :: as, y :: bs, z :: cs, h₁, h₂ => by
      unfold keyLessChars at h₁ h₂ ⊢
      by_cases hxy : x = y
      · subst hxy
        by_cases hxz : x = z
        · subst hxz
          simp only [if_true] at h₁ h₂ ⊢
          exact keyLessChars_trans as bs cs h₁ h₂
        · simpa [hxz] using h₂
      · simp only [hxy, if_false, decide_eq_true_eq] at h₁
        by_cases hyz : y = z
        · subst hyz; simpa [hxy] using h₁
        · simp only [hyz, if_false, decide_eq_true_eq] at h₂
          have hxz : x ≠ z := fun e => by subst e; omega
          simp only [hxz, if_false, decide_eq_true_eq]
          omega
  | [], [], _, h, _ | _ :: _, [], _, h, _ | [], _ :: _, [], _, h | _ :: _, _ :: _, [], _, h => by
      simp [keyLessChars] at h

theorem keyLessChars_total : ∀ (a b : List Char), a ≠ b →
    keyLessChars a b = true ∨ keyLessChars b a = true
  | [], [], h => absurd rfl h
  | [], _ :: _, _ => .inl rfl
  | _ :: _, [], _ => .inr rfl
  | x :: as, y :: bs, h => by
      unfold keyLessChars
      by_cases hxy : x = y
      · subst hxy
        simp only [if_true]
        exact keyLessChars_total as bs fun e => h (e ▸ rfl)
      · have hyx : y ≠ x := Ne.symm hxy
        have hn : x.toNat ≠ y.toNat := fun e => hxy (char_eq_of_toNat e)
        simp only [hxy, hyx, if_false, decide_eq_true_eq]
        omega

theorem keyLess_trans {k j l : String} (h₁ : keyLess k j = true) (h₂ : keyLess j l = true) :
    keyLess k l = true :=
  keyLessChars_trans _ _ _ h₁ h₂

theorem keyLess_total {k j : String} (h : k ≠ j) : keyLess k j = true ∨ keyLess j k = true :=
  keyLessChars_total _ _ fun e => h (String.ext e)

/-- `QMap::insert` keeps the keys in order, each once. -/
theorem insert_sorted {k : String} {v : α} : ∀ {m : List (String × α)},
    (m.map (·.1)).Pairwise (keyLess · · = true) →
      ((insert k v m).map (·.1)).Pairwise (keyLess · · = true)
  | [], _ => by simp [insert]
  | (j, w) :: m, h => by
      simp only [List.map_cons, List.pairwise_cons, List.mem_map] at h
      unfold insert
      split_ifs with hkj hkj'
      · simp only [List.map_cons, List.pairwise_cons, List.mem_cons, List.mem_map]
        refine ⟨?_, h.1, h.2⟩
        rintro _ (rfl | ⟨p, hp, rfl⟩)
        · exact hkj
        · exact keyLess_trans hkj (h.1 _ ⟨p, hp, rfl⟩)
      · subst hkj'
        simpa using h
      · have hjk : keyLess j k = true := (keyLess_total hkj').resolve_left (by simpa using hkj)
        simp only [List.map_cons, List.pairwise_cons, List.mem_map]
        refine ⟨?_, insert_sorted h.2⟩
        rintro _ ⟨p, hp, rfl⟩
        rcases mem_insert hp with rfl | hp
        · exact hjk
        · exact h.1 _ ⟨p, hp, rfl⟩

/-- `QMap::remove` keeps the keys in order. -/
theorem erase_sorted {k : String} {m : List (String × α)}
    (h : (m.map (·.1)).Pairwise (keyLess · · = true)) :
    ((erase k m).map (·.1)).Pairwise (keyLess · · = true) :=
  h.sublist ((List.filter_sublist _).map _)

end QMap

-- ====================================================== shaped nodes

/-- What every node the code builds satisfies: a Map's keys are in
`QMap` order, each once, and a Value holds a scalar. -/
def Payload.shaped : Payload → Bool
  | .map m => decide ((m.map (·.1)).Pairwise (QMap.keyLess · · = true))
  | .value (.scalar _) => true
  | .value _ => false
  | .list _ => true
  | .null => true

theorem shaped_map {m : List (String × Nat)} :
    (Payload.map m).shaped = true ↔ (m.map (·.1)).Pairwise (QMap.keyLess · · = true) := by
  simp [Payload.shaped]

namespace Tree

/-- Every cell of the region is shaped. -/
def Shaped (T : Tree) : Prop := ∀ b, (T.cells b).payload.shaped = true

variable {T T' : Tree} {a : Nat}

theorem shaped_empty : Tree.empty.Shaped := fun _ => rfl

theorem Shaped.set (hT : T.Shaped) {x : Atom} (hx : x.payload.shaped = true) :
    (T.set a x).Shaped := by
  intro b
  by_cases hb : b = a
  · subst hb; simpa using hx
  · rw [set_cells_ne _ _ hb]; exact hT b

theorem Shaped.setPayload (hT : T.Shaped) {p : Payload} (hp : p.shaped = true) :
    (T.setPayload a p).Shaped :=
  hT.set hp

theorem Shaped.alloc (hT : T.Shaped) {x : Atom} (hx : x.payload.shaped = true) :
    (T.alloc x).1.Shaped := by
  intro b
  by_cases hb : b = T.next
  · subst hb; simpa using hx
  · rw [alloc_cells_ne _ _ hb]; exact hT b

/-- A Map's entries are in key order. -/
theorem Shaped.entries (hT : T.Shaped) (a : Nat) :
    ((T.entries a).map (·.1)).Pairwise (QMap.keyLess · · = true) := by
  have ha := hT a
  unfold Tree.entries
  split
  · next m hm => rw [hm] at ha; exact shaped_map.1 ha
  · exact .nil

theorem Shaped.insert (hT : T.Shaped) (a : Nat) (name : String) (c : Nat) {T₁ : Tree}
    (h₁ : T₁.Shaped) : (T₁.setPayload a (.map (QMap.insert name c (T.entries a)))).Shaped :=
  h₁.setPayload (shaped_map.2 (QMap.insert_sorted (hT.entries a)))

theorem Shaped.ensureMap (hT : T.Shaped) : (T.ensureMap a).Shaped := by
  unfold Tree.ensureMap; split
  · exact hT
  · exact hT.setPayload (shaped_map.2 .nil)

theorem Shaped.ensureList (hT : T.Shaped) : (T.ensureList a).Shaped := by
  unfold Tree.ensureList; split
  · exact hT
  · exact hT.setPayload rfl

/-- `convert` to anything but a Value: `ensureValue`'s invalid variant
is the one payload no node may hold. -/
theorem Shaped.convert (hT : T.Shaped) {type : AtomType} (ht : type ≠ .value) :
    (T.convert a type).Shaped := by
  unfold Tree.convert; split
  · exact hT
  · split
    · exact hT.ensureMap
    · exact hT.ensureList
    · exact absurd rfl ht
    · exact hT.setPayload rfl

theorem Shaped.child (hT : T.Shaped) {name : String} {r : Option Nat}
    (e : T.child a name = some (r, T')) : T'.Shaped := by
  rcases child_cases e with ⟨-, -, rfl, -⟩ | ⟨-, rfl, -⟩ | ⟨-, -, -, rfl⟩
  · exact hT
  · exact hT
  · exact hT.insert a name _ (hT.ensureMap.alloc (x := Atom.create false) rfl)

theorem Shaped.grow (ro : Bool) : ∀ (n : Nat) {T : Tree}, T.Shaped → (Tree.grow a ro n T).Shaped
  | 0, _, hT => hT
  | n + 1, _, hT => Shaped.grow ro n ((hT.alloc (x := Atom.create ro) rfl).setPayload rfl)

theorem Shaped.childAt (hT : T.Shaped) {index : Int} {r : Option Nat}
    (e : T.childAt a index = some (r, T')) : T'.Shaped := by
  unfold Tree.childAt at e
  dsimp only at e
  split_ifs at e
  · simp only [Option.some.injEq, Prod.mk.injEq] at e
    exact e.2 ▸ hT.ensureList
  · split at e
    · simp only [Option.some.injEq, Prod.mk.injEq] at e
      exact e.2 ▸ Shaped.grow _ _ hT.ensureList
    · cases e

theorem Shaped.remove (hT : T.Shaped) {name : String} {b : Bool}
    (e : T.remove a name = some (b, T')) : T'.Shaped := by
  unfold Tree.remove at e
  split_ifs at e
  simp only [Option.some.injEq, Prod.mk.injEq] at e
  exact e.2 ▸ hT.setPayload (shaped_map.2 (QMap.erase_sorted (hT.entries a)))

theorem Shaped.removeAt (hT : T.Shaped) {index : Int} {b : Bool}
    (e : T.removeAt a index = some (b, T')) : T'.Shaped := by
  unfold Tree.removeAt at e
  split_ifs at e <;> simp only [Option.some.injEq, Prod.mk.injEq] at e
  · exact e.2 ▸ hT
  · exact e.2 ▸ hT.setPayload rfl

theorem Shaped.replace (hT : T.Shaped) {name : String} {v : Nat} {b : Bool}
    (e : T.replace a name v = some (b, T')) : T'.Shaped := by
  unfold Tree.replace at e
  split_ifs at e
  split at e
  · split_ifs at e <;> simp only [Option.some.injEq, Prod.mk.injEq] at e
    · exact e.2 ▸ hT.insert a name v hT
    · exact e.2 ▸ hT
  · simp only [Option.some.injEq, Prod.mk.injEq] at e
    exact e.2 ▸ hT.insert a name v hT

mutual
/-- `fromVariant` builds shaped nodes from any value: its Maps are
filled by `QMap::insert`. -/
theorem Shaped.fromVariant (ro : Bool) : ∀ (v : Variant) {T : Tree}, T.Shaped →
    (Tree.fromVariant ro v T).2.Shaped
  | .invalid, _, hT => hT.alloc (x := Atom.create ro) rfl
  | .scalar s, _, hT => hT.alloc (x := ⟨.value (.scalar s), ro⟩) rfl
  | .list xs, _, hT => Shaped.fromVariantList ro _ xs (hT.alloc (x := ⟨.list [], ro⟩) rfl)
  | .map m, _, hT => Shaped.fromVariantMap ro _ m (hT.alloc (x := ⟨.map [], ro⟩) (shaped_map.2 .nil))
theorem Shaped.fromVariantList (ro : Bool) (a : Nat) : ∀ (xs : List Variant) {T : Tree},
    T.Shaped → (Tree.fromVariantList ro a xs T).Shaped
  | [], _, hT => hT
  | x :: xs, _, hT => Shaped.fromVariantList ro a xs ((Shaped.fromVariant ro x hT).setPayload rfl)
theorem Shaped.fromVariantMap (ro : Bool) (a : Nat) : ∀ (m : List (String × Variant)) {T : Tree},
    T.Shaped → (Tree.fromVariantMap ro a m T).Shaped
  | [], _, hT => hT
  | (k, x) :: m, _, hT => by
      have h₁ := Shaped.fromVariant ro x hT
      exact Shaped.fromVariantMap ro a m (h₁.insert a k _ h₁)
end

end Tree

-- ============================================================ heap

namespace Heap

/-- Every region of the heap is shaped. -/
def Shaped (h : Heap) : Prop := ∀ t, (h.trees t).Shaped

variable {h h' : Heap} {p : Ptr}

theorem shaped_empty : Heap.empty.Shaped := fun _ => Tree.shaped_empty

theorem Shaped.update (hh : h.Shaped) {t : Nat} {T : Tree} (hT : T.Shaped) : (h.update t T).Shaped := by
  intro u
  by_cases hu : u = t
  · subst hu; simpa using hT
  · rw [update_trees_ne _ _ hu]; exact hh u

theorem Shaped.newTree (hh : h.Shaped) : h.newTree.1.Shaped := by
  intro u
  by_cases hu : u = h.count
  · subst hu; simpa [Heap.newTree] using Tree.shaped_empty
  · simpa [Heap.newTree, hu] using hh u

theorem Shaped.child (hh : h.Shaped) {name : String} {r : Option Ptr}
    (e : h.child p name = some (r, h')) : h'.Shaped := by
  simp only [Heap.child, Option.map_eq_some', Prod.mk.injEq] at e
  obtain ⟨_, e, -, rfl⟩ := e
  exact hh.update ((hh p.tree).child e)

theorem Shaped.childAt (hh : h.Shaped) {index : Int} {r : Option Ptr}
    (e : h.childAt p index = some (r, h')) : h'.Shaped := by
  simp only [Heap.childAt, Option.map_eq_some', Prod.mk.injEq] at e
  obtain ⟨_, e, -, rfl⟩ := e
  exact hh.update ((hh p.tree).childAt e)

theorem Shaped.convert (hh : h.Shaped) {type : AtomType} (ht : type ≠ .value) :
    (h.convert p type).Shaped :=
  hh.update ((hh p.tree).convert ht)

theorem Shaped.remove (hh : h.Shaped) {name : String} {b : Bool}
    (e : h.remove p name = some (b, h')) : h'.Shaped := by
  simp only [Heap.remove, Option.map_eq_some', Prod.mk.injEq] at e
  obtain ⟨_, e, -, rfl⟩ := e
  exact hh.update ((hh p.tree).remove e)

theorem Shaped.removeAt (hh : h.Shaped) {index : Int} {b : Bool}
    (e : h.removeAt p index = some (b, h')) : h'.Shaped := by
  simp only [Heap.removeAt, Option.map_eq_some', Prod.mk.injEq] at e
  obtain ⟨_, e, -, rfl⟩ := e
  exact hh.update ((hh p.tree).removeAt e)

theorem Shaped.replace (hh : h.Shaped) {name : String} {v : Nat} {b : Bool}
    (e : h.replace p name v = some (b, h')) : h'.Shaped := by
  simp only [Heap.replace, Option.map_eq_some', Prod.mk.injEq] at e
  obtain ⟨_, e, -, rfl⟩ := e
  exact hh.update ((hh p.tree).replace e)

theorem Shaped.fromVariant (hh : h.Shaped) (t : Nat) (v : Variant) (ro : Bool) :
    (h.fromVariant t v ro).2.Shaped :=
  hh.update (Tree.Shaped.fromVariant ro v (hh t))

end Heap

-- ========================================================== levels

/-- A callback of `ConfigLevel::map` that keeps the heap shaped. -/
def CallbackShaped (cb : AtomCallback) : Prop :=
  ∀ a ro h r h', Heap.Shaped h → cb a ro h = some (r, h') → Heap.Shaped h'

theorem childCallback_shaped (name : String) : CallbackShaped (childCallback name) := by
  intro a ro h r h' hh e
  unfold childCallback at e
  split_ifs at e
  · simp only [Option.some.injEq, Prod.mk.injEq] at e; exact e.2 ▸ hh
  · exact hh.child e

theorem childAtCallback_shaped (index : Int) : CallbackShaped (childAtCallback index) := by
  intro a ro h r h' hh e
  unfold childAtCallback at e
  split_ifs at e
  · simp only [Option.some.injEq, Prod.mk.injEq] at e; exact e.2 ▸ hh
  · exact hh.childAt e

theorem convertCallback_shaped {type : AtomType} (ht : type ≠ .value) :
    CallbackShaped (convertCallback type) := by
  intro a ro h r h' hh e
  unfold convertCallback at e
  split_ifs at e <;> simp only [Option.some.injEq, Prod.mk.injEq] at e
  · exact e.2 ▸ hh
  · exact e.2 ▸ hh.convert ht

theorem mapAtoms_shaped {cb : AtomCallback} (hcb : CallbackShaped cb) :
    ∀ (first : Bool) (as : List Ptr) {h : Heap} {r : List Ptr} {h' : Heap}, h.Shaped →
      mapAtoms cb first as h = some (r, h') → h'.Shaped
  | _, [], _, _, _, hh, e => by
      simp only [mapAtoms, Option.some.injEq, Prod.mk.injEq] at e; exact e.2 ▸ hh
  | first, a :: as, h, _, _, hh, e => by
      simp only [mapAtoms, Option.bind_eq_bind, Option.bind_eq_some, Option.pure_def,
        Option.some.injEq, Prod.ext_iff] at e
      obtain ⟨⟨r₁, h₁⟩, e₁, ⟨r₂, h₂⟩, e₂, -, rfl⟩ := e
      exact mapAtoms_shaped hcb false as (hcb a _ h r₁ h₁ hh e₁) e₂

namespace ConfigLevel

variable {l l' : ConfigLevel} {h h' : Heap}

theorem map_shaped {cb : AtomCallback} (hcb : CallbackShaped cb) (hh : h.Shaped)
    (e : l.map cb h = some (l', h')) : h'.Shaped := by
  simp only [ConfigLevel.map, Option.map_eq_some', Prod.mk.injEq] at e
  obtain ⟨_, e, -, rfl⟩ := e
  exact mapAtoms_shaped hcb true l.atoms hh e

theorem childPath_shaped : ∀ (names : List String) {l l' : ConfigLevel} {h h' : Heap},
    h.Shaped → l.childPath names h = some (l', h') → h'.Shaped
  | [], _, _, _, _, hh, e => by
      simp only [childPath, Option.some.injEq, Prod.mk.injEq] at e; exact e.2 ▸ hh
  | n :: ns, l, _, _, _, hh, e => by
      simp only [childPath, Option.bind_eq_bind, Option.bind_eq_some] at e
      obtain ⟨⟨l₁, h₁⟩, e₁, e₂⟩ := e
      exact childPath_shaped ns (map_shaped (childCallback_shaped n) hh e₁) e₂

theorem childNames_shaped {names : List String} (hh : h.Shaped)
    (e : l.childNames names h = some (l', h')) : h'.Shaped := by
  unfold childNames at e
  split_ifs at e
  exact childPath_shaped names hh e

end ConfigLevel

-- ========================================================= cursors

section Cursor

variable {cs : CryptoService} {d d' p : ConfigPrivate} {h h' : Heap} {s s' : Store}

theorem beginGroup_shaped {name : String} (hh : h.Shaped) (e : beginGroup name d h = some (d', h')) :
    h'.Shaped := by
  simp only [beginGroup, Option.bind_eq_bind, Option.bind_eq_some, Option.guard_eq_some,
    Option.pure_def, Option.some.injEq, Prod.mk.injEq] at e
  obtain ⟨-, -, -, -, ⟨l₁, h₁⟩, e₁, ⟨l₂, h₂⟩, e₂, -, rfl⟩ := e
  exact ConfigLevel.map_shaped (convertCallback_shaped (by decide))
    (ConfigLevel.childNames_shaped hh e₁) e₂

theorem enterKey_shaped {key : String} (hh : h.Shaped) (e : enterKey key d h = some (d', h')) :
    h'.Shaped := by
  unfold enterKey at e
  split_ifs at e
  · simp only [Option.some.injEq, Prod.mk.injEq] at e; exact e.2 ▸ hh
  · exact beginGroup_shaped hh e

theorem valueLoop_shaped (name : String) : ∀ (as : List Ptr) {var : Variant} {h : Heap}
    {r : Variant × Heap}, h.Shaped → valueLoop name as var h = some r → r.2.Shaped
  | [], _, _, _, hh, e => by simp only [valueLoop, Option.some.injEq] at e; exact e ▸ hh
  | a :: as, var, h, r, hh, e => by
      simp only [valueLoop] at e
      split_ifs at e
      simp only [Option.bind_eq_bind, Option.bind_eq_some] at e
      obtain ⟨⟨c, h₁⟩, e₁, e₂⟩ := e
      split_ifs at e₂
      · exact valueLoop_shaped name as (hh.child e₁) e₂
      · simp only [Option.pure_def, Option.some.injEq] at e₂; exact e₂ ▸ hh.child e₁

theorem value_shaped {key : String} {dflt : Variant} {flags : ValueFlags}
    {r : Variant × ConfigPrivate × Heap} (hh : h.Shaped) (e : value cs key dflt flags d h = some r) :
    r.2.2.Shaped := by
  by_cases hd : d.current.atoms = []
  · simp only [value, hd, if_true, Option.some.injEq] at e; exact e ▸ hh
  · simp only [value, hd, if_false, Option.bind_eq_bind, Option.bind_eq_some, Option.pure_def,
      Option.some.injEq] at e
    obtain ⟨⟨d₁, h₁⟩, e₁, r', e₂, d₂, -, rfl⟩ := e
    exact valueLoop_shaped _ _ (enterKey_shaped hh e₁) e₂

theorem setValue_shaped {key : String} {v : Variant} {flags : ValueFlags} (hh : s.heap.Shaped)
    (e : setValue cs key v flags d s = some (d', s')) : s'.heap.Shaped := by
  by_cases hd : d.current.atoms = []
  · simp only [setValue, hd, if_true, Option.some.injEq, Prod.mk.injEq] at e; exact e.2 ▸ hh
  · simp only [setValue, hd, if_false, Option.bind_eq_bind, Option.bind_eq_some,
      Option.guard_eq_some, Option.pure_def, Option.some.injEq, Prod.mk.injEq] at e
    obtain ⟨⟨d₁, h₁⟩, e₁, a, -, -, -, ⟨b, h₂⟩, e₃, d₂, -, -, rfl⟩ := e
    rw [markWritten_heap, Store.withHeap_heap]
    exact ((enterKey_shaped hh e₁).fromVariant _ _ _).replace e₃

theorem remove_shaped {name : String} (hh : s.heap.Shaped) (e : remove name d s = some s') :
    s'.heap.Shaped := by
  simp only [remove, Option.bind_eq_bind, Option.bind_eq_some] at e
  obtain ⟨a, -, ⟨b, h₁⟩, e₁, e⟩ := e
  split at e
  · simp only [Option.bind_eq_some, Option.pure_def, Option.some.injEq] at e
    obtain ⟨j, -, rfl⟩ := e
    exact hh.remove e₁
  · simp only [Option.pure_def, Option.some.injEq] at e
    exact e ▸ hh.remove e₁

theorem removeAt_shaped {index : Int} (hh : s.heap.Shaped)
    (e : removeAt index d s = some (d', s')) : s'.heap.Shaped := by
  simp only [removeAt, Option.bind_eq_bind, Option.bind_eq_some] at e
  obtain ⟨d₁, -, a, -, ⟨b, h₁⟩, e₁, e⟩ := e
  split at e
  · simp only [Option.bind_eq_some, Option.pure_def, Option.some.injEq, Prod.mk.injEq] at e
    obtain ⟨j, -, -, rfl⟩ := e
    exact hh.removeAt e₁
  · simp only [Option.pure_def, Option.some.injEq, Prod.mk.injEq] at e
    exact e.2 ▸ hh.removeAt e₁

theorem beginArray_shaped {name : String} {n : Nat} (hh : h.Shaped)
    (e : beginArray name d h = some (n, d', h')) : h'.Shaped := by
  simp only [beginArray, Option.bind_eq_bind, Option.bind_eq_some, Option.guard_eq_some,
    Option.pure_def, Option.some.injEq, Prod.mk.injEq] at e
  obtain ⟨-, -, ⟨l₁, h₁⟩, e₁, ⟨l₂, h₂⟩, e₂, -, -, -, -, rfl⟩ := e
  exact ConfigLevel.map_shaped (convertCallback_shaped (by decide))
    (ConfigLevel.childNames_shaped hh e₁) e₂

theorem setArrayIndex_shaped {index : Int} (hh : h.Shaped)
    (e : setArrayIndex index d h = some (d', h')) : h'.Shaped := by
  simp only [setArrayIndex, Option.bind_eq_bind, Option.bind_eq_some, Option.guard_eq_some,
    Option.pure_def, Option.some.injEq, Prod.mk.injEq] at e
  obtain ⟨d₁, -, a, -, u, -, ⟨l₁, h₁⟩, e₁, ⟨l₂, h₂⟩, e₂, -, rfl⟩ := e
  exact ConfigLevel.map_shaped (convertCallback_shaped (by decide))
    (ConfigLevel.map_shaped (childAtCallback_shaped _) hh e₁) e₂

theorem group_shaped {name : String} {self : Nat} (hh : h.Shaped)
    (e : group name self d h = some (p, d', h')) : h'.Shaped := by
  simp only [group, Option.bind_eq_bind, Option.bind_eq_some, Option.guard_eq_some,
    Option.pure_def, Option.some.injEq, Prod.mk.injEq] at e
  obtain ⟨-, -, ⟨d₁, h₁⟩, e₁, d₂, -, -, -, rfl⟩ := e
  exact beginGroup_shaped hh e₁

theorem arrayElement_shaped {index : Int} {self : Nat} (hh : h.Shaped)
    (e : arrayElement index self d h = some (d', h')) : h'.Shaped :=
  setArrayIndex_shaped hh e

end Cursor

-- ========================================================== worlds

section World

variable {env : Env} {cs : CryptoService} {w w' : World}

theorem loadRoot_shaped {h h' : Heap} {v : Variant} {ro create : Bool} {p : Ptr} (hh : h.Shaped)
    (e : loadRoot h v ro create = some (p, h')) : h'.Shaped := by
  unfold loadRoot at e
  dsimp only at e
  split_ifs at e <;> simp only [Option.some.injEq, Prod.ext_iff] at e <;> obtain ⟨-, rfl⟩ := e
  · exact (hh.newTree.fromVariant _ _ _).fromVariant _ _ _
  · exact hh.newTree.fromVariant _ _ _

theorem openFile_shaped {fileName info : String} {sys create : Bool} {bk : Backend}
    {stale : Option Nat} (hh : w.store.heap.Shaped) :
    (openFile env fileName info sys create bk stale w).2.store.heap.Shaped := by
  unfold openFile
  split_ifs
  any_goals exact hh
  all_goals
    dsimp only
    split
    · exact hh
    · next root hr => exact loadRoot_shaped hh hr

theorem openSource_shaped {path : String} {sys create : Bool} {bk : Option Backend}
    (hh : w.store.heap.Shaped) : (openSource env path sys create bk w).2.store.heap.Shaped := by
  unfold openSource
  dsimp only
  repeat' split
  all_goals first | exact hh | exact openFile_shaped hh

theorem openAll_shaped (bk : Option Backend) : ∀ (ps : List (Bool × String)) {srcs : List Nat}
    {w : World}, w.store.heap.Shaped → (openAll env bk ps srcs w).2.store.heap.Shaped
  | [], _, _, hh => hh
  | (sys, path) :: rest, srcs, w, hh => by
      simp only [openAll]
      repeat' split
      all_goals exact openAll_shaped bk rest (openSource_shaped hh)

theorem addFallbacks_shaped : ∀ (vs : List Variant) {atoms : List Ptr} {h : Heap}, h.Shaped →
    (addFallbacks vs atoms h).2.Shaped
  | [], _, _, hh => hh
  | v :: vs, _, _, hh => by
      simp only [addFallbacks]
      split_ifs
      · exact addFallbacks_shaped vs (hh.newTree.fromVariant _ _ _)
      · exact addFallbacks_shaped vs (hh.newTree.fromVariant _ _ _)

theorem construct_shaped {paths : List String} {fallbacks : List Variant} {bk : Option Backend}
    (hh : w.store.heap.Shaped) : (construct env paths fallbacks bk w).2.store.heap.Shaped :=
  addFallbacks_shaped _ (openAll_shaped bk _ hh)

theorem constructFromTree_shaped {v : Variant} (hh : w.store.heap.Shaped) :
    (constructFromTree v w).2.store.heap.Shaped :=
  hh.newTree.fromVariant _ _ _

/-- Every action keeps every region shaped. -/
theorem perform_shaped (hh : w.store.heap.Shaped) {a : Action} (e : perform env cs w a = some w') :
    w'.store.heap.Shaped := by
  cases a <;> simp only [QutimConfig.perform, World.destroy, Option.bind_eq_bind, Option.bind_eq_some,
    Option.pure_def, Option.some.injEq] at e
  case construct => exact e ▸ construct_shaped hh
  case fromTree v =>
    split at e <;> simp only [Option.some.injEq, reduceCtorEq] at e <;>
      exact e ▸ constructFromTree_shaped hh
  case beginGroup =>
    obtain ⟨d, -, r, hr, rfl⟩ := e
    exact beginGroup_shaped hh hr
  case endGroup =>
    obtain ⟨d, -, d', -, rfl⟩ := e
    exact hh
  case value =>
    obtain ⟨d, -, r, hr, rfl⟩ := e
    exact value_shaped hh hr
  case setValue =>
    obtain ⟨d, -, r, hr, rfl⟩ := e
    exact setValue_shaped hh hr
  case remove =>
    obtain ⟨d, -, s, hs, rfl⟩ := e
    exact remove_shaped hh hs
  case removeAt =>
    obtain ⟨d, -, r, hr, rfl⟩ := e
    exact removeAt_shaped hh hr
  case beginArray =>
    obtain ⟨d, -, r, hr, rfl⟩ := e
    exact beginArray_shaped hh hr
  case endArray =>
    obtain ⟨d, -, d', -, rfl⟩ := e
    exact hh
  case setArrayIndex =>
    obtain ⟨d, -, r, hr, rfl⟩ := e
    exact setArrayIndex_shaped hh hr
  case group =>
    obtain ⟨d, -, r, hr, rfl⟩ := e
    exact group_shaped hh hr
  case arrayElement =>
    obtain ⟨d, -, r, hr, rfl⟩ := e
    exact arrayElement_shaped hh hr
  case sync =>
    obtain ⟨d, -, rfl⟩ := e
    exact (keeps_syncConfig w d).heap ▸ hh
  case destroy =>
    obtain ⟨d, -, -, -, rfl⟩ := e
    exact (keeps_destruct w d).heap ▸ hh
  case dispatch =>
    simp only [World.dispatch] at e
    split_ifs at e
    split at e
    · cases e
    · next i rest _ =>
      cases e
      exact (@keeps_deliver env _ i).heap ▸ hh
  case drain =>
    simp only [World.drain] at e
    split_ifs at e
    cases e
    show (World.deliverAll env w.events { w with events := [] }).store.heap.Shaped
    rw [(@keeps_deliverAll env w.events _).heap]
    exact hh
  case expire =>
    split_ifs at e
    cases e
    exact hh

/-- Every node of every region of a reachable world is shaped. -/
theorem Reachable.shaped (hr : Reachable env cs w) : w.store.heap.Shaped := by
  induction hr with
  | init fs => exact Heap.shaped_empty
  | step a _ e ih =>
      simp only [QutimConfig.step, Option.map_eq_some'] at e
      obtain ⟨w₁, e, rfl⟩ := e
      exact (keeps_collect w₁).heap ▸ perform_shaped ih e

end World

end QutimConfig
