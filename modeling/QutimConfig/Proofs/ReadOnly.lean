/-
What no operation undoes (config.cpp:158-266, 605-680, 905-1086): a
read-only node stays as it was, except under `remove`, and a Map or a
List stays a Map or a List.

# Read-only nodes

`ConfigAtom::child(name)` and `child(index)` consult the node's own
read-only flag: on a read-only Map or List they look an entry up and
never insert, retag or grow. `ConfigLevel::map` shows every read-only
atom, and every atom after the first, read-only to its callback, so
`convert` leaves a read-only node of another tag alone (the level drops
it). `setValue` asserts that the node it stores into is writable, and
`fromVariant` builds past the end of a region. `remove(name)` and
`remove(index)` make no such check (`remove_read_only_source`). So every
other action keeps every read-only node as it was, and with it the
materialised tree below the node, which holds read-only nodes only
(`Reach.readOnly`).

# Containers

The only tags an operation gives an existing node are Map and List:
`child` calls `ensureMap`, `child(int)` calls `ensureList`, `convert` is
asked for Maps and Lists, and `replace` and the removes rewrite a Map's
entries or a List's items. `ensureValue` and `clear` are never reached
on a node that exists. So a Map or a List stays a Map or a List under
every action, and the root of every Source, loaded as one, stays one.

Both facts are carried by one relation on heaps (`Heap.Settles`), one
lemma per node operation, lifted through `ConfigLevel::map` and the
cursor operations to `perform`, as the heap invariant is
(Invariant.lean).
-/
import QutimConfig.Proofs.Arrays

namespace QutimConfig

/-- A Map or a List: an atom with children. -/
def Atom.isContainer (x : Atom) : Bool := x.isMap || x.isList

theorem Atom.isContainer_iff {x : Atom} :
    x.isContainer = true ↔ (∃ m, x.payload = .map m) ∨ (∃ xs, x.payload = .list xs) := by
  obtain ⟨p, r⟩ := x
  cases p <;> simp [Atom.isContainer, Atom.isMap, Atom.isList, Atom.type, Payload.type]

theorem Atom.isContainer_of_payload {x : Atom} :
    (∃ m, x.payload = .map m) ∨ (∃ xs, x.payload = .list xs) → x.isContainer :=
  Atom.isContainer_iff.2

/-- An atom that is neither a Value nor Null. -/
theorem Atom.isContainer_of_not_leaf {x : Atom} (h : (x.isValue || x.isNull) = false) :
    x.isContainer := by
  obtain ⟨p, r⟩ := x
  cases p <;> simp_all [Atom.isContainer, Atom.isMap, Atom.isList, Atom.isValue, Atom.isNull,
    Atom.type, Payload.type]

-- ================================================= one region

namespace Tree

variable {T T' T'' : Tree} {a : Nat}

/-- `T'` extends `T` and keeps every allocated read-only node as it was. -/
def KeepsReadOnly (T T' : Tree) : Prop :=
  T.next ≤ T'.next ∧ ∀ y < T.next, (T.cells y).readOnly = true → T'.cells y = T.cells y

/-- `T'` extends `T` and every allocated Map or List of `T` is a Map or a
List of `T'`. -/
def KeepsContainers (T T' : Tree) : Prop :=
  T.next ≤ T'.next ∧ ∀ y < T.next, (T.cells y).isContainer = true → (T'.cells y).isContainer = true

theorem KeepsReadOnly.refl (T : Tree) : KeepsReadOnly T T := ⟨le_rfl, fun _ _ _ => rfl⟩

theorem KeepsContainers.refl (T : Tree) : KeepsContainers T T := ⟨le_rfl, fun _ _ h => h⟩

/-- A rewrite of a writable node, with allocations past the end. -/
theorem Touches.keepsReadOnly (ht : Touches T T' a) (ha : (T.cells a).readOnly = false) :
    KeepsReadOnly T T' :=
  ⟨ht.1, fun y hy hro => ht.2 y hy fun hya => by subst hya; simp [ha] at hro⟩

/-- A rewrite that leaves its node a Map or a List, or as it was. -/
theorem Touches.keepsContainers (ht : Touches T T' a)
    (ha : (T'.cells a).isContainer = true ∨ T'.cells a = T.cells a) : KeepsContainers T T' := by
  refine ⟨ht.1, fun y hy hc => ?_⟩
  by_cases hya : y = a
  · subst hya
    exact ha.elim id fun e => e ▸ hc
  · rwa [ht.2 y hy hya]

theorem keepsContainers_setPayload_map (T : Tree) (a : Nat) (m : List (String × Nat)) :
    KeepsContainers T (T.setPayload a (.map m)) :=
  (touches_setPayload T a _).keepsContainers (.inl (Atom.isContainer_of_payload (.inl ⟨m, by simp⟩)))

theorem keepsContainers_setPayload_list (T : Tree) (a : Nat) (xs : List Nat) :
    KeepsContainers T (T.setPayload a (.list xs)) :=
  (touches_setPayload T a _).keepsContainers (.inl (Atom.isContainer_of_payload (.inr ⟨xs, by simp⟩)))

-- ================================================ node operations

theorem child_keepsReadOnly {name : String} {r : Option Nat} (h : T.child a name = some (r, T')) :
    KeepsReadOnly T T' := by
  rcases child_cases h with ⟨-, -, rfl, -⟩ | ⟨-, rfl, -, -⟩ | ⟨-, hro, -, -⟩
  · exact .refl _
  · exact .refl _
  · exact (touches_child h).keepsReadOnly hro

theorem child_keepsContainers {name : String} {r : Option Nat} (h : T.child a name = some (r, T')) :
    KeepsContainers T T' := by
  rcases child_cases h with ⟨-, -, rfl, -⟩ | ⟨-, rfl, -, -⟩ | ⟨-, -, -, rfl⟩
  · exact .refl _
  · exact .refl _
  · exact (touches_child h).keepsContainers
      (.inl (Atom.isContainer_of_payload (.inl ⟨_, by rw [setPayload_cells_self]⟩)))

/-- A read-only node answers `child(index)` from its items, unchanged. -/
theorem childAt_keepsReadOnly {index : Int} {r : Option Nat} (h : T.childAt a index = some (r, T')) :
    KeepsReadOnly T T' := by
  cases hro : (T.cells a).readOnly
  · exact (touches_childAt h).keepsReadOnly hro
  have hl : (T.cells a).isList := by
    by_contra hl
    simp [Tree.childAt, hro, hl] at h
  unfold Tree.childAt at h
  simp only [hro, hl, ensureList_of_isList hl, Bool.not_true, Bool.and_false, Bool.true_and,
    Bool.false_eq_true, if_false] at h
  split_ifs at h with h₂ h₃
  · obtain ⟨-, rfl⟩ := Prod.mk.inj (Option.some.inj h)
    exact .refl _
  · have h0 : (index + 1 - ((T.items a).length : Int)).toNat = 0 := by simp at h₂; omega
    rw [h0, grow] at h
    split at h
    · obtain ⟨-, rfl⟩ := Prod.mk.inj (Option.some.inj h)
      exact .refl _
    · cases h

theorem grow_isList (ro : Bool) : ∀ (n : Nat) {T : Tree}, (T.cells a).isList →
    ((grow a ro n T).cells a).isList
  | 0, _, hl => hl
  | n + 1, _, _ => grow_isList ro n (by simp [Atom.isList, Atom.type, Payload.type])

theorem ensureList_isList (T : Tree) (a : Nat) : ((T.ensureList a).cells a).isList := by
  unfold ensureList
  split <;> simp_all [Atom.isList, Atom.type, Payload.type]

theorem childAt_keepsContainers {index : Int} {r : Option Nat}
    (h : T.childAt a index = some (r, T')) : KeepsContainers T T' := by
  refine (touches_childAt h).keepsContainers (.inl ?_)
  have hl : (T'.cells a).isList := by
    unfold Tree.childAt at h
    dsimp only at h
    split_ifs at h
    · obtain ⟨-, rfl⟩ := Prod.mk.inj (Option.some.inj h)
      exact ensureList_isList T a
    · split at h
      · obtain ⟨-, rfl⟩ := Prod.mk.inj (Option.some.inj h)
        exact grow_isList _ _ (ensureList_isList T a)
      · cases h
  simp [Atom.isContainer, hl]

/-- `convert` leaves a node alone when it has the tag already. -/
theorem convert_keepsReadOnly (type : AtomType)
    (h : (T.cells a).readOnly = true → (T.cells a).type = type) :
    KeepsReadOnly T (T.convert a type) := by
  cases hro : (T.cells a).readOnly
  · exact (touches_convert T a type).keepsReadOnly hro
  · unfold convert
    rw [if_pos (h hro)]
    exact .refl T

theorem ensureMap_keepsContainers (T : Tree) (a : Nat) : KeepsContainers T (T.ensureMap a) := by
  unfold ensureMap
  split
  · exact .refl T
  · exact keepsContainers_setPayload_map T a []

theorem ensureList_keepsContainers (T : Tree) (a : Nat) : KeepsContainers T (T.ensureList a) := by
  unfold ensureList
  split
  · exact .refl T
  · exact keepsContainers_setPayload_list T a []

/-- `convert` to a Map or a List. -/
theorem convert_keepsContainers {type : AtomType} (ht : type = .map ∨ type = .list) :
    KeepsContainers T (T.convert a type) := by
  unfold convert
  split_ifs
  · exact .refl T
  · rcases ht with rfl | rfl
    · exact ensureMap_keepsContainers T a
    · exact ensureList_keepsContainers T a

theorem replace_keepsContainers {name : String} {v : Nat} {b : Bool}
    (h : T.replace a name v = some (b, T')) : KeepsContainers T T' := by
  rcases (replace_cases h).2 with ⟨rfl, -⟩ | ⟨rfl, -⟩
  · exact keepsContainers_setPayload_map T a _
  · exact .refl _

theorem remove_keepsContainers {name : String} {b : Bool} (h : T.remove a name = some (b, T')) :
    KeepsContainers T T' := by
  unfold Tree.remove at h
  split_ifs at h
  obtain ⟨-, rfl⟩ := Prod.mk.inj (Option.some.inj h)
  exact keepsContainers_setPayload_map T a _

theorem removeAt_keepsContainers {index : Int} {b : Bool} (h : T.removeAt a index = some (b, T')) :
    KeepsContainers T T' := by
  unfold Tree.removeAt at h
  split_ifs at h <;> obtain ⟨-, rfl⟩ := Prod.mk.inj (Option.some.inj h)
  · exact .refl T
  · exact keepsContainers_setPayload_list T a _

/-- `fromVariant` allocates past the end of a closed region. -/
theorem fromVariant_keeps (hT : T.Closed) (ro : Bool) (v : Variant) :
    KeepsReadOnly T (fromVariant ro v T).2 ∧ KeepsContainers T (fromVariant ro v T).2 :=
  have ht := touches_fromVariant hT ro v T.next
  ⟨⟨ht.1, fun y hy _ => ht.2 y hy (Nat.ne_of_lt hy)⟩,
    ⟨ht.1, fun y hy hc => by rwa [ht.2 y hy (Nat.ne_of_lt hy)]⟩⟩

end Tree

-- ======================================================== the heap

namespace Heap

variable {h h' h'' : Heap} {p : Ptr}

/-- `h'` extends `h`, and every allocated Map or List is still one. -/
structure KeepsContainers (h h' : Heap) : Prop where
  grows : h.Grows h'
  containers : ∀ p, h.Valid p → (h.atom p).isContainer = true → (h'.atom p).isContainer = true

/-- What every action but the removes does to the heap: it keeps the
containers, and every allocated read-only node as it was. -/
structure Settles (h h' : Heap) extends KeepsContainers h h' : Prop where
  readOnly : ∀ p, h.Valid p → (h.atom p).readOnly = true → h'.atom p = h.atom p

theorem KeepsContainers.refl (h : Heap) : h.KeepsContainers h := ⟨Grows.refl h, fun _ _ hc => hc⟩

theorem KeepsContainers.trans (h₁ : h.KeepsContainers h') (h₂ : h'.KeepsContainers h'') :
    h.KeepsContainers h'' :=
  ⟨h₁.grows.trans h₂.grows, fun p hp hc => h₂.containers p (hp.grow h₁.grows) (h₁.containers p hp hc)⟩

theorem Settles.refl (h : Heap) : h.Settles h := ⟨.refl h, fun _ _ _ => rfl⟩

theorem Settles.of_eq (e : h' = h) : h.Settles h' := e ▸ .refl h

theorem Settles.trans (h₁ : h.Settles h') (h₂ : h'.Settles h'') : h.Settles h'' :=
  ⟨h₁.1.trans h₂.1, fun p hp hro => by
    have e₁ := h₁.readOnly p hp hro
    rw [h₂.readOnly p (hp.grow h₁.grows) (e₁ ▸ hro), e₁]⟩

theorem keepsContainers_update {t : Nat} {T : Tree} (hc : (h.trees t).KeepsContainers T) :
    h.KeepsContainers (h.update t T) := by
  refine ⟨⟨le_rfl, fun u _ => ?_⟩, fun p hp hx => ?_⟩
  · by_cases hu : u = t
    · subst hu; simpa using hc.1
    · rw [update_trees_ne _ _ hu]
  · by_cases hu : p.tree = t
    · subst hu; simp only [atom, update_trees_self]; exact hc.2 _ hp.2 hx
    · simp only [atom, update_trees_ne _ _ hu]; exact hx

/-- Region `t` rewritten by an operation that keeps its read-only nodes
and its containers. -/
theorem settles_update {t : Nat} {T : Tree} (hr : (h.trees t).KeepsReadOnly T)
    (hc : (h.trees t).KeepsContainers T) : h.Settles (h.update t T) := by
  refine ⟨keepsContainers_update hc, fun p hp hro => ?_⟩
  by_cases hu : p.tree = t
  · subst hu; simp only [atom, update_trees_self]; exact hr.2 _ hp.2 hro
  · simp only [atom, update_trees_ne _ _ hu]

theorem child_settles {name : String} {r : Option Ptr} (e : h.child p name = some (r, h')) :
    h.Settles h' := by
  simp only [Heap.child, Option.map_eq_some', Prod.mk.injEq] at e
  obtain ⟨⟨r₀, T⟩, e, -, rfl⟩ := e
  exact settles_update (Tree.child_keepsReadOnly e) (Tree.child_keepsContainers e)

theorem childAt_settles {index : Int} {r : Option Ptr} (e : h.childAt p index = some (r, h')) :
    h.Settles h' := by
  simp only [Heap.childAt, Option.map_eq_some', Prod.mk.injEq] at e
  obtain ⟨⟨r₀, T⟩, e, -, rfl⟩ := e
  exact settles_update (Tree.childAt_keepsReadOnly e) (Tree.childAt_keepsContainers e)

theorem convert_settles {type : AtomType} (ht : type = .map ∨ type = .list)
    (hro : (h.atom p).readOnly = true → (h.atom p).type = type) : h.Settles (h.convert p type) :=
  settles_update (Tree.convert_keepsReadOnly type hro) (Tree.convert_keepsContainers ht)

/-- `replace` on a writable node. -/
theorem replace_settles {name : String} {v : Nat} {b : Bool} (hw : (h.atom p).readOnly = false)
    (e : h.replace p name v = some (b, h')) : h.Settles h' := by
  simp only [Heap.replace, Option.map_eq_some', Prod.mk.injEq] at e
  obtain ⟨⟨b₀, T⟩, e, -, rfl⟩ := e
  exact settles_update ((Tree.touches_replace e).keepsReadOnly hw) (Tree.replace_keepsContainers e)

theorem fromVariant_settles {t : Nat} (hT : (h.trees t).Closed) (v : Variant) (ro : Bool) :
    h.Settles (h.fromVariant t v ro).2 :=
  settles_update (Tree.fromVariant_keeps hT ro v).1 (Tree.fromVariant_keeps hT ro v).2

theorem remove_keepsContainers {name : String} {b : Bool} (e : h.remove p name = some (b, h')) :
    h.KeepsContainers h' := by
  simp only [Heap.remove, Option.map_eq_some', Prod.mk.injEq] at e
  obtain ⟨⟨b₀, T⟩, e, -, rfl⟩ := e
  exact keepsContainers_update (Tree.remove_keepsContainers e)

theorem removeAt_keepsContainers {index : Int} {b : Bool} (e : h.removeAt p index = some (b, h')) :
    h.KeepsContainers h' := by
  simp only [Heap.removeAt, Option.map_eq_some', Prod.mk.injEq] at e
  obtain ⟨⟨b₀, T⟩, e, -, rfl⟩ := e
  exact keepsContainers_update (Tree.removeAt_keepsContainers e)

/-- A fresh region leaves the regions in use alone. -/
theorem newTree_settles (h : Heap) : h.Settles h.newTree.1 := by
  have he : ∀ p, h.Valid p → h.newTree.1.atom p = h.atom p := fun p hp => by
    simp [Heap.newTree, atom, Nat.ne_of_lt hp.1]
  exact ⟨⟨newTree_grows h, fun p hp hc => he p hp ▸ hc⟩, fun p hp _ => he p hp⟩

end Heap

-- ====================================================== callbacks

/-- A `ConfigLevel::map` callback that settles the heap when every
read-only atom is shown to it read-only, as `map` shows it. -/
def CallbackSettles (cb : AtomCallback) : Prop :=
  ∀ a ro h r h', cb a ((h.atom a).readOnly || ro) h = some (r, h') → h.Settles h'

theorem childCallback_settles (name : String) : CallbackSettles (childCallback name) := by
  intro a ro h r h' e
  simp only [childCallback] at e
  split_ifs at e
  · obtain ⟨-, rfl⟩ := Prod.mk.inj (Option.some.inj e)
    exact .refl h
  · exact Heap.child_settles e

theorem childAtCallback_settles (index : Int) : CallbackSettles (childAtCallback index) := by
  intro a ro h r h' e
  simp only [childAtCallback] at e
  split_ifs at e
  · obtain ⟨-, rfl⟩ := Prod.mk.inj (Option.some.inj e)
    exact .refl h
  · exact Heap.childAt_settles e

theorem convertCallback_settles {type : AtomType} (ht : type = .map ∨ type = .list) :
    CallbackSettles (convertCallback type) := by
  intro a ro h r h' e
  simp only [convertCallback] at e
  split_ifs at e with hc <;> obtain ⟨-, rfl⟩ := Prod.mk.inj (Option.some.inj e)
  · exact .refl h
  · exact Heap.convert_settles ht fun hro => by simpa [hro] using hc

theorem mapAtoms_settles {cb : AtomCallback} (hcb : CallbackSettles cb) :
    ∀ (first : Bool) (as : List Ptr) {h : Heap} {r : List Ptr} {h' : Heap},
      mapAtoms cb first as h = some (r, h') → h.Settles h'
  | _, [], _, _, _, e => by
      obtain ⟨-, rfl⟩ := Prod.mk.inj (Option.some.inj e)
      exact .refl _
  | first, a :: as, h, _, _, e => by
      simp only [mapAtoms, Option.bind_eq_bind, Option.bind_eq_some, Option.pure_def,
        Option.some.injEq, Prod.ext_iff] at e
      obtain ⟨⟨r₁, h₁⟩, e₁, ⟨r₂, h₂⟩, e₂, -, rfl⟩ := e
      exact (hcb a _ h r₁ h₁ e₁).trans (mapAtoms_settles hcb false as e₂)

namespace ConfigLevel

variable {l l' : ConfigLevel} {h h' : Heap}

theorem map_settles {cb : AtomCallback} (hcb : CallbackSettles cb) (e : l.map cb h = some (l', h')) :
    h.Settles h' := by
  simp only [ConfigLevel.map, Option.map_eq_some', Prod.mk.injEq] at e
  obtain ⟨_, e, -, rfl⟩ := e
  exact mapAtoms_settles hcb true l.atoms e

theorem childPath_settles : ∀ (names : List String) {l l' : ConfigLevel} {h h' : Heap},
    l.childPath names h = some (l', h') → h.Settles h'
  | [], _, _, _, _, e => by
      obtain ⟨-, rfl⟩ := Prod.mk.inj (Option.some.inj e)
      exact .refl _
  | n :: ns, l, _, _, _, e => by
      simp only [childPath, Option.bind_eq_bind, Option.bind_eq_some] at e
      obtain ⟨⟨l₁, h₁⟩, e₁, e₂⟩ := e
      exact (map_settles (childCallback_settles n) e₁).trans (childPath_settles ns e₂)

theorem childNames_settles {names : List String} (e : l.childNames names h = some (l', h')) :
    h.Settles h' := by
  unfold childNames at e
  split_ifs at e
  exact childPath_settles names e

end ConfigLevel

-- ========================================================= cursors

section Cursor

variable {cs : CryptoService} {d d' p : ConfigPrivate} {h h' : Heap} {s s' : Store}

theorem beginGroup_settles {name : String} (e : beginGroup name d h = some (d', h')) :
    h.Settles h' := by
  simp only [beginGroup, Option.bind_eq_bind, Option.bind_eq_some, Option.guard_eq_some,
    Option.pure_def, Option.some.injEq, Prod.mk.injEq] at e
  obtain ⟨-, -, -, -, ⟨l₁, h₁⟩, e₁, ⟨l₂, h₂⟩, e₂, -, rfl⟩ := e
  exact (ConfigLevel.childNames_settles e₁).trans
    (ConfigLevel.map_settles (convertCallback_settles (.inl rfl)) e₂)

theorem enterKey_settles {key : String} (e : enterKey key d h = some (d', h')) : h.Settles h' := by
  unfold enterKey at e
  split_ifs at e
  · obtain ⟨-, rfl⟩ := Prod.mk.inj (Option.some.inj e)
    exact .refl h
  · exact beginGroup_settles e

theorem valueLoop_settles (name : String) : ∀ (as : List Ptr) {var : Variant} {h : Heap}
    {r : Variant × Heap}, valueLoop name as var h = some r → h.Settles r.2
  | [], _, _, _, e => by
      simp only [valueLoop, Option.some.injEq] at e
      exact e ▸ .refl _
  | a :: as, var, h, r, e => by
      simp only [valueLoop] at e
      split_ifs at e
      simp only [Option.bind_eq_bind, Option.bind_eq_some] at e
      obtain ⟨⟨c, h₁⟩, e₁, e₂⟩ := e
      split_ifs at e₂
      · exact (Heap.child_settles e₁).trans (valueLoop_settles name as e₂)
      · simp only [Option.pure_def, Option.some.injEq] at e₂
        exact e₂ ▸ Heap.child_settles e₁

theorem value_settles {key : String} {dflt : Variant} {flags : ValueFlags}
    {r : Variant × ConfigPrivate × Heap} (e : value cs key dflt flags d h = some r) :
    h.Settles r.2.2 := by
  by_cases hd : d.current.atoms = []
  · simp only [value, hd, if_true, Option.some.injEq] at e
    exact e ▸ .refl _
  · simp only [value, hd, if_false, Option.bind_eq_bind, Option.bind_eq_some, Option.pure_def,
      Option.some.injEq] at e
    obtain ⟨⟨d₁, h₁⟩, e₁, r', e₂, d₂, -, rfl⟩ := e
    exact (enterKey_settles e₁).trans (valueLoop_settles _ _ e₂)

/-- `setValue` stores into a writable node a tree built past the end of
its region. -/
theorem setValue_settles {key : String} {v : Variant} {flags : ValueFlags} (hd : d.OK s.heap)
    (hh : s.heap.Closed) (e : setValue cs key v flags d s = some (d', s')) :
    s.heap.Settles s'.heap := by
  by_cases he : d.current.atoms = []
  · simp only [setValue, he, if_true, Option.some.injEq, Prod.mk.injEq] at e
    exact e.2 ▸ .refl _
  simp only [setValue, he, if_false, Option.bind_eq_bind, Option.bind_eq_some,
    Option.guard_eq_some, Option.pure_def, Option.some.injEq, Prod.mk.injEq] at e
  obtain ⟨⟨d₁, h₁⟩, e₁, a, ha, u, hg, ⟨b, h₂⟩, e₃, d₂, -, -, rfl⟩ := e
  rw [markWritten_heap, Store.withHeap_heap]
  have o₁ := enterKey_ok hd hh e₁
  have hva := o₁.ok.current.valid a (List.mem_of_mem_head? ha)
  have hw : ((h₁.fromVariant a.tree (if flags.crypted then cs.crypt v else v) false).2.atom a).readOnly
      = false := by
    rw [Heap.atom, (Heap.fromVariant_root o₁.closed a.tree _ false).2.2.2 a.addr hva.2]
    unfold guard at hg
    split at hg
    · next hc =>
        simp only [Bool.and_eq_true, Bool.not_eq_true'] at hc
        exact hc.2
    · cases hg
  exact (enterKey_settles e₁).trans ((Heap.fromVariant_settles (o₁.closed a.tree) _ _).trans
    (Heap.replace_settles hw e₃))

theorem remove_keepsContainers {name : String} (e : remove name d s = some s') :
    s.heap.KeepsContainers s'.heap := by
  simp only [remove, Option.bind_eq_bind, Option.bind_eq_some] at e
  obtain ⟨a, -, ⟨b, h₁⟩, e₁, e⟩ := e
  split at e
  · simp only [Option.bind_eq_some, Option.pure_def, Option.some.injEq] at e
    obtain ⟨j, -, rfl⟩ := e
    exact Heap.remove_keepsContainers e₁
  · simp only [Option.pure_def, Option.some.injEq] at e
    exact e ▸ Heap.remove_keepsContainers e₁

theorem removeAt_keepsContainers {index : Int} (e : removeAt index d s = some (d', s')) :
    s.heap.KeepsContainers s'.heap := by
  simp only [removeAt, Option.bind_eq_bind, Option.bind_eq_some] at e
  obtain ⟨d₁, -, a, -, ⟨b, h₁⟩, e₁, e⟩ := e
  split at e
  · simp only [Option.bind_eq_some, Option.pure_def, Option.some.injEq, Prod.mk.injEq] at e
    obtain ⟨j, -, -, rfl⟩ := e
    exact Heap.removeAt_keepsContainers e₁
  · simp only [Option.pure_def, Option.some.injEq, Prod.mk.injEq] at e
    exact e.2 ▸ Heap.removeAt_keepsContainers e₁

theorem beginArray_settles {name : String} {n : Nat} (e : beginArray name d h = some (n, d', h')) :
    h.Settles h' := by
  simp only [beginArray, Option.bind_eq_bind, Option.bind_eq_some, Option.guard_eq_some,
    Option.pure_def, Option.some.injEq, Prod.mk.injEq] at e
  obtain ⟨-, -, ⟨l₁, h₁⟩, e₁, ⟨l₂, h₂⟩, e₂, -, -, -, -, rfl⟩ := e
  exact (ConfigLevel.childNames_settles e₁).trans
    (ConfigLevel.map_settles (convertCallback_settles (.inr rfl)) e₂)

theorem setArrayIndex_settles {index : Int} (e : setArrayIndex index d h = some (d', h')) :
    h.Settles h' := by
  simp only [setArrayIndex, Option.bind_eq_bind, Option.bind_eq_some, Option.guard_eq_some,
    Option.pure_def, Option.some.injEq, Prod.mk.injEq] at e
  obtain ⟨d₁, -, a, -, u, -, ⟨l₁, h₁⟩, e₁, ⟨l₂, h₂⟩, e₂, -, rfl⟩ := e
  exact (ConfigLevel.map_settles (childAtCallback_settles _) e₁).trans
    (ConfigLevel.map_settles (convertCallback_settles (.inl rfl)) e₂)

theorem group_settles {name : String} {self : Nat} (e : group name self d h = some (p, d', h')) :
    h.Settles h' := by
  simp only [group, Option.bind_eq_bind, Option.bind_eq_some, Option.guard_eq_some,
    Option.pure_def, Option.some.injEq, Prod.mk.injEq] at e
  obtain ⟨-, -, ⟨d₁, h₁⟩, e₁, d₂, -, -, -, rfl⟩ := e
  exact beginGroup_settles e₁

end Cursor

-- ========================================================== worlds

section World

variable {env : Env} {cs : CryptoService} {w w' : World}

theorem loadRoot_settles {h h' : Heap} {v : Variant} {ro create : Bool} {p : Ptr} (hh : h.Closed)
    (e : loadRoot h v ro create = some (p, h')) : h.Settles h' := by
  have s₁ : h.Settles (h.newTree.1.fromVariant h.count v ro).2 :=
    (Heap.newTree_settles h).trans (Heap.fromVariant_settles (newTree_closed hh _) v ro)
  unfold loadRoot at e
  dsimp only at e
  split_ifs at e <;> obtain ⟨-, rfl⟩ := Prod.mk.inj (Option.some.inj e)
  · exact s₁.trans (Heap.fromVariant_settles ((fresh_fromVariant hh v ro).1 _) _ _)
  · exact s₁

theorem openFile_settles {fileName info : String} {sys create : Bool} {bk : Backend}
    {stale : Option Nat} (hh : w.store.heap.Closed) :
    w.store.heap.Settles (openFile env fileName info sys create bk stale w).2.store.heap := by
  unfold openFile
  split_ifs
  any_goals exact .refl _
  all_goals
    dsimp only
    split
    · exact .refl _
    · next root hr => exact loadRoot_settles hh hr

theorem openSource_settles {path : String} {sys create : Bool} {bk : Option Backend}
    (hh : w.store.heap.Closed) :
    w.store.heap.Settles (openSource env path sys create bk w).2.store.heap := by
  unfold openSource
  dsimp only
  repeat' split
  all_goals first | exact .refl _ | exact openFile_settles hh

theorem openAll_settles (bk : Option Backend) : ∀ (ps : List (Bool × String)) {srcs : List Nat}
    {w : World}, HeapInv w → w.store.heap.Settles (openAll env bk ps srcs w).2.store.heap
  | [], _, _, _ => .refl _
  | (sys, path) :: rest, srcs, w, hw => by
      have s₁ : w.store.heap.Settles (openSource env path sys srcs.isEmpty bk w).2.store.heap :=
        openSource_settles hw.closed
      have hw₁ : HeapInv (openSource env path sys srcs.isEmpty bk w).2 := (openSource_inv hw).inv
      simp only [openAll]
      repeat' split
      all_goals exact s₁.trans (openAll_settles bk rest hw₁)

theorem addFallbacks_settles : ∀ (vs : List Variant) {atoms : List Ptr} {h : Heap}, h.Closed →
    h.Settles (addFallbacks vs atoms h).2
  | [], _, _, _ => .refl _
  | v :: vs, _, h, hh => by
      have s₁ : h.Settles (h.newTree.1.fromVariant h.count v true).2 :=
        (Heap.newTree_settles h).trans (Heap.fromVariant_settles (newTree_closed hh _) v true)
      simp only [addFallbacks, newTree_snd]
      split_ifs
      all_goals exact s₁.trans (addFallbacks_settles vs (fresh_fromVariant hh v true).1)

theorem construct_settles (hw : HeapInv w) {paths : List String} {fallbacks : List Variant}
    {bk : Option Backend} :
    w.store.heap.Settles (construct env paths fallbacks bk w).2.store.heap :=
  (openAll_settles bk _ hw).trans (addFallbacks_settles _
    (openAll_inv bk _ hw (fun _ h => absurd h (List.not_mem_nil _)) List.nodup_nil).1.inv.closed)

theorem constructFromTree_settles (hh : w.store.heap.Closed) {v : Variant} :
    w.store.heap.Settles (constructFromTree v w).2.store.heap :=
  (Heap.newTree_settles _).trans (Heap.fromVariant_settles (newTree_closed hh _) v false)

/-- `Config::remove(name)` and `Config::remove(index)`: the actions that
write without a read-only check. -/
def Action.removes : Action → Bool
  | .remove _ _ => true
  | .removeAt _ _ => true
  | _ => false

/-- Every action keeps the heap's containers; every action but the two
removes also keeps every read-only node. -/
theorem perform_settles (hw : HeapInv w) {a : Action} (e : perform env cs w a = some w') :
    (a.removes = false → w.store.heap.Settles w'.store.heap) ∧
      w.store.heap.KeepsContainers w'.store.heap := by
  have settled : w.store.heap.Settles w'.store.heap →
      (a.removes = false → w.store.heap.Settles w'.store.heap) ∧
        w.store.heap.KeepsContainers w'.store.heap := fun s => ⟨fun _ => s, s.1⟩
  have cfg := hw.configs
  cases a <;> simp only [QutimConfig.perform, World.destroy, Option.bind_eq_bind, Option.bind_eq_some,
    Option.pure_def, Option.some.injEq] at e
  case construct => exact settled (e ▸ construct_settles hw)
  case fromTree v =>
    split at e <;> simp only [Option.some.injEq, reduceCtorEq] at e <;>
      exact settled (e ▸ constructFromTree_settles hw.closed)
  case beginGroup =>
    obtain ⟨d, -, r, hr, rfl⟩ := e
    exact settled (beginGroup_settles hr)
  case endGroup =>
    obtain ⟨d, -, d', -, rfl⟩ := e
    exact settled (.refl _)
  case value =>
    obtain ⟨d, -, r, hr, rfl⟩ := e
    exact settled (value_settles hr)
  case setValue c _ _ _ =>
    obtain ⟨d, hd, r, hr, rfl⟩ := e
    exact settled (setValue_settles (cfg c d hd) hw.closed hr)
  case remove =>
    obtain ⟨d, -, s, hs, rfl⟩ := e
    exact ⟨fun h => by simp [Action.removes] at h, remove_keepsContainers hs⟩
  case removeAt =>
    obtain ⟨d, -, r, hr, rfl⟩ := e
    exact ⟨fun h => by simp [Action.removes] at h, removeAt_keepsContainers hr⟩
  case beginArray =>
    obtain ⟨d, -, r, hr, rfl⟩ := e
    exact settled (beginArray_settles hr)
  case endArray =>
    obtain ⟨d, -, d', -, rfl⟩ := e
    exact settled (.refl _)
  case setArrayIndex =>
    obtain ⟨d, -, r, hr, rfl⟩ := e
    exact settled (setArrayIndex_settles hr)
  case group =>
    obtain ⟨d, -, r, hr, rfl⟩ := e
    exact settled (group_settles hr)
  case arrayElement =>
    obtain ⟨d, -, r, hr, rfl⟩ := e
    exact settled (setArrayIndex_settles hr)
  case sync =>
    obtain ⟨d, -, rfl⟩ := e
    exact settled (.of_eq (keeps_syncConfig w d).heap)
  case destroy =>
    obtain ⟨d, -, -, -, rfl⟩ := e
    exact settled (.of_eq (keeps_destruct w d).heap)
  case dispatch =>
    simp only [World.dispatch] at e
    split_ifs at e
    split at e
    · cases e
    · next i rest _ =>
      cases e
      exact settled (.of_eq (@keeps_deliver env _ i).heap)
  case drain =>
    simp only [World.drain] at e
    split_ifs at e
    cases e
    exact settled (.of_eq (@keeps_deliverAll env w.events _).heap)
  case expire =>
    split_ifs at e
    cases e
    exact settled (.refl _)

theorem step_settles (hw : HeapInv w) {a : Action} (e : step env cs w a = some w') :
    (a.removes = false → w.store.heap.Settles w'.store.heap) ∧
      w.store.heap.KeepsContainers w'.store.heap := by
  simp only [QutimConfig.step, Option.map_eq_some'] at e
  obtain ⟨w₁, e, rfl⟩ := e
  rw [(keeps_collect w₁).heap]
  exact perform_settles hw e

/-- A run with no remove keeps every read-only node. -/
theorem run_settles : ∀ {w w' : World} {as : List Action}, Reachable env cs w →
    run env cs w as = some w' → (∀ a ∈ as, a.removes = false) →
      w.store.heap.Settles w'.store.heap
  | _, _, [], _, e, _ => by
      simp only [run, Option.some.injEq] at e
      exact .of_eq (congrArg (·.store.heap) e.symm)
  | _, _, a :: as, hr, e, has => by
      simp only [run, Option.bind_eq_some] at e
      obtain ⟨w₁, e₁, e₂⟩ := e
      exact ((step_settles hr.heapInv e₁).1 (has a (.head _))).trans
        (run_settles (.step a hr e₁) e₂ fun b hb => has b (.tail _ hb))

/-- Every run keeps the heap's containers. -/
theorem run_keepsContainers : ∀ {w w' : World} {as : List Action}, Reachable env cs w →
    run env cs w as = some w' → w.store.heap.KeepsContainers w'.store.heap
  | _, _, [], _, e => by
      simp only [run, Option.some.injEq] at e
      exact (Heap.Settles.of_eq (congrArg (·.store.heap) e.symm)).1
  | _, _, a :: as, hr, e => by
      simp only [run, Option.bind_eq_some] at e
      obtain ⟨w₁, e₁, e₂⟩ := e
      exact (step_settles hr.heapInv e₁).2.trans (run_keepsContainers (.step a hr e₁) e₂)

-- ========================================================== roots

/-- The records of the Sources change at most by dirty bits: their roots stay. -/
theorem Store.DirtiesOnly.data {s s' : Store} (hs : s.DirtiesOnly s') (i : Nat) :
    (s'.sources i).data = (s.sources i).data := by
  rcases hs.2 i with h | h <;> rw [h]

/-- Every Source's root is a Map or a List. -/
def RootsContained (w : World) : Prop :=
  ∀ i < w.store.nsources, (w.store.heap.atom (w.store.sources i).data).isContainer = true

theorem RootsContained.of_keeps (hr : RootsContained w) (k : Keeps w w') : RootsContained w' :=
  fun i hi => by rw [k.heap, k.data]; exact hr i (k.nsources ▸ hi)

/-- A heap change that keeps the containers, with the roots kept. -/
theorem RootsContained.of_heap (hr : RootsContained w) (hw : HeapInv w)
    (hk : w.store.heap.KeepsContainers w'.store.heap) (hs : w.store.DirtiesOnly w'.store) :
    RootsContained w' := fun i hi => by
  rw [hs.data]
  exact hk.containers _ (hw.sources i (hs.1 ▸ hi)) (hr i (hs.1 ▸ hi))

/-- `open` loads a document whose root is a Map or a List, or puts an
empty Map in place of a Value or Null. -/
theorem loadRoot_root {h h' : Heap} {v : Variant} {ro create : Bool} {p : Ptr}
    (e : loadRoot h v ro create = some (p, h')) : (h'.atom p).isContainer = true := by
  unfold loadRoot at e
  dsimp only at e
  split_ifs at e with h₁ h₂ <;> obtain ⟨rfl, rfl⟩ := Prod.mk.inj (Option.some.inj e)
  · exact Atom.isContainer_of_payload (.inl ⟨[], by
      simp [Heap.fromVariant, Tree.fromVariant, Tree.fromVariantMap, Heap.atom]⟩)
  · exact Atom.isContainer_of_not_leaf (Bool.eq_false_iff.2 h₂)

theorem RootsContained.addSource (hr : RootsContained w) (hw : HeapInv w) {src : ConfigSource}
    {h : Heap} (hk : w.store.heap.KeepsContainers h) (hp : (h.atom src.data).isContainer = true) :
    RootsContained (w.addSource src h).2 := by
  intro i hi
  simp only [World.addSource] at hi ⊢
  by_cases hin : i = w.store.nsources
  · subst hin
    simpa using hp
  · simp only [hin, Function.update_noteq, Ne, not_false_eq_true]
    exact hk.containers _ (hw.sources i (by omega)) (hr i (by omega))

theorem RootsContained.openFile (hr : RootsContained w) (hw : HeapInv w) {fileName info : String}
    {sys create : Bool} {bk : Backend} {stale : Option Nat} :
    RootsContained (openFile env fileName info sys create bk stale w).2 := by
  unfold QutimConfig.openFile
  split_ifs
  any_goals exact hr
  all_goals
    dsimp only
    split
    · exact hr
    · next root hroot =>
        exact RootsContained.addSource hr hw (loadRoot_settles hw.closed hroot).1 (loadRoot_root hroot)

theorem RootsContained.openSource (hr : RootsContained w) (hw : HeapInv w) {path : String}
    {sys create : Bool} {bk : Option Backend} :
    RootsContained (openSource env path sys create bk w).2 := by
  unfold QutimConfig.openSource
  dsimp only
  repeat' split
  all_goals first | exact hr | exact hr.openFile hw

theorem RootsContained.openAll (bk : Option Backend) : ∀ (ps : List (Bool × String))
    {srcs : List Nat} {w : World}, RootsContained w → HeapInv w →
      RootsContained (openAll env bk ps srcs w).2
  | [], _, _, hr, _ => hr
  | (sys, path) :: rest, srcs, w, hr, hw => by
      have hr₁ : RootsContained (QutimConfig.openSource env path sys srcs.isEmpty bk w).2 :=
        hr.openSource hw
      have hw₁ : HeapInv (QutimConfig.openSource env path sys srcs.isEmpty bk w).2 :=
        (openSource_inv hw).inv
      simp only [QutimConfig.openAll]
      repeat' split
      all_goals exact RootsContained.openAll bk rest hr₁ hw₁

theorem RootsContained.construct (hr : RootsContained w) (hw : HeapInv w) {paths : List String}
    {fallbacks : List Variant} {bk : Option Backend} :
    RootsContained (construct env paths fallbacks bk w).2 := by
  have o := (@openAll_inv env bk ((paths.map fun p => (false, p)) ++ (paths.map fun p => (true, p)))
    [] w hw
    (fun _ h => absurd h (List.not_mem_nil _)) List.nodup_nil).1
  exact (hr.openAll bk _ hw).of_heap o.inv (addFallbacks_settles _ o.inv.closed).1
    (Store.DirtiesOnly.withHeap _ _)

theorem RootsContained.perform (hr : RootsContained w) (hw : HeapInv w) {a : Action}
    (e : perform env cs w a = some w') : RootsContained w' := by
  rcases perform_cases hw e with l | ⟨_, _, _, rfl⟩ | ⟨c, d, -, rfl | rfl⟩ | ⟨-, i, rest, -, rfl⟩ |
    ⟨-, rfl⟩ | ⟨key, -, -, rfl⟩
  · exact hr.of_heap hw (perform_settles hw e).2 l.store
  · exact hr.construct hw
  · exact hr.of_keeps (keeps_syncConfig w d)
  · exact (hr.of_keeps (keeps_destruct w d) : RootsContained (w.destruct d))
  · have k : Keeps w { w with events := rest } := .of_store rfl rfl rfl
    exact hr.of_keeps (k.trans (keeps_deliver _ i))
  · have k : Keeps w { w with events := [] } := .of_store rfl rfl rfl
    exact hr.of_keeps ((k.trans (@keeps_deliverAll env w.events _)).trans (.of_store rfl rfl rfl))
  · exact hr

/-- Every Source's root is a Map or a List in every reachable world. -/
theorem Reachable.rootsContained (hr : Reachable env cs w) : RootsContained w := by
  induction hr with
  | init fs => exact fun i hi => absurd hi (Nat.not_lt_zero i)
  | step a hr e ih =>
      simp only [QutimConfig.step, Option.map_eq_some'] at e
      obtain ⟨w₁, e, rfl⟩ := e
      exact (ih.perform hr.heapInv e).of_keeps (keeps_collect w₁)

-- ================================================ what a reader sees

/-- Read-only data changes only through `remove(name)` and
`remove(index)`: from any reachable world, a run of other actions keeps
every read-only node, and the tree it materialises, as they were. -/
theorem readOnly_unchanged_without_remove (hr : Reachable env cs w) (as : List Action)
    (has : ∀ a ∈ as, a.removes = false) (e : run env cs w as = some w') {p : Ptr}
    (hp : w.store.heap.Valid p) (hro : (w.store.heap.atom p).readOnly = true) :
    w'.store.heap.atom p = w.store.heap.atom p ∧
      w'.store.heap.materialize p = w.store.heap.materialize p := by
  have s := run_settles hr e has
  have hT := hr.heapInv.closed p.tree
  refine ⟨s.readOnly p hp hro, Tree.materialize_congr hT hp.2 (s.grows.next _ hp.1) fun b hb => ?_⟩
  -- below a read-only node every node is read-only
  exact s.readOnly ⟨p.tree, b⟩ ⟨hp.1, (hb.bound hT hp.2).2⟩ ((hb.readOnly hT hp.2).trans hro)

/-- A writable user file over a read-only one that holds a group. -/
def writableOverReadOnly : FileSystem :=
  .ofList [("home/a.json", ⟨.map [], 0, true⟩),
    ("home/b.json", ⟨.map [("g", .map [("k", .scalar (.int 1))])], 0, false⟩)]

/-- Reading `g/k`, which inserts Null entries into the writable layer,
leaves the read-only layer's root, and its tree, as they were. -/
theorem readOnly_layer_kept_under_writes :
    ∃ w w', run Env.sample ⟨id, id⟩ (World.init writableOverReadOnly)
        [.construct ["a", "b"] [] none] = some w ∧
      run Env.sample ⟨id, id⟩ w
        [.value 0 "g/k" .invalid ⟨false⟩, .value 0 "k" .invalid ⟨false⟩] = some w' ∧
      w'.store.heap.atom ⟨1, 0⟩ = w.store.heap.atom ⟨1, 0⟩ ∧
      w'.store.heap.materialize ⟨1, 0⟩ = w.store.heap.materialize ⟨1, 0⟩ :=
  ⟨_, _, rfl, rfl, readOnly_unchanged_without_remove (Reachable.run (.init writableOverReadOnly)
    (rfl : run Env.sample ⟨id, id⟩ (World.init writableOverReadOnly)
      [.construct ["a", "b"] [] none] = _))
    [.value 0 "g/k" .invalid ⟨false⟩, .value 0 "k" .invalid ⟨false⟩] (by decide) rfl
    ⟨by decide, by decide⟩ (by decide)⟩

/-- The tree of a Source whose root is a Map or a List is a map or a list. -/
theorem RootsContained.sourceTree (hr : RootsContained w) (hw : HeapInv w) {i : Nat}
    (hi : i < w.store.nsources) :
    (∃ m, w.sourceTree i = .map m) ∨ (∃ xs, w.sourceTree i = .list xs) := by
  have hv := hw.sources i hi
  obtain ⟨n, hn⟩ : ∃ n, (w.store.heap.trees (w.store.sources i).data.tree).next = n + 1 :=
    ⟨_, (Nat.succ_pred_eq_of_pos (Nat.lt_of_le_of_lt (Nat.zero_le _) hv.2)).symm⟩
  rcases Atom.isContainer_iff.1 (hr i hi) with ⟨m, hm⟩ | ⟨xs, hx⟩
  · simp only [Heap.atom] at hm
    exact .inl ⟨_, by rw [World.sourceTree, Heap.materialize, Tree.materialize, hn, Tree.toVariant, hm]⟩
  · simp only [Heap.atom] at hx
    exact .inr ⟨_, by rw [World.sourceTree, Heap.materialize, Tree.materialize, hn, Tree.toVariant, hx]⟩

end World

end QutimConfig
