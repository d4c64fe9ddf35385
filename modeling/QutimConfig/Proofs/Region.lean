/-
The region invariant. Every allocated node refers only to allocated
nodes after it; each node is the child of at most one node, and of that
node once; and a child carries its parent's read-only flag. A region is
thus a forest whose edges point forward, as `fromVariant`, `child` and
`replace` build it.

Each `ConfigAtom` operation on an allocated node keeps the invariant,
never shrinks the region, and answers allocated nodes. This is what
makes an allocation fresh — the new cell is referenced by nothing — on
which every "the other layers did not move" argument rests, and what
makes a node's materialised tree its own: a write to a node that is not
below it cannot reach it.

# Adoption

Every operation changes one node's payload (`setPayload`), and possibly
allocates fresh cells first. `Closed.setPayload` says once when that
keeps the invariant: each child of the new payload is an old child of
the node, or an allocated orphan after it with its read-only flag
(`Adoptable`). The per-operation lemmas only exhibit that.
-/
import QutimConfig.Atom

namespace QutimConfig

/-- The children a payload refers to. -/
def Payload.children : Payload → List Nat
  | .list xs => xs
  | .map m => m.map (·.2)
  | .value _ => []
  | .null => []

namespace QMap

variable {α : Type}

theorem mem_values_insert {k : String} {v c : α} {m : List (String × α)}
    (h : c ∈ (insert k v m).map (·.2)) : c = v ∨ c ∈ m.map (·.2) := by
  obtain ⟨p, hp, rfl⟩ := List.mem_map.1 h
  rcases mem_insert hp with rfl | hp
  · exact .inl rfl
  · exact .inr (List.mem_map_of_mem _ hp)

/-- Inserting a value the map does not hold keeps its values distinct. -/
theorem nodup_values_insert (k : String) {v : α} :
    ∀ {m : List (String × α)}, (m.map (·.2)).Nodup → v ∉ m.map (·.2) →
      ((insert k v m).map (·.2)).Nodup
  | [], _, _ => by simp [insert]
  | (j, w) :: m, hm, hv => by
      simp only [List.map_cons, List.nodup_cons, List.mem_cons, not_or] at hm hv
      unfold insert
      split_ifs
      · simp only [List.map_cons, List.nodup_cons, List.mem_cons, not_or]
        exact ⟨hv, hm⟩
      · simp only [List.map_cons, List.nodup_cons]
        exact ⟨hv.2, hm.2⟩
      · simp only [List.map_cons, List.nodup_cons]
        refine ⟨fun h => ?_, nodup_values_insert k hm.2 hv.2⟩
        rcases mem_values_insert h with h | h
        · exact hv.1 h.symm
        · exact hm.1 h

end QMap

namespace Tree

variable {T T' : Tree} {a : Nat}

/-- No allocated node refers to `c`. -/
def Orphan (T : Tree) (c : Nat) : Prop := ∀ b < T.next, c ∉ (T.cells b).payload.children

/-- The region invariant: a forest of allocated nodes whose edges point
forward, each child carrying its parent's read-only flag. -/
structure Closed (T : Tree) : Prop where
  bound : ∀ b < T.next, ∀ c ∈ (T.cells b).payload.children, c < T.next
  above : ∀ b < T.next, ∀ c ∈ (T.cells b).payload.children, b < c
  nodup : ∀ b < T.next, (T.cells b).payload.children.Nodup
  parent : ∀ b < T.next, ∀ b' < T.next, ∀ c ∈ (T.cells b).payload.children,
    c ∈ (T.cells b').payload.children → b = b'
  readOnly : ∀ b < T.next, ∀ c ∈ (T.cells b).payload.children,
    (T.cells c).readOnly = (T.cells b).readOnly

/-- What a new payload of node `a` may refer to: distinct children, each
an old child of `a` or an allocated orphan after `a` with its read-only
flag. -/
def Adoptable (T : Tree) (a : Nat) (p : Payload) : Prop :=
  p.children.Nodup ∧ ∀ c ∈ p.children, c ∈ (T.cells a).payload.children ∨
    (c < T.next ∧ a < c ∧ T.Orphan c ∧ (T.cells c).readOnly = (T.cells a).readOnly)

-- ========================================================= the toolkit

/-- The empty region is closed. -/
theorem closed_empty : Tree.empty.Closed :=
  ⟨fun _ h => absurd h (Nat.not_lt_zero _), fun _ h => absurd h (Nat.not_lt_zero _),
    fun _ h => absurd h (Nat.not_lt_zero _), fun _ h => absurd h (Nat.not_lt_zero _),
    fun _ h => absurd h (Nat.not_lt_zero _)⟩

theorem mem_children_of_entries {c : Nat} (h : c ∈ (T.entries a).map (·.2)) :
    c ∈ (T.cells a).payload.children := by
  unfold entries at h
  split at h <;> simp_all [Payload.children]

theorem mem_children_of_items {c : Nat} (h : c ∈ T.items a) : c ∈ (T.cells a).payload.children := by
  unfold items at h
  split at h <;> simp_all [Payload.children]

theorem Closed.nodup_entries (hT : T.Closed) (ha : a < T.next) : ((T.entries a).map (·.2)).Nodup := by
  have := hT.nodup a ha
  unfold entries
  split <;> simp_all [Payload.children]

theorem Closed.nodup_items (hT : T.Closed) (ha : a < T.next) : (T.items a).Nodup := by
  have := hT.nodup a ha
  unfold items
  split <;> simp_all [Payload.children]

theorem children_entries_lt (hT : T.Closed) (ha : a < T.next) :
    ∀ c ∈ (T.entries a).map (·.2), c < T.next :=
  fun _ hc => hT.bound a ha _ (mem_children_of_entries hc)

theorem children_items_lt (hT : T.Closed) (ha : a < T.next) : ∀ c ∈ T.items a, c < T.next :=
  fun _ hc => hT.bound a ha _ (mem_children_of_items hc)

theorem Closed.orphan_not_mem_entries (hc : T.Orphan c) (ha : a < T.next) :
    c ∉ (T.entries a).map (·.2) :=
  fun h => hc a ha (mem_children_of_entries h)

theorem Closed.orphan_not_mem_items (hc : T.Orphan c) (ha : a < T.next) : c ∉ T.items a :=
  fun h => hc a ha (mem_children_of_items h)

/-- A new payload of an allocated node keeps the region closed when it is
adoptable. -/
theorem Closed.setPayload (hT : T.Closed) (ha : a < T.next) {p : Payload}
    (hp : T.Adoptable a p) : (T.setPayload a p).Closed := by
  have ch : ∀ b, ((T.setPayload a p).cells b).payload.children =
      if b = a then p.children else (T.cells b).payload.children := by
    intro b
    split_ifs with h
    · subst h; simp
    · rw [setPayload_cells_ne _ _ h]
  have ro : ∀ b, ((T.setPayload a p).cells b).readOnly = (T.cells b).readOnly := by
    intro b
    by_cases h : b = a
    · subst h; simp
    · rw [setPayload_cells_ne _ _ h]
  -- a new child of `a` is allocated, after `a`, and has no other parent
  have hc : ∀ c ∈ p.children, c < T.next ∧ a < c ∧
      ∀ b' < T.next, c ∈ (T.cells b').payload.children → b' = a := by
    intro c h
    rcases hp.2 c h with h' | ⟨h₁, h₂, h₃, -⟩
    · exact ⟨hT.bound a ha c h', hT.above a ha c h', fun b' hb' h'' => hT.parent b' hb' a ha c h'' h'⟩
    · exact ⟨h₁, h₂, fun b' hb' h'' => absurd h'' (h₃ b' hb')⟩
  refine ⟨fun b hb c h => ?_, fun b hb c h => ?_, fun b hb => ?_, fun b hb b' hb' c h₁ h₂ => ?_,
    fun b hb c h => ?_⟩
  · rw [ch] at h
    split_ifs at h
    · exact (hc c h).1
    · exact hT.bound b hb c h
  · rw [ch] at h
    split_ifs at h with e
    · exact e ▸ (hc c h).2.1
    · exact hT.above b hb c h
  · rw [ch]
    split_ifs
    · exact hp.1
    · exact hT.nodup b hb
  · rw [ch] at h₁ h₂
    split_ifs at h₁ h₂ with e₁ e₂ e₂
    · exact e₁.trans e₂.symm
    · exact e₁.trans ((hc c h₁).2.2 b' hb' h₂).symm
    · exact ((hc c h₂).2.2 b hb h₁).trans e₂.symm
    · exact hT.parent b hb b' hb' c h₁ h₂
  · rw [ch] at h
    rw [ro, ro]
    split_ifs at h with e
    · subst e
      rcases hp.2 c h with h' | ⟨-, -, -, h'⟩
      · exact hT.readOnly b hb c h'
      · exact h'
    · exact hT.readOnly b hb c h

/-- A fresh cell with no children keeps the region closed, and nothing
refers to it. -/
theorem Closed.alloc (hT : T.Closed) {x : Atom} (hx : x.payload.children = []) :
    (T.alloc x).1.Closed ∧ (T.alloc x).1.Orphan T.next := by
  have old : ∀ b < T.next, (T.alloc x).1.cells b = T.cells b :=
    fun b hb => alloc_cells_ne _ _ (Nat.ne_of_lt hb)
  -- every node with a child is an old node
  have split : ∀ b < T.next + 1, ∀ c ∈ ((T.alloc x).1.cells b).payload.children,
      b < T.next ∧ c ∈ (T.cells b).payload.children := by
    intro b hb c h
    by_cases e : b = T.next
    · subst e; simp [hx] at h
    · have hb' : b < T.next := by omega
      exact ⟨hb', by rwa [old b hb'] at h⟩
  refine ⟨⟨fun b hb c h => ?_, fun b hb c h => ?_, fun b (hb : b < T.next + 1) => ?_,
    fun b hb b' hb' c h₁ h₂ => ?_, fun b hb c h => ?_⟩, fun b hb h => ?_⟩
  · obtain ⟨hb', h'⟩ := split b hb c h
    exact Nat.lt_succ_of_lt (hT.bound b hb' c h')
  · obtain ⟨hb', h'⟩ := split b hb c h
    exact hT.above b hb' c h'
  · by_cases e : b = T.next
    · subst e; simp [hx]
    · rw [old b (by omega)]; exact hT.nodup b (by omega)
  · obtain ⟨hb₁, h₁'⟩ := split b hb c h₁
    obtain ⟨hb₂, h₂'⟩ := split b' hb' c h₂
    exact hT.parent b hb₁ b' hb₂ c h₁' h₂'
  · obtain ⟨hb', h'⟩ := split b hb c h
    rw [old b hb', old c (hT.bound b hb' c h')]
    exact hT.readOnly b hb' c h'
  · obtain ⟨hb', h'⟩ := split b hb _ h
    exact Nat.lt_irrefl _ (hT.bound b hb' _ h')

/-- A payload with no children. -/
theorem adoptable_leaf (T : Tree) (a : Nat) {p : Payload} (hp : p.children = []) :
    T.Adoptable a p := by
  simp [Adoptable, hp]

theorem Closed.ensureMap (hT : T.Closed) (ha : a < T.next) : (T.ensureMap a).Closed := by
  unfold Tree.ensureMap; split
  · exact hT
  · exact hT.setPayload ha (adoptable_leaf _ _ rfl)

theorem Closed.ensureList (hT : T.Closed) (ha : a < T.next) : (T.ensureList a).Closed := by
  unfold Tree.ensureList; split
  · exact hT
  · exact hT.setPayload ha (adoptable_leaf _ _ rfl)

theorem Closed.convert (hT : T.Closed) (ha : a < T.next) (type : AtomType) :
    (T.convert a type).Closed := by
  unfold Tree.convert; split
  · exact hT
  · split
    · exact hT.ensureMap ha
    · exact hT.ensureList ha
    · unfold Tree.ensureValue; split
      · exact hT
      · exact hT.setPayload ha (adoptable_leaf _ _ rfl)
    · exact hT.setPayload ha (adoptable_leaf _ _ rfl)

@[simp] theorem ensureMap_next : (T.ensureMap a).next = T.next := by
  unfold Tree.ensureMap; split <;> rfl

@[simp] theorem ensureList_next : (T.ensureList a).next = T.next := by
  unfold Tree.ensureList; split <;> rfl

@[simp] theorem convert_next (type : AtomType) : (T.convert a type).next = T.next := by
  unfold Tree.convert; split
  · rfl
  · split
    · exact ensureMap_next
    · exact ensureList_next
    · unfold Tree.ensureValue; split <;> rfl
    · rfl

-- =========================================================== `child`

theorem isMap_of_lookup {name : String} {c : Nat} (h : (T.entries a).lookup name = some c) :
    (T.cells a).isMap := by
  unfold entries at h
  split at h
  · next m hm => simp [Atom.isMap, Atom.type, hm, Payload.type]
  · simp at h

theorem ensureMap_of_isMap (h : (T.cells a).isMap) : T.ensureMap a = T := by
  unfold Tree.ensureMap; split
  · rfl
  · next hm =>
      simp only [Atom.isMap, Atom.type, Payload.type, beq_iff_eq] at h
      split at h <;> simp_all

@[simp] theorem entries_ensureMap : (T.ensureMap a).entries a = T.entries a := by
  unfold Tree.ensureMap; split
  · rfl
  · simp only [entries, setPayload_cells_self]

@[simp] theorem ensureMap_readOnly : ((T.ensureMap a).cells a).readOnly = (T.cells a).readOnly := by
  unfold Tree.ensureMap; split <;> simp

theorem ensureMap_cells_ne {b : Nat} (h : b ≠ a) : (T.ensureMap a).cells b = T.cells b := by
  unfold Tree.ensureMap; split
  · rfl
  · exact setPayload_cells_ne _ _ h

/-- What `child(name)` can do: hand back the entry, answer absent on a
read-only Map, or insert a fresh Null atom at the next address. -/
theorem child_cases {name : String} {r : Option Nat} (h : T.child a name = some (r, T')) :
    (∃ c, r = some c ∧ T' = T ∧ (T.entries a).lookup name = some c) ∨
    (r = none ∧ T' = T ∧ (T.cells a).readOnly ∧ (T.entries a).lookup name = none) ∨
    (r = some T.next ∧ (T.cells a).readOnly = false ∧ (T.entries a).lookup name = none ∧
      T' = ((T.ensureMap a).alloc (Atom.create false)).1.setPayload a
        (.map (QMap.insert name T.next (T.entries a)))) := by
  unfold Tree.child at h
  dsimp only at h
  rw [entries_ensureMap] at h
  cases hl : (T.entries a).lookup name with
  | some c =>
      have hm := isMap_of_lookup hl
      simp only [hm, hl, ensureMap_of_isMap hm, Bool.not_true, Bool.and_false, Bool.false_eq_true,
        if_false, Option.some.injEq, Prod.mk.injEq] at h
      exact .inl ⟨c, h.1.symm, h.2.symm, rfl⟩
  | none =>
      cases hro : (T.cells a).readOnly
      · simp only [hl, hro, Bool.false_and, Bool.false_eq_true, if_false, Option.some.injEq,
          Prod.mk.injEq, alloc_addr, ensureMap_next] at h
        exact .inr (.inr ⟨h.1.symm, rfl, rfl, h.2.symm⟩)
      · by_cases hm : (T.cells a).isMap
        · simp only [hl, hro, hm, ensureMap_of_isMap hm, Bool.not_true, Bool.and_false,
            Bool.false_eq_true, if_false, if_true, Option.some.injEq, Prod.mk.injEq] at h
          exact .inr (.inl ⟨h.1.symm, h.2.symm, rfl, rfl⟩)
        · simp [hro, hm] at h

/-- A fresh Null child inserted under `name`: the tree `child(name)`
builds on a writable node that lacks the key. -/
theorem Closed.insertFresh (hT : T.Closed) (ha : a < T.next) (name : String)
    (hro : (T.cells a).readOnly = false) :
    (((T.ensureMap a).alloc (Atom.create false)).1.setPayload a
      (.map (QMap.insert name T.next (T.entries a)))).Closed := by
  have h₁ := hT.ensureMap ha
  have hn : (T.ensureMap a).next = T.next := ensureMap_next
  obtain ⟨h₂, hor⟩ := h₁.alloc (x := Atom.create false) rfl
  rw [hn] at hor
  have ha₂ : a < ((T.ensureMap a).alloc (Atom.create false)).1.next := by simp; omega
  have hcell : ((T.ensureMap a).alloc (Atom.create false)).1.cells a = (T.ensureMap a).cells a :=
    alloc_cells_ne _ _ (by simp; omega)
  have hfresh : ((T.ensureMap a).alloc (Atom.create false)).1.cells T.next = Atom.create false := by
    rw [← hn]; exact alloc_cells_self _ _
  have hchildren : ∀ c ∈ (T.entries a).map (·.2),
      c ∈ (((T.ensureMap a).alloc (Atom.create false)).1.cells a).payload.children := by
    intro c hc
    rw [hcell, ← entries_ensureMap] at *
    exact mem_children_of_entries hc
  refine h₂.setPayload ha₂ ⟨QMap.nodup_values_insert _ ?_ ?_, fun c hc => ?_⟩
  · have := h₁.nodup_entries (by simpa using ha)
    rwa [entries_ensureMap] at this
  · exact fun h => Nat.lt_irrefl _ (children_entries_lt hT ha _ h)
  · rcases QMap.mem_values_insert hc with rfl | hc
    · refine .inr ⟨by simp, by simpa using ha, hor, ?_⟩
      rw [hcell, ensureMap_readOnly, hro, hfresh]
      rfl
    · exact .inl (hchildren c hc)

/-- `child(name)` keeps the region closed, grows it, and answers an
allocated node. -/
theorem Closed.child (hT : T.Closed) (ha : a < T.next) {name : String} {r : Option Nat}
    (h : T.child a name = some (r, T')) :
    T'.Closed ∧ T.next ≤ T'.next ∧ ∀ c ∈ r, c < T'.next := by
  rcases child_cases h with ⟨c, rfl, rfl, hc⟩ | ⟨rfl, rfl, -, -⟩ | ⟨rfl, hro, -, rfl⟩
  · refine ⟨hT, le_rfl, fun c' hc' => ?_⟩
    cases hc'
    exact children_entries_lt hT ha _ (List.mem_map.2 ⟨(name, c), QMap.mem_of_lookup hc, rfl⟩)
  · exact ⟨hT, le_rfl, by simp⟩
  · exact ⟨hT.insertFresh ha name hro, by simp, by simp⟩

-- ================================================ lists and mutation

@[simp] theorem items_setPayload_list (xs : List Nat) : (T.setPayload a (.list xs)).items a = xs := by
  simp [items]

@[simp] theorem entries_setPayload_map (m : List (String × Nat)) :
    (T.setPayload a (.map m)).entries a = m := by
  simp [entries]

/-- One fresh Null atom appended to a list: a step of the growth loop. -/
theorem Closed.appendFresh (hT : T.Closed) (ha : a < T.next) {ro : Bool}
    (hro : (T.cells a).readOnly = ro) :
    ((T.alloc (Atom.create ro)).1.setPayload a (.list (T.items a ++ [T.next]))).Closed := by
  obtain ⟨h₁, hor⟩ := hT.alloc (x := Atom.create ro) rfl
  have hcell : (T.alloc (Atom.create ro)).1.cells a = T.cells a := alloc_cells_ne _ _ (by omega)
  refine h₁.setPayload (by simp; omega) ⟨?_, fun c hc => ?_⟩
  · simp only [Payload.children]
    refine List.nodup_append.2 ⟨hT.nodup_items ha, List.nodup_singleton _, ?_⟩
    simpa using fun h => Nat.lt_irrefl _ (children_items_lt hT ha _ h)
  · simp only [Payload.children, List.mem_append, List.mem_singleton] at hc
    rcases hc with hc | rfl
    · exact .inl (by rw [hcell]; exact mem_children_of_items hc)
    · exact .inr ⟨by simp, ha, hor, by rw [alloc_cells_self, hcell, hro]; rfl⟩

/-- The growth loop of `child(int)` keeps the region closed and grows it. -/
theorem Closed.grow (ro : Bool) :
    ∀ (n : Nat) {T : Tree}, T.Closed → a < T.next → (T.cells a).readOnly = ro →
      (Tree.grow a ro n T).Closed ∧ T.next ≤ (Tree.grow a ro n T).next
  | 0, T, hT, _, _ => ⟨hT, le_rfl⟩
  | n + 1, T, hT, ha, hro => by
      simp only [Tree.grow, alloc_addr]
      have hcell : (T.alloc (Atom.create ro)).1.cells a = T.cells a := alloc_cells_ne _ _ (by omega)
      obtain ⟨h₁, h₂⟩ := Closed.grow ro n (hT.appendFresh ha hro) (by simp; omega)
        (by simp [hcell, hro])
      exact ⟨h₁, by simp at h₂; omega⟩

@[simp] theorem ensureList_items_of_isList : ((T.ensureList a).cells a).readOnly = (T.cells a).readOnly := by
  unfold Tree.ensureList; split <;> simp

/-- `child(index)` keeps the region closed, grows it, and answers an
allocated node. -/
theorem Closed.childAt (hT : T.Closed) (ha : a < T.next) {index : Int} {r : Option Nat}
    (h : T.childAt a index = some (r, T')) :
    T'.Closed ∧ T.next ≤ T'.next ∧ ∀ c ∈ r, c < T'.next := by
  unfold Tree.childAt at h
  dsimp only at h
  split_ifs at h with h₁ h₂ h₃
  · simp only [Option.some.injEq, Prod.mk.injEq] at h
    obtain ⟨rfl, rfl⟩ := h
    exact ⟨hT.ensureList ha, by simp, by simp⟩
  · have ha' : a < (T.ensureList a).next := by simpa using ha
    obtain ⟨hG, hn⟩ := Closed.grow (T.cells a).readOnly
      (index + 1 - ((T.ensureList a).items a).length).toNat (hT.ensureList ha) ha' (by simp)
    split at h
    · next c hc =>
        simp only [Option.some.injEq, Prod.mk.injEq] at h
        obtain ⟨rfl, rfl⟩ := h
        refine ⟨hG, le_of_eq_of_le ensureList_next.symm hn, fun c' hc' => ?_⟩
        cases hc'
        exact children_items_lt hG (lt_of_lt_of_le ha' hn) c (List.getElem?_mem hc)
    · cases h

/-- `remove(index)` keeps the region closed. -/
theorem Closed.removeAt (hT : T.Closed) (ha : a < T.next) {index : Int} {b : Bool}
    (h : T.removeAt a index = some (b, T')) : T'.Closed ∧ T'.next = T.next := by
  unfold Tree.removeAt at h
  split_ifs at h
  · simp only [Option.some.injEq, Prod.mk.injEq] at h; obtain ⟨-, rfl⟩ := h; exact ⟨hT, rfl⟩
  · simp only [Option.some.injEq, Prod.mk.injEq] at h
    obtain ⟨-, rfl⟩ := h
    refine ⟨hT.setPayload ha ⟨(hT.nodup_items ha).sublist (List.eraseIdx_sublist _ _),
      fun c hc => .inl (mem_children_of_items (List.mem_of_mem_eraseIdx hc))⟩, rfl⟩

/-- `remove(name)` keeps the region closed. -/
theorem Closed.remove (hT : T.Closed) (ha : a < T.next) {name : String} {b : Bool}
    (h : T.remove a name = some (b, T')) : T'.Closed ∧ T'.next = T.next := by
  unfold Tree.remove at h
  split_ifs at h
  simp only [Option.some.injEq, Prod.mk.injEq] at h
  obtain ⟨-, rfl⟩ := h
  have hsub : ((QMap.erase name (T.entries a)).map (·.2)).Sublist ((T.entries a).map (·.2)) :=
    (List.filter_sublist _).map _
  exact ⟨hT.setPayload ha ⟨(hT.nodup_entries ha).sublist hsub,
    fun c hc => .inl (mem_children_of_entries (hsub.subset hc))⟩, rfl⟩

/-- `replace(name, value)` with an allocated orphan `value` after the
node, carrying its read-only flag, keeps the region closed. -/
theorem Closed.replace (hT : T.Closed) (ha : a < T.next) {name : String} {v : Nat}
    (hv : v < T.next) (hav : a < v) (hor : T.Orphan v)
    (hro : (T.cells v).readOnly = (T.cells a).readOnly) {b : Bool}
    (h : T.replace a name v = some (b, T')) : T'.Closed ∧ T'.next = T.next := by
  have hs : (T.setPayload a (.map (QMap.insert name v (T.entries a)))).Closed := by
    refine hT.setPayload ha ⟨QMap.nodup_values_insert _ (hT.nodup_entries ha)
      (Closed.orphan_not_mem_entries hor ha), fun c hc => ?_⟩
    rcases QMap.mem_values_insert hc with rfl | hc
    · exact .inr ⟨hv, hav, hor, hro⟩
    · exact .inl (mem_children_of_entries hc)
  unfold Tree.replace at h
  split_ifs at h
  split at h
  · split_ifs at h <;> simp only [Option.some.injEq, Prod.mk.injEq] at h <;> obtain ⟨-, rfl⟩ := h
    · exact ⟨hs, rfl⟩
    · exact ⟨hT, rfl⟩
  · simp only [Option.some.injEq, Prod.mk.injEq] at h; obtain ⟨-, rfl⟩ := h; exact ⟨hs, rfl⟩

-- ==================================================== `fromVariant`

@[simp] theorem fromVariant_fst (ro : Bool) (v : Variant) (T : Tree) :
    (Tree.fromVariant ro v T).1 = T.next := by
  cases v <;> rfl

/-- In a closed region built past `T.next` without touching the cells
below it, nothing refers to `T.next`. -/
theorem Closed.orphan_next {T₀ : Tree} (hT₀ : T₀.Closed) (hT : T.Closed)
    (hframe : ∀ b < T₀.next, T.cells b = T₀.cells b) : T.Orphan T₀.next := by
  intro b hb h
  by_cases hb₀ : b < T₀.next
  · rw [hframe b hb₀] at h
    exact Nat.lt_irrefl _ (hT₀.bound b hb₀ _ h)
  · exact Nat.lt_irrefl _ (lt_of_le_of_lt (Nat.le_of_not_lt hb₀) (hT.above b hb _ h))

/-- One round of the list loop of `fromVariant`: a region `T₁` built past
`T` without touching its cells, whose root `T.next` carries the node's
flag, stays closed when the root is appended to the node's items. -/
theorem Closed.appendRoot {T₁ : Tree} (hT : T.Closed) (hT₁ : T₁.Closed) (ha : a < T.next)
    (hn : T.next < T₁.next) (hframe : ∀ b < T.next, T₁.cells b = T.cells b)
    (hro : (T₁.cells T.next).readOnly = (T.cells a).readOnly) :
    (T₁.setPayload a (.list (T₁.items a ++ [T.next]))).Closed := by
  have hor := hT.orphan_next hT₁ hframe
  refine hT₁.setPayload (by omega) ⟨?_, fun c hc => ?_⟩
  · simp only [Payload.children]
    exact List.nodup_append.2 ⟨hT₁.nodup_items (by omega), List.nodup_singleton _,
      by simpa using Closed.orphan_not_mem_items hor (by omega)⟩
  · simp only [Payload.children, List.mem_append, List.mem_singleton] at hc
    rcases hc with hc | rfl
    · exact .inl (mem_children_of_items hc)
    · exact .inr ⟨hn, ha, hor, by rw [hro, hframe a ha]⟩

/-- One round of the map loop of `fromVariant`: the root inserted under
a key. -/
theorem Closed.insertRoot {T₁ : Tree} (hT : T.Closed) (hT₁ : T₁.Closed) (ha : a < T.next)
    (hn : T.next < T₁.next) (hframe : ∀ b < T.next, T₁.cells b = T.cells b)
    (hro : (T₁.cells T.next).readOnly = (T.cells a).readOnly) (k : String) :
    (T₁.setPayload a (.map (QMap.insert k T.next (T₁.entries a)))).Closed := by
  have hor := hT.orphan_next hT₁ hframe
  refine hT₁.setPayload (by omega) ⟨QMap.nodup_values_insert _ (hT₁.nodup_entries (by omega))
    (Closed.orphan_not_mem_entries hor (by omega)), fun c hc => ?_⟩
  rcases QMap.mem_values_insert hc with rfl | hc
  · exact .inr ⟨hn, ha, hor, by rw [hro, hframe a ha]⟩
  · exact .inl (mem_children_of_entries hc)

mutual
/-- `fromVariant` keeps the region closed, leaves every old cell as it
was, and answers the next free address as its root, allocated, with the
requested read-only flag. -/
theorem Closed.fromVariant_spec (ro : Bool) : ∀ (v : Variant) {T : Tree}, T.Closed →
    (Tree.fromVariant ro v T).2.Closed ∧ T.next < (Tree.fromVariant ro v T).2.next ∧
      (∀ b < T.next, (Tree.fromVariant ro v T).2.cells b = T.cells b) ∧
      ((Tree.fromVariant ro v T).2.cells T.next).readOnly = ro
  | .invalid, T, hT =>
      ⟨(hT.alloc (x := Atom.create ro) rfl).1, Nat.lt_succ_self _,
        fun _ hb => alloc_cells_ne _ _ (Nat.ne_of_lt hb), by simp [Tree.fromVariant, Atom.create]⟩
  | .scalar s, T, hT =>
      ⟨(hT.alloc (x := ⟨.value (.scalar s), ro⟩) rfl).1, Nat.lt_succ_self _,
        fun _ hb => alloc_cells_ne _ _ (Nat.ne_of_lt hb), by simp [Tree.fromVariant]⟩
  | .list xs, T, hT => by
      simp only [Tree.fromVariant]
      obtain ⟨h₁, h₂, h₃, h₄⟩ := Closed.fromVariantList_spec ro T.next xs
        (hT.alloc (x := ⟨.list [], ro⟩) rfl).1
        (by simp) (by simp)
      simp only [alloc_next, alloc_cells_self] at h₂ h₄
      exact ⟨h₁, by omega, fun b hb => by
        rw [h₃ b (by simp; omega) (Nat.ne_of_lt hb), alloc_cells_ne _ _ (Nat.ne_of_lt hb)], h₄⟩
  | .map m, T, hT => by
      simp only [Tree.fromVariant]
      obtain ⟨h₁, h₂, h₃, h₄⟩ := Closed.fromVariantMap_spec ro T.next m
        (hT.alloc (x := ⟨.map [], ro⟩) rfl).1
        (by simp) (by simp)
      simp only [alloc_next, alloc_cells_self] at h₂ h₄
      exact ⟨h₁, by omega, fun b hb => by
        rw [h₃ b (by simp; omega) (Nat.ne_of_lt hb), alloc_cells_ne _ _ (Nat.ne_of_lt hb)], h₄⟩
/-- The list loop of `fromVariant` keeps the region closed and changes
no old cell but its node's payload. -/
theorem Closed.fromVariantList_spec (ro : Bool) (a : Nat) : ∀ (xs : List Variant) {T : Tree},
    T.Closed → a < T.next → (T.cells a).readOnly = ro →
      (Tree.fromVariantList ro a xs T).Closed ∧ T.next ≤ (Tree.fromVariantList ro a xs T).next ∧
      (∀ b < T.next, b ≠ a → (Tree.fromVariantList ro a xs T).cells b = T.cells b) ∧
      ((Tree.fromVariantList ro a xs T).cells a).readOnly = ro
  | [], T, hT, _, hro => ⟨hT, le_rfl, fun _ _ _ => rfl, hro⟩
  | x :: xs, T, hT, ha, hro => by
      simp only [Tree.fromVariantList, fromVariant_fst]
      obtain ⟨h₁, h₂, h₃, h₄⟩ := Closed.fromVariant_spec ro x hT
      have hca := h₃ a ha
      have hs := hT.appendRoot h₁ ha h₂ h₃ (h₄.trans hro.symm)
      obtain ⟨h₅, h₆, h₇, h₈⟩ := Closed.fromVariantList_spec ro a xs hs (by simp; omega)
        (by simp [hca, hro])
      refine ⟨h₅, by simp at h₆; omega, fun b hb hba => ?_, h₈⟩
      rw [h₇ b (by simp; omega) hba, setPayload_cells_ne _ _ hba, h₃ b hb]
/-- The map loop of `fromVariant` keeps the region closed and changes no
old cell but its node's payload. -/
theorem Closed.fromVariantMap_spec (ro : Bool) (a : Nat) :
    ∀ (m : List (String × Variant)) {T : Tree}, T.Closed → a < T.next → (T.cells a).readOnly = ro →
      (Tree.fromVariantMap ro a m T).Closed ∧ T.next ≤ (Tree.fromVariantMap ro a m T).next ∧
      (∀ b < T.next, b ≠ a → (Tree.fromVariantMap ro a m T).cells b = T.cells b) ∧
      ((Tree.fromVariantMap ro a m T).cells a).readOnly = ro
  | [], T, hT, _, hro => ⟨hT, le_rfl, fun _ _ _ => rfl, hro⟩
  | (k, x) :: m, T, hT, ha, hro => by
      simp only [Tree.fromVariantMap, fromVariant_fst]
      obtain ⟨h₁, h₂, h₃, h₄⟩ := Closed.fromVariant_spec ro x hT
      have hca := h₃ a ha
      have hs := hT.insertRoot h₁ ha h₂ h₃ (h₄.trans hro.symm) k
      obtain ⟨h₅, h₆, h₇, h₈⟩ := Closed.fromVariantMap_spec ro a m hs (by simp; omega)
        (by simp [hca, hro])
      refine ⟨h₅, by simp at h₆; omega, fun b hb hba => ?_, h₈⟩
      rw [h₇ b (by simp; omega) hba, setPayload_cells_ne _ _ hba, h₃ b hb]
end

/-- `fromVariant` keeps the region closed, grows it, and answers an
allocated root. -/
theorem Closed.fromVariant (ro : Bool) (v : Variant) (hT : T.Closed) :
    (Tree.fromVariant ro v T).2.Closed ∧ T.next ≤ (Tree.fromVariant ro v T).2.next ∧
      (Tree.fromVariant ro v T).1 < (Tree.fromVariant ro v T).2.next := by
  obtain ⟨h₁, h₂, -, -⟩ := hT.fromVariant_spec ro v
  exact ⟨h₁, h₂.le, by simpa using h₂⟩

end Tree

end QutimConfig
