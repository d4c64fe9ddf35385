/-
Arrays (config.cpp:943-995): `beginArray`, `setArrayIndex`, `endArray`
and `arraySize`.

`Config::arraySize()` answers the first positive List size among the
list frame's atoms, one per layer (config.cpp:967-980), and
`setArrayIndex(i)` grows only writable lists, to cover `i`
(`ConfigAtom::child(int)`, config.cpp:174-186). So after visits to the
elements of an array whose first layer is writable, `beginArray` reports
that layer's size, grown to cover every index visited; it reports what
it reported at first when no index was set, or when the first layer's
list was already the one it measured.

# The visit invariant

While the array is open (`InArray`), the cursor is at the list frame or
at an element frame rising from it, and the heap has kept every node
below the list frame, and the tags and flags of its atoms, since
`beginArray` left it. `setArrayIndex` keeps this and grows each writable
list of the frame (`InArray.setArrayIndex`); `value` and `setValue` on
the element act past the element frame and leave the list frame as it
was (`InArray.call`); `endArray` goes back to the group
(`InArray.endArray`). `beginArray` then replays its walk
(`beginArray_replay`, Frame.lean) and measures the first layer's list.
-/
import QutimConfig.Proofs.Frame

namespace QutimConfig

open Heap

-- ====================================================== growing a list

theorem Atom.SameTag.refl (x : Atom) : x.SameTag x := ⟨rfl, rfl⟩

theorem Atom.SameTag.trans {x y z : Atom} (h₁ : x.SameTag y) (h₂ : y.SameTag z) : x.SameTag z :=
  ⟨h₁.1.trans h₂.1, h₁.2.trans h₂.2⟩

theorem Atom.type_of_isList {x : Atom} (h : x.isList) : x.type = .list := by
  simpa [Atom.isList] using h

namespace Tree

variable {T T' T₂ : Tree} {a : Nat}

theorem items_congr (h : T'.cells a = T.cells a) : T'.items a = T.items a := by
  simp only [items, h]

theorem ensureList_of_isList (h : (T.cells a).isList) : T.ensureList a = T := by
  unfold ensureList
  split
  · rfl
  · next hm =>
      simp only [Atom.isList, Atom.type, Payload.type, beq_iff_eq] at h
      split at h <;> simp_all

/-- The growth loop appends `n` items to a List and keeps its tag and
flag. -/
theorem grow_spec (ro : Bool) : ∀ (n : Nat) {T : Tree}, a < T.next → (T.cells a).isList →
    ((grow a ro n T).cells a).SameTag (T.cells a) ∧
      ((grow a ro n T).items a).length = (T.items a).length + n
  | 0, T, _, _ => ⟨⟨rfl, rfl⟩, rfl⟩
  | n + 1, T, ha, hl => by
      simp only [grow, alloc_addr]
      have hc : ((T.alloc (Atom.create ro)).1.setPayload a (.list (T.items a ++ [T.next]))).cells a =
          { T.cells a with payload := .list (T.items a ++ [T.next]) } := by
        rw [setPayload_cells_self, alloc_cells_ne _ _ (Nat.ne_of_lt ha)]
      have h₁ : Atom.SameTag { T.cells a with payload := .list (T.items a ++ [T.next]) } (T.cells a) :=
        ⟨(Atom.type_of_isList hl).symm, rfl⟩
      obtain ⟨ih₁, ih₂⟩ := grow_spec ro n
        (T := (T.alloc (Atom.create ro)).1.setPayload a (.list (T.items a ++ [T.next])))
        (by simp; omega) (by simp [hc, Atom.isList, Atom.type, Payload.type])
      rw [hc] at ih₁
      exact ⟨ih₁.trans h₁, by rw [ih₂, items_setPayload_list, List.length_append,
        List.length_singleton]; omega⟩

/-- Node `a` of `T'` is node `a` of `T`, with its tag and flag, grown to
cover `index` when it is writable. -/
def GrownTo (index : Nat) (T' T : Tree) (a : Nat) : Prop :=
  (T'.cells a).SameTag (T.cells a) ∧
    ((T.cells a).readOnly = false → (T'.items a).length = max (T.items a).length (index + 1))

theorem GrownTo.congr {index : Nat} (hg : GrownTo index T₂ T a) (h : T'.cells a = T₂.cells a) :
    GrownTo index T' T a := by
  unfold GrownTo at *
  rwa [h, items_congr h]

/-- `child(index)` on a List, at an index `≥ 0`: a writable list grows
to cover the index, a read-only one is left as it is. -/
theorem childAt_grownTo {index : Nat} {r : Option Nat} (ha : a < T.next) (hl : (T.cells a).isList)
    (e : T.childAt a index = some (r, T')) : GrownTo index T' T a := by
  unfold childAt at e
  dsimp only at e
  rw [ensureList_of_isList hl] at e
  split_ifs at e with h₁ h₂
  · simp only [Option.some.injEq, Prod.mk.injEq] at e
    obtain ⟨-, rfl⟩ := e
    exact ⟨⟨rfl, rfl⟩, fun hro => by simp [hro] at h₂⟩
  · split at e
    · simp only [Option.some.injEq, Prod.mk.injEq] at e
      obtain ⟨-, rfl⟩ := e
      obtain ⟨hs, hn⟩ := grow_spec (T.cells a).readOnly _ ha hl
      exact ⟨hs, fun _ => by rw [hn]; omega⟩
    · cases e

end Tree

theorem childAtCallback_grownTo (index : Nat) {a : Ptr} {ro : Bool} {h h' : Heap} {r : Option Ptr}
    (ha : h.Valid a) (hl : (h.atom a).isList) (e : childAtCallback index a ro h = some (r, h')) :
    Tree.GrownTo index (h'.trees a.tree) (h.trees a.tree) a.addr := by
  unfold childAtCallback at e
  rw [if_neg (by simp [hl])] at e
  simp only [Heap.childAt, Option.map_eq_some', Prod.mk.injEq] at e
  obtain ⟨⟨r₀, T⟩, e, -, rfl⟩ := e
  simpa using Tree.childAt_grownTo ha.2 hl e

/-- A per-atom effect of a callback, read on the atom's region, holds of
every atom after `ConfigLevel::map`: the later callbacks act on other
regions. -/
theorem mapAtoms_keeps {cb : AtomCallback} (hok : CallbackOK cb) {P : Tree → Nat → Prop}
    {R : Tree → Tree → Nat → Prop}
    (hcb : ∀ {a ro h r h'}, h.Valid a → P (h.trees a.tree) a.addr → cb a ro h = some (r, h') →
      R (h'.trees a.tree) (h.trees a.tree) a.addr) :
    ∀ {xs : List Ptr} {first : Bool} {h : Heap} {ys : List Ptr} {h' : Heap}, h.Closed →
      (∀ x ∈ xs, h.Valid x) → (xs.map Ptr.tree).Nodup → (∀ x ∈ xs, P (h.trees x.tree) x.addr) →
      mapAtoms cb first xs h = some (ys, h') → ∀ x ∈ xs, R (h'.trees x.tree) (h.trees x.tree) x.addr
  | [], _, _, _, _, _, _, _, _, _ => fun _ hx => absurd hx (List.not_mem_nil _)
  | x :: xs, first, h, ys, h', hh, hv, hn, hP, e => by
      simp only [mapAtoms, Option.bind_eq_bind, Option.bind_eq_some, Option.pure_def,
        Option.some.injEq] at e
      obtain ⟨⟨r, h₁⟩, e₁, ⟨ys', h₂⟩, e₂, rfl, rfl⟩ := e
      obtain ⟨hl, -⟩ := hok x _ h r h₁ hh (hv x (.head _)) e₁
      have hvs : ∀ y ∈ xs, h₁.Valid y := fun y hy => (hv y (.tail _ hy)).grow hl.grows
      have hother : ∀ y ∈ xs, h₁.trees y.tree = h.trees y.tree := fun y hy =>
        hl.frame _ (not_mem_of_nodup hn y hy).symm
      have ih := mapAtoms_keeps hok hcb hl.closed hvs (List.nodup_cons.1 hn).2
        (fun y hy => by rw [hother y hy]; exact hP y (.tail _ hy)) e₂
      intro y hy
      rcases List.mem_cons.1 hy with rfl | hy
      · rw [(mapAtoms_ok hok xs false hl.closed hvs e₂).2.2.1 y.tree (List.nodup_cons.1 hn).1]
        exact hcb (hv y (.head _)) (hP y (.head _)) e₁
      · rw [← hother y hy]
        exact ih y hy

/-- `Config::setArrayIndex(index)` from a cursor whose list frame `d₁`
holds Lists: an element frame rising from the list frame, nothing below
the list frame changed, and each of its atoms grown to cover the index. -/
theorem setArrayIndex_spec {index : Nat} {d d₁ d' : ConfigPrivate} {h h' : Heap} (hh : h.Closed)
    (hd : d.OK h) (hpop : d.popElement = some d₁) (hlist : ∀ x ∈ d₁.current.atoms, (h.atom x).isList)
    (e : setArrayIndex index d h = some (d', h')) :
    ∃ E : ConfigLevel, d' = d₁.push E ∧ E.arrayElement = true ∧
      Rises (· < ·) d₁.current.atoms E.atoms ∧ h.Grows h' ∧ h.FixedBelow h' d₁.current.atoms ∧
      ∀ x ∈ d₁.current.atoms, Tree.GrownTo index (h'.trees x.tree) (h.trees x.tree) x.addr := by
  simp only [setArrayIndex, Option.bind_eq_bind, Option.bind_eq_some, Option.guard_eq_some,
    Option.pure_def, Option.some.injEq, Prod.mk.injEq] at e
  obtain ⟨d₂, e₁, a, -, -, -, ⟨l₁, h₁⟩, e₂, ⟨l₂, h₂⟩, e₃, rfl, rfl⟩ := e
  obtain rfl := Option.some.inj (e₁.symm.trans hpop)
  have hl := (popElement_ok hd hpop).current
  have s₁ := ConfigLevel.map_step (childAtCallback_ok index) hl hh e₂
  obtain ⟨f₁, r₁⟩ := ConfigLevel.map_rises (childAtCallback_ok index) (childAtCallback_rises index)
    hh hl e₂
  obtain ⟨f₂, r₂⟩ := ConfigLevel.map_rises (convertCallback_ok .map) (convertCallback_rises .map)
    s₁.closed s₁.ok e₃
  have hg : ∀ x ∈ d₂.current.atoms, Tree.GrownTo index (h₁.trees x.tree) (h.trees x.tree) x.addr := by
    simp only [ConfigLevel.childAt, ConfigLevel.map, Option.map_eq_some', Prod.mk.injEq] at e₂
    obtain ⟨⟨ys, _⟩, e₂, -, rfl⟩ := e₂
    exact mapAtoms_keeps (P := fun T a => (T.cells a).isList = true)
      (R := fun T' T a => Tree.GrownTo index T' T a) (childAtCallback_ok index)
      (fun ha hP e => childAtCallback_grownTo index ha hP e) hh hl.valid hl.separate hlist e₂
  refine ⟨{ l₂ with arrayElement := true }, rfl, rfl,
    @Rises.trans (· < ·) (· = ·) (· < ·) (fun h₁ h₂ => h₂ ▸ h₁) _ _ _ r₁ r₂,
    s₁.grows.trans (ConfigLevel.map_step (convertCallback_ok .map) s₁.ok s₁.closed e₃).grows,
    f₁.trans f₂ (r₁.mono Nat.le_of_lt) s₁.grows, fun x hx => ?_⟩
  exact (hg x hx).congr (f₂ x ((hl.valid x hx).grow s₁.grows) (r₁.below hl.separate hx))

-- ================================================== opening the array

/-- `ConfigLevel::convert(type)` keeps a writable first atom first and
writable, and its region holds that atom converted. -/
theorem convert_first {type : AtomType} {l l' : ConfigLevel} {h h' : Heap} {b : Ptr}
    {bs : List Ptr} (hh : h.Closed) (hl : l.OK h) (hat : l.atoms = b :: bs)
    (hw : (h.atom b).readOnly = false) (e : l.convert type h = some (l', h')) :
    l'.atoms.head? = some b ∧ (h'.atom b).readOnly = false ∧
      h'.trees b.tree = (h.trees b.tree).convert b.addr type := by
  simp only [ConfigLevel.convert, ConfigLevel.map, Option.map_eq_some', Prod.mk.injEq, hat] at e
  obtain ⟨⟨cs, h₂⟩, e, rfl, rfl⟩ := e
  simp only [mapAtoms, hw, convertCallback, Bool.not_true, Bool.or_false, Bool.false_and,
    Bool.false_eq_true, if_false, Option.bind_eq_bind, Option.some_bind, Option.bind_eq_some,
    Option.pure_def, Option.some.injEq] at e
  obtain ⟨⟨cs', h₃⟩, e, rfl, rfl⟩ := e
  have hv : ∀ x ∈ b :: bs, h.Valid x := hat ▸ hl.valid
  have hn : ((b :: bs).map Ptr.tree).Nodup := hat ▸ hl.separate
  have hloc := convert_local hh (hv b (.head _)) type
  have hfr := (mapAtoms_ok (convertCallback_ok type) bs false hloc.closed
    (fun x hx => (hv x (.tail _ hx)).grow hloc.grows) e).2.2.1 b.tree (List.nodup_cons.1 hn).1
  refine ⟨rfl, ?_, by simpa [Heap.convert] using hfr⟩
  rw [Heap.atom_congr hfr]
  simpa [Heap.atom, Heap.convert, Tree.convert_readOnly] using hw

/-- `convert(List)` keeps only Lists. -/
theorem convertCallback_list {a : Ptr} {ro : Bool} {h h' : Heap} {r : Option Ptr}
    (e : convertCallback .list a ro h = some (r, h')) : ∀ c ∈ r, (h'.atom c).isList := by
  unfold convertCallback at e
  split_ifs at e <;> simp only [Option.some.injEq, Prod.mk.injEq] at e <;> obtain ⟨rfl, rfl⟩ := e
  · exact fun _ h => nomatch h
  · intro c hc
    cases hc
    simp [Heap.atom, Heap.convert, Atom.isList, Tree.convert_type]

/-- `Config::beginArray(name)` from a level whose first atom is a
writable Map: the list frame starts with that layer's node at the path,
a writable List, every atom of the frame is a List, and the answer is
the frame's size. -/
theorem beginArray_first {name : String} {n : Nat} {d d₁ : ConfigPrivate} {h h₁ : Heap} {a : Ptr}
    {as : List Ptr} (hd : d.OK h) (hh : h.Closed) (hat : d.current.atoms = a :: as)
    (hwa : (h.atom a).readOnly = false) (hma : (h.atom a).isMap)
    (e : beginArray name d h = some (n, d₁, h₁)) :
    ∃ L ℓ, d₁ = d.push L ∧ L.arrayElement = false ∧ L.atoms.head? = some ℓ ∧
      (h₁.atom ℓ).readOnly = false ∧ (∀ x ∈ L.atoms, (h₁.atom x).isList) ∧
      arraySizeLoop h₁ L.atoms = some n := by
  simp only [beginArray, Option.bind_eq_bind, Option.bind_eq_some, Option.guard_eq_some,
    Option.pure_def, Option.some.injEq, Prod.mk.injEq] at e
  obtain ⟨-, -, ⟨l₁, h₂⟩, e₁, ⟨L, h₃⟩, e₂, m, hm, rfl, rfl, rfl⟩ := e
  have hL := ConfigLevel.map_arrayElement e₂
  have s₁ := childNames_step hd.current hh e₁
  unfold ConfigLevel.childNames at e₁
  split_ifs at e₁
  obtain ⟨c, cs, hl₁, hsp, -⟩ := childPath_tracks (P := parseNames name) (hat ▸ hd.current.valid)
    (hat ▸ hd.current.separate) _ hat ⟨Tree.ChangedAlong.refl _ _ _, lookup_nil h a, hwa⟩
    (Tracks.refl as) hh hd.current (by simp) (fun _ => hma) e₁
  obtain ⟨hhead, hw, -⟩ := convert_first s₁.closed s₁.ok hl₁ hsp.writable e₂
  simp only [ConfigLevel.convert, ConfigLevel.map, Option.map_eq_some', Prod.mk.injEq] at e₂
  obtain ⟨⟨ys, _⟩, e₂, rfl, rfl⟩ := e₂
  refine ⟨_, c, rfl, rfl, hhead, hw, mapAtoms_forall (convertCallback_ok .list)
    (fun c h => (h.atom c).isList) (fun he h => by dsimp only at h ⊢; rwa [Heap.atom_congr he])
    (fun _ e => convertCallback_list e) s₁.closed s₁.ok.valid s₁.ok.separate e₂, ?_⟩
  simpa [arraySize] using hm

theorem Heap.arraySize_of_isList {h : Heap} {ℓ : Ptr} (hl : (h.atom ℓ).isList) :
    h.arraySize ℓ = some ((h.trees ℓ.tree).items ℓ.addr).length := by
  simp only [Heap.arraySize, Tree.arraySize]
  exact if_pos hl

/-- `arraySize()`'s loop stops at a first atom with a non-empty List. -/
theorem arraySizeLoop_of_pos {h : Heap} {ℓ : Ptr} {Ls : List Ptr} (hl : (h.atom ℓ).isList)
    (hpos : 0 < ((h.trees ℓ.tree).items ℓ.addr).length) :
    arraySizeLoop h (ℓ :: Ls) = some ((h.trees ℓ.tree).items ℓ.addr).length := by
  simp [arraySizeLoop, Heap.arraySize_of_isList hl, hpos]

-- ================================================== visiting elements

/-- A call on an array element: `value` or `setValue` on the element
frame. -/
inductive ElementCall where
  | value (key : String) (dflt : Variant) (flags : ValueFlags)
  | setValue (key : String) (v : Variant) (flags : ValueFlags)

/-- An element call as an action of cursor `c`. -/
def ElementCall.action (c : Nat) : ElementCall → Action
  | .value key dflt flags => .value c key dflt flags
  | .setValue key v flags => .setValue c key v flags

/-- Visits to elements on cursor `c`: `setArrayIndex(i)`, then the calls
on that element, for each visit in turn. -/
def visitActions (c : Nat) : List (Nat × List ElementCall) → List Action
  | [] => []
  | (i, calls) :: vs => .setArrayIndex c i :: (calls.map (ElementCall.action c) ++ visitActions c vs)

/-- A size `m`, grown to cover every index visited. -/
def visitedSize (m : Nat) (visits : List (Nat × List ElementCall)) : Nat :=
  visits.foldl (fun m v => max m (v.1 + 1)) m

theorem le_visitedSize : ∀ (m : Nat) (visits : List (Nat × List ElementCall)), m ≤ visitedSize m visits
  | _, [] => le_rfl
  | m, v :: vs => (le_max_left m (v.1 + 1)).trans (le_visitedSize _ vs)

/-- After a visit the size covers at least one element. -/
theorem visitedSize_cons_pos (m : Nat) (v : Nat × List ElementCall) (vs : List (Nat × List ElementCall)) :
    0 < visitedSize m (v :: vs) :=
  calc 0 < v.1 + 1 := Nat.succ_pos _
    _ ≤ max m (v.1 + 1) := le_max_right _ _
    _ ≤ visitedSize m (v :: vs) := le_visitedSize _ vs

theorem run_append {env : Env} {cs : CryptoService} : ∀ (w : World) (as bs : List Action),
    run env cs w (as ++ bs) = (run env cs w as).bind fun w => run env cs w bs
  | _, [], _ => rfl
  | w, a :: as, bs => by
      simp only [List.cons_append, run]
      cases step env cs w a with
      | none => rfl
      | some w₁ => exact run_append w₁ as bs

/-- A step is its action followed by the Sources' destructors, which
leave the heap and the cursors alone. -/
theorem step_perform {env : Env} {cs : CryptoService} {w w' : World} {a : Action}
    (e : step env cs w a = some w') :
    ∃ w₀, perform env cs w a = some w₀ ∧ w'.store.heap = w₀.store.heap ∧
      ∀ c, w'.config c = w₀.config c := by
  simp only [step, Option.map_eq_some'] at e
  obtain ⟨w₀, e, rfl⟩ := e
  exact ⟨w₀, e, (keeps_collect w₀).heap, config_of_configs (keeps_collect w₀).configs⟩

section Visits

variable {env : Env} {cs : CryptoService} {c : Nat} {d : ConfigPrivate} {L E : ConfigLevel}
  {h₁ : Heap} {w w' : World}

/-- While the array with list frame `L`, opened from `d`, is open on
cursor `c`: the cursor is at the list frame or at an element frame
rising from it; the heap grew from `h₁`, where `beginArray` left it,
kept every node below the list frame, and kept its atoms' tags and
flags. -/
structure InArray (c : Nat) (d : ConfigPrivate) (L : ConfigLevel) (h₁ : Heap) (w : World) : Prop where
  cursor : w.config c = some (d.push L) ∨
    ∃ E : ConfigLevel, E.arrayElement = true ∧ Rises (· < ·) L.atoms E.atoms ∧
      w.config c = some ((d.push L).push E)
  grows : h₁.Grows w.store.heap
  fixed : h₁.FixedBelow w.store.heap L.atoms
  tags : ∀ x ∈ L.atoms, (w.store.heap.atom x).SameTag (h₁.atom x)

theorem InArray.start (hc : w.config c = some (d.push L)) :
    InArray c d L w.store.heap w :=
  ⟨.inl hc, Grows.refl _, FixedBelow.refl _ _, fun _ _ => ⟨rfl, rfl⟩⟩

/-- The list frame is a level of the cursor, sound in a reachable world. -/
theorem InArray.ok (hr : Reachable env cs w) (hI : InArray c d L h₁ w) : L.OK w.store.heap := by
  rcases hI.cursor with hc | ⟨E, -, -, hc⟩
  · exact (hr.heapInv.configs c _ hc).current
  · exact hr.heapInv.configs c _ hc L (by simp [ConfigPrivate.push])

/-- The list frame's atoms are still Lists. -/
theorem InArray.isList (hI : InArray c d L h₁ w) (hlist : ∀ x ∈ L.atoms, (h₁.atom x).isList) :
    ∀ x ∈ L.atoms, (w.store.heap.atom x).isList := fun x hx => by
  simp only [Atom.isList, (hI.tags x hx).1]
  exact hlist x hx

/-- `beginArray(name)` opens the array at the list frame. -/
theorem InArray.begin {name : String} {s : Nat} (hd : w.config c = some d)
    (e : beginArray name d w.store.heap = some (s, d.push L, h₁))
    (e' : step env cs w (.beginArray c name) = some w') : InArray c d L h₁ w' ∧ w'.store.heap = h₁ := by
  obtain ⟨w₀, e', hheap, hcfg⟩ := step_perform e'
  simp only [perform, hd, e, Option.bind_eq_bind, Option.some_bind, Option.pure_def,
    Option.some.injEq] at e'
  subst e'
  have hc : w'.config c = some (d.push L) := (hcfg c).trans (World.config_setConfig_self hd)
  have hh : w'.store.heap = h₁ := hheap
  exact ⟨hh ▸ InArray.start hc, hh⟩

/-- The invariant after a step to an element frame rising from the list
frame, when the heap grew, kept the nodes below the list frame, and kept
its atoms' tags and flags. -/
theorem InArray.next (hI : InArray c d L h₁ w) (hE : E.arrayElement = true)
    (hrise : Rises (· < ·) L.atoms E.atoms) (hc : w'.config c = some ((d.push L).push E))
    (hg : w.store.heap.Grows w'.store.heap) (hf : w.store.heap.FixedBelow w'.store.heap L.atoms)
    (ht : ∀ x ∈ L.atoms, (w'.store.heap.atom x).SameTag (w.store.heap.atom x)) :
    InArray c d L h₁ w' :=
  ⟨.inr ⟨E, hE, hrise, hc⟩, hI.grows.trans hg, hI.fixed.trans hf (.refl _) hI.grows,
    fun x hx => (ht x hx).trans (hI.tags x hx)⟩

/-- `setArrayIndex(i)`: to an element frame rising from the list frame,
with every writable list of the frame grown to cover `i`. -/
theorem InArray.setArrayIndex (hr : Reachable env cs w) (hI : InArray c d L h₁ w)
    (hL : L.arrayElement = false) (hlist : ∀ x ∈ L.atoms, (h₁.atom x).isList) {i : Nat}
    (e : step env cs w (.setArrayIndex c i) = some w') :
    ∃ E : ConfigLevel, E.arrayElement = true ∧ Rises (· < ·) L.atoms E.atoms ∧
      w'.config c = some ((d.push L).push E) ∧ InArray c d L h₁ w' ∧
      ∀ x ∈ L.atoms, Tree.GrownTo i (w'.store.heap.trees x.tree) (w.store.heap.trees x.tree) x.addr := by
  obtain ⟨w₀, e, hheap, hcfg⟩ := step_perform e
  simp only [perform, Option.bind_eq_bind, Option.bind_eq_some, Option.pure_def,
    Option.some.injEq] at e
  obtain ⟨dc, hdc, ⟨d', h'⟩, e, rfl⟩ := e
  have hpop : dc.popElement = some (d.push L) := by
    rcases hI.cursor with hc | ⟨E, hE, -, hc⟩ <;> obtain rfl := Option.some.inj (hdc.symm.trans hc)
    · simp [ConfigPrivate.popElement, hL]
    · simp [ConfigPrivate.popElement, hE]
  obtain ⟨E, rfl, hE, hrise, hg, hf, hgrown⟩ := setArrayIndex_spec
    hr.heapInv.closed (hr.heapInv.configs c dc hdc) hpop (hI.isList hlist) e
  have hc' : w'.config c = some ((d.push L).push E) := by
    rw [hcfg]; exact World.config_setConfig_self hdc
  have hh' : h' = w'.store.heap := hheap.symm
  simp only [ConfigPrivate.push_current, hh'] at hrise hf hg hgrown
  exact ⟨E, hE, hrise, hc', hI.next hE hrise hc' hg hf fun x hx => (hgrown x hx).1, hgrown⟩

/-- `value` or `setValue` on the element: the cursor stays where it is,
and the list frame's atoms, with everything below them, are as they
were. -/
theorem InArray.call (hr : Reachable env cs w) (hI : InArray c d L h₁ w) (hE : E.arrayElement = true)
    (hrise : Rises (· < ·) L.atoms E.atoms) (hc : w.config c = some ((d.push L).push E))
    (call : ElementCall) (e : step env cs w (call.action c) = some w') :
    w'.config c = some ((d.push L).push E) ∧ InArray c d L h₁ w' ∧
      ∀ x ∈ L.atoms, w'.store.heap.atom x = w.store.heap.atom x := by
  obtain ⟨w₀, e, hheap, hcfg⟩ := step_perform e
  have hd := hr.heapInv.configs c _ hc
  have hh := hr.heapInv.closed
  have hL := hI.ok hr
  -- both calls come back to the cursor and rewrite nothing below the element frame
  obtain ⟨hc₀, hg, hf⟩ : w₀.config c = some ((d.push L).push E) ∧
      w.store.heap.Grows w₀.store.heap ∧ w.store.heap.FixedBelow w₀.store.heap E.atoms := by
    cases call with
    | value key dflt flags =>
        simp only [ElementCall.action, perform, Option.bind_eq_bind, Option.bind_eq_some,
          Option.pure_def, Option.some.injEq] at e
        obtain ⟨dc, hdc, ⟨v, d', h'⟩, e, rfl⟩ := e
        obtain rfl := Option.some.inj (hdc.symm.trans hc)
        obtain ⟨rfl, hf⟩ := value_fixedBelow hd hh e
        exact ⟨World.config_setConfig_self hdc, (value_ok hd hh e).grows, hf⟩
    | setValue key v flags =>
        simp only [ElementCall.action, perform, Option.bind_eq_bind, Option.bind_eq_some,
          Option.pure_def, Option.some.injEq] at e
        obtain ⟨dc, hdc, ⟨d', s'⟩, e, rfl⟩ := e
        obtain rfl := Option.some.inj (hdc.symm.trans hc)
        obtain ⟨rfl, hf⟩ := setValue_fixedBelow hd hh e
        exact ⟨World.config_setConfig_self hdc, (setValue_ok hd hh e).1.grows, hf⟩
  rw [← hheap] at hg hf
  have hfix : ∀ x ∈ L.atoms, w'.store.heap.atom x = w.store.heap.atom x := fun x hx =>
    hf x (hL.valid x hx) (hrise.below hL.separate hx)
  have hc' := (hcfg c).trans hc₀
  exact ⟨hc', hI.next hE hrise hc' hg (hf.mono (hrise.mono Nat.le_of_lt))
    (fun x hx => hfix x hx ▸ .refl _), hfix⟩

/-- `endArray()`: back to the cursor `beginArray` started from, the heap
as it was. -/
theorem InArray.endArray (hI : InArray c d L h₁ w) (hL : L.arrayElement = false)
    (e : step env cs w (.endArray c) = some w') : w'.config c = some d ∧ w'.store.heap = w.store.heap := by
  obtain ⟨w₀, e, hheap, hcfg⟩ := step_perform e
  simp only [perform, Option.bind_eq_bind, Option.bind_eq_some, Option.pure_def,
    Option.some.injEq] at e
  obtain ⟨dc, hdc, d', e, rfl⟩ := e
  have hd' : d' = d := by
    rcases hI.cursor with hc | ⟨E, hE, -, hc⟩ <;> obtain rfl := Option.some.inj (hdc.symm.trans hc)
    · simp [QutimConfig.endArray, ConfigPrivate.popElement, ConfigPrivate.push, ConfigPrivate.pop, hL] at e
      exact e.symm
    · simp [QutimConfig.endArray, ConfigPrivate.popElement, ConfigPrivate.push, ConfigPrivate.pop, hL,
        hE] at e
      exact e.symm
  subst hd'
  exact ⟨(hcfg c).trans (World.config_setConfig_self hdc), hheap⟩

/-- The calls on one element keep the invariant and the cursor, and
leave the list frame's atoms as they were. -/
theorem InArray.calls (hE : E.arrayElement = true) (hrise : Rises (· < ·) L.atoms E.atoms) :
    ∀ (calls : List ElementCall) {w w' : World}, Reachable env cs w → InArray c d L h₁ w →
      w.config c = some ((d.push L).push E) → run env cs w (calls.map (ElementCall.action c)) = some w' →
      Reachable env cs w' ∧ w'.config c = some ((d.push L).push E) ∧ InArray c d L h₁ w' ∧
        ∀ x ∈ L.atoms, w'.store.heap.atom x = w.store.heap.atom x
  | [], w, w', hr, hI, hc, e => by
      simp only [List.map_nil, run, Option.some.injEq] at e
      subst e
      exact ⟨hr, hc, hI, fun _ _ => rfl⟩
  | call :: calls, w, w', hr, hI, hc, e => by
      simp only [List.map_cons, run, Option.bind_eq_some] at e
      obtain ⟨w₁, e₁, e₂⟩ := e
      obtain ⟨hc₁, hI₁, hx₁⟩ := hI.call hr hE hrise hc call e₁
      obtain ⟨hr₂, hc₂, hI₂, hx₂⟩ := InArray.calls hE hrise calls (.step _ hr e₁) hI₁ hc₁ e₂
      exact ⟨hr₂, hc₂, hI₂, fun x hx => (hx₂ x hx).trans (hx₁ x hx)⟩

/-- A run of visits keeps the invariant, and the first layer's list,
writable, grows to cover every index visited. -/
theorem InArray.visits (hL : L.arrayElement = false) (hlist : ∀ x ∈ L.atoms, (h₁.atom x).isList)
    {ℓ : Ptr} (hℓ : ℓ ∈ L.atoms) (hw : (h₁.atom ℓ).readOnly = false) :
    ∀ (visits : List (Nat × List ElementCall)) {w w' : World}, Reachable env cs w →
      InArray c d L h₁ w → run env cs w (visitActions c visits) = some w' →
      Reachable env cs w' ∧ InArray c d L h₁ w' ∧
        ((w'.store.heap.trees ℓ.tree).items ℓ.addr).length =
          visitedSize ((w.store.heap.trees ℓ.tree).items ℓ.addr).length visits
  | [], w, w', hr, hI, e => by
      simp only [visitActions, run, Option.some.injEq] at e
      subst e
      exact ⟨hr, hI, rfl⟩
  | (i, calls) :: vs, w, w', hr, hI, e => by
      simp only [visitActions, run, Option.bind_eq_some] at e
      obtain ⟨w₁, e₁, e₂⟩ := e
      rw [run_append, Option.bind_eq_some] at e₂
      obtain ⟨w₂, e₂, e₃⟩ := e₂
      obtain ⟨E, hE, hrise, hc₁, hI₁, hgrown⟩ := hI.setArrayIndex hr hL hlist e₁
      obtain ⟨hr₂, -, hI₂, hx₂⟩ := InArray.calls hE hrise calls (.step _ hr e₁) hI₁ hc₁ e₂
      obtain ⟨hr₃, hI₃, hn₃⟩ := InArray.visits hL hlist hℓ hw vs hr₂ hI₂ e₃
      have hwℓ : ((w.store.heap.trees ℓ.tree).cells ℓ.addr).readOnly = false :=
        (hI.tags ℓ hℓ).2.trans hw
      refine ⟨hr₃, hI₃, ?_⟩
      rw [hn₃, Tree.items_congr (hx₂ ℓ hℓ), (hgrown ℓ hℓ).2 hwℓ]
      rfl

end Visits

-- ================================================== the size reported

/-- In every reachable world, on a cursor whose current level's first
atom is a writable Map, `beginArray(name)` answers `s` and opens a list
frame whose first atom, that layer's List at the path, has `w₀` items;
`s = w₀` when `w₀ > 0`. After any visits (`setArrayIndex(i)` with
`i ≥ 0`, each followed by any `value` and `setValue` calls on the
element) and `endArray()`, the cursor is back where it was, and
`beginArray(name)` opens the same frame, changes nothing, and answers
`s` when no index was set, and otherwise `w₀` grown to cover every index
visited. -/
theorem beginArray_after_visits {env : Env} {cs : CryptoService} {w : World} {c : Nat}
    {d d₁ : ConfigPrivate} {a : Ptr} {name : String} {s : Nat} {h₁ : Heap}
    (hr : Reachable env cs w) (hd : w.config c = some d) (ha : d.current.atoms.head? = some a)
    (hm : (w.store.heap.atom a).isMap) (hw : (w.store.heap.atom a).readOnly = false)
    (e : beginArray name d w.store.heap = some (s, d₁, h₁)) :
    ∃ ℓ w₀, d₁.current.atoms.head? = some ℓ ∧ h₁.arraySize ℓ = some w₀ ∧ (0 < w₀ → s = w₀) ∧
      ∀ (visits : List (Nat × List ElementCall)) (w' : World),
        run env cs w (.beginArray c name :: visitActions c visits ++ [.endArray c]) = some w' →
        w'.config c = some d ∧
          beginArray name d w'.store.heap =
            some (if visits.isEmpty then s else visitedSize w₀ visits, d₁, w'.store.heap) := by
  have hinv := hr.heapInv
  have hok := hinv.configs c d hd
  obtain ⟨as, hat⟩ := List.head?_eq_some_iff.1 ha
  obtain ⟨L, ℓ, rfl, hL, hℓ, hwℓ, hlist, hs⟩ := beginArray_first hok hinv.closed hat hw hm e
  obtain ⟨Ls, hLs⟩ := List.head?_eq_some_iff.1 hℓ
  have hℓL : ℓ ∈ L.atoms := List.mem_of_mem_head? hℓ
  refine ⟨ℓ, _, hℓ, Heap.arraySize_of_isList (hlist ℓ hℓL), fun hpos => ?_, fun visits w' e' => ?_⟩
  · rw [hLs, arraySizeLoop_of_pos (hlist ℓ (hLs ▸ .head _)) hpos] at hs
    exact (Option.some.inj hs).symm
  -- the run: `beginArray`, the visits, `endArray`
  rw [List.cons_append, run, Option.bind_eq_some] at e'
  obtain ⟨w₁, e₁, e'⟩ := e'
  rw [run_append, Option.bind_eq_some] at e'
  obtain ⟨w₂, e₂, e₃⟩ := e'
  simp only [run, Option.bind_eq_some, Option.some.injEq] at e₃
  obtain ⟨w₃, e₃, rfl⟩ := e₃
  obtain ⟨hI₁, hh₁⟩ := InArray.begin hd e e₁
  obtain ⟨-, hI₂, hn₂⟩ := InArray.visits hL hlist hℓL hwℓ visits (.step _ hr e₁) hI₁ e₂
  obtain ⟨hc', hh'⟩ := hI₂.endArray hL e₃
  refine ⟨hc', ?_⟩
  rw [hh', beginArray_replay hok hinv.closed e hI₂.fixed hI₂.tags, ConfigPrivate.push_current]
  cases visits with
  | nil =>
      simp only [visitActions, run, Option.some.injEq] at e₂
      subst e₂
      simp only [hh₁, hs, Option.map_some', List.isEmpty_nil, if_true]
  | cons v vs =>
      rw [hh₁] at hn₂
      rw [hLs, arraySizeLoop_of_pos (hI₂.isList hlist ℓ hℓL)
        (hn₂ ▸ visitedSize_cons_pos _ v vs), hn₂]
      rfl

/-- A fallback tree holding the array `arr = [1, 2, 3]`. -/
def arrayFallback : Variant :=
  .map [("arr", .list [.scalar (.int 1), .scalar (.int 2), .scalar (.int 3)])]

/-- A writable file without `arr` over the fallback: `beginArray("arr")`
answers the fallback's 3 while the first layer's new list is empty. -/
theorem beginArray_after_visits_over_fallback :
    ∃ w, run Env.sample ⟨id, id⟩ (World.init twoWritable) [.construct ["a"] [arrayFallback] none] =
        some w ∧
      ∃ d a s d₁ h₁, w.config 0 = some d ∧ d.current.atoms.head? = some a ∧
        (w.store.heap.atom a).isMap ∧ (w.store.heap.atom a).readOnly = false ∧
        beginArray "arr" d w.store.heap = some (s, d₁, h₁) ∧
        ∃ ℓ w₀, d₁.current.atoms.head? = some ℓ ∧ h₁.arraySize ℓ = some w₀ ∧ (0 < w₀ → s = w₀) ∧
          ∀ (visits : List (Nat × List ElementCall)) (w' : World),
            run Env.sample ⟨id, id⟩ w (.beginArray 0 "arr" :: visitActions 0 visits ++ [.endArray 0]) =
              some w' →
            w'.config 0 = some d ∧
              beginArray "arr" d w'.store.heap =
                some (if visits.isEmpty then s else visitedSize w₀ visits, d₁, w'.store.heap) :=
  ⟨_, rfl, _, _, _, _, _, rfl, rfl, rfl, rfl, rfl,
    beginArray_after_visits (Reachable.run (.init twoWritable) (rfl : run Env.sample ⟨id, id⟩
      (World.init twoWritable) [.construct ["a"] [arrayFallback] none] = _)) rfl rfl rfl rfl rfl⟩

/-- Over the same world, `beginArray("arr")` answers 3; after
`setArrayIndex(0)` and `endArray()` it answers 1, not `max(3, 1)`: the
visit grew the first layer's list, which `arraySize()` now reports. -/
theorem beginArray_after_visit_reports_first_layer :
    ∃ w, run Env.sample ⟨id, id⟩ (World.init twoWritable) [.construct ["a"] [arrayFallback] none] =
        some w ∧
      ∃ d, w.config 0 = some d ∧ (beginArray "arr" d w.store.heap).map (·.1) = some 3 ∧
      ∃ w', run Env.sample ⟨id, id⟩ w [.beginArray 0 "arr", .setArrayIndex 0 0, .endArray 0] = some w' ∧
        w'.config 0 = some d ∧ (beginArray "arr" d w'.store.heap).map (·.1) = some 1 :=
  ⟨_, rfl, _, rfl, rfl, _, rfl, rfl, rfl⟩

end QutimConfig
