/-
What navigation and reads leave in the documents of a cursor's layers
(config.cpp:134-186, 248-269, 605-680, 905-920, 982-993, 1023-1060).
None of these steps lets go of a Source, so the destructors do nothing
(`World.collect_of_collected`).

# Entering a group

`beginGroup(name)` walks the layers with `child(name)` and then
`convert(Map)`: on the first layer, when it is writable, a missing entry
is created and whatever sits at the group path becomes a Map. So the
first document holds a map there afterwards, an empty one where a value
or a list was, while every subtree at a path that parts from the group's
is kept, and no Source is marked dirty (`beginGroup_documents`): the
value is gone from the tree the next save of that Source writes.

# What a read leaves

`value(key)` enters the key's group like `beginGroup`, and its loop
calls `child(name)` on each layer's node there, which inserts a Null
entry into a writable Map that lacks it. So a read may add entries and
turn values into Maps, on lower writable layers too; but each of these
changes lies on the key's path, in the layer's own region
(`valueLoop_changedAlong`): every current layer keeps its subtrees at the
paths that part from the key's, and no Source is marked dirty
(`value_changes_along_key`).

# Entering an array element

`setArrayIndex(i)` calls `child(i)` on the list frame, which on a
writable List appends fresh Null atoms until the index is covered, and
then `convert(Map)` on the element. A region is a forest, so two items
of a list lie apart (`Tree.not_reach_sibling`) and the conversion of one
leaves the others' trees alone (`Tree.materialize_convert_item`). So the
first layer's list document is padded with invalid elements, its element
`i` is made a map, kept where it was one, and nothing else in it changes
(`listWithMapAt`); the cursor's element frame starts at that element,
and no Source is marked dirty (`setArrayIndex_documents`).
-/
import QutimConfig.Proofs.Reads

namespace QutimConfig

-- ================================================ no Source let go

/-- Where every Source is dead or held, the destructors do nothing. -/
theorem World.collect_of_collected {env : Env} {w : World} (hc : Collected w) :
    w.collect env = w := by
  unfold World.collect
  suffices ∀ is : List Nat, (∀ i ∈ is, i < w.store.nsources) → is.foldl (collectOne env) w = w from
    this _ fun _ h => List.mem_range.1 h
  intro is
  induction is with
  | nil => intro _; rfl
  | cons i is ih =>
    intro h
    have hi : w.collectOne env i = w := by
      unfold World.collectOne
      rcases hc i (h i (.head _)) with hf | hh
      · simp [hf]
      · simp [hh]
    rw [List.foldl_cons, hi]
    exact ih fun j hj => h j (.tail _ hj)


-- ================================================= entering a group

/-- `any` over a list with one entry replaced by one `p` sees alike. -/
theorem any_set_of_eq {α : Type} {p : α → Bool} :
    ∀ {l : List α} {c : Nat} {x y : α}, l[c]? = some y → p x = p y → (l.set c x).any p = l.any p
  | [], _, _, _, h, _ => by simp at h
  | z :: l, 0, x, y, h, hp => by
      simp only [List.getElem?_cons_zero, Option.some.injEq] at h
      subst h
      simp [hp]
  | z :: l, c + 1, x, y, h, hp => by
      simp only [List.getElem?_cons_succ] at h
      simp [any_set_of_eq h hp]

/-- A cursor moved over the same Sources holds what it held. -/
theorem World.holds_setConfig {w : World} {c : Nat} {d d' : ConfigPrivate}
    (hd : w.config c = some d) (hs : d'.sources = d.sources) :
    (w.setConfig c d').holds = w.holds := by
  have hc : w.configs[c]? = some (some d) := Option.join_eq_some.1 hd
  funext i
  simp only [World.holds, World.setConfig]
  rw [any_set_of_eq (p := fun c => Option.any (fun d => d.sources.contains i) c) hc (by simp [hs])]

/-- On a shaped region a Map node materialises to a map. -/
theorem Heap.materialize_of_isMap {h : Heap} {b : Ptr} (hs : h.Shaped)
    (hb : b.addr < (h.trees b.tree).next) (hm : (h.atom b).isMap) :
    ∃ m, h.materialize b = .map m := by
  obtain ⟨m, hp⟩ : ∃ m, (h.atom b).payload = .map m := by
    cases hq : (h.atom b).payload <;> simp_all [Atom.isMap, Atom.type, Payload.type]
  obtain ⟨n, hn⟩ := Nat.exists_eq_succ_of_ne_zero (by omega : (h.trees b.tree).next ≠ 0)
  rw [Heap.materialize, Tree.materialize, hn, (hs b.tree).toVariant_map hp]
  exact ⟨_, rfl⟩

/-- What `convert(Map)` leaves of a node's document: a map stays, and
anything else gives way to the empty map. -/
def Variant.asMap : Variant → Variant
  | .map m => .map m
  | _ => .map []

/-- A shaped node with no entries is, made a map, the empty map. -/
theorem Tree.asMap_of_entries_nil {T : Tree} {c : Nat} (hs : T.Shaped) (hc : c < T.next)
    (he : T.entries c = []) : (T.materialize c).asMap = .map [] := by
  obtain ⟨n, hn⟩ := Nat.exists_eq_succ_of_ne_zero (by omega : T.next ≠ 0)
  cases hp : (T.cells c).payload with
  | map m =>
    obtain rfl : m = [] := by simpa [Tree.entries, hp] using he
    simp [materialize, hn, hs.toVariant_map hp, Variant.asMap]
  | value v =>
    have hv := hs c
    rw [hp] at hv
    cases v <;> simp_all [Payload.shaped, materialize, Tree.toVariant, Variant.asMap]
  | list xs => simp [materialize, hn, Tree.toVariant, hp, Variant.asMap]
  | null => simp [materialize, hn, Tree.toVariant, hp, Variant.asMap]

/-- A layer with no Map at a path has, made a map, the empty map there. -/
theorem Heap.asMap_of_barren {h : Heap} {a : Ptr} {p : List String} (hh : h.Closed)
    (hs : h.Shaped) (ha : h.Valid a) (hb : h.Barren a p) :
    (((h.materialize a).subtree p).getD .invalid).asMap = .map [] := by
  rw [Heap.subtree_materialize hh hs ha.2]
  cases e : h.lookup a p with
  | none => rfl
  | some q =>
    have he : (h.trees a.tree).entries q.addr = [] := by
      cases hm : (h.trees a.tree).entries q.addr with
      | nil => rfl
      | cons y m => simpa [Heap.lookup_snoc_of_some e, hm] using hb y.1
    obtain ⟨x, hx, rfl⟩ := Heap.lookup_some e
    exact Tree.asMap_of_entries_nil (hs _) ((Tree.lookup_reach hx).bound (hh _) ha.2).2 he

section Group

variable {env : Env} {cs : CryptoService} {w : World} {c : Nat} {d : ConfigPrivate}

/-- A cursor moved over its own Sources, with a new heap: no Source is
let go, so the destructors do nothing. -/
theorem collect_setConfig_setHeap (hr : Reachable env cs w) (hd : w.config c = some d)
    {d' : ConfigPrivate} (hs : d'.sources = d.sources) (h : Heap) :
    ((w.setConfig c d').setHeap h).collect env = (w.setConfig c d').setHeap h :=
  World.collect_of_collected fun i hi => (hr.collected i hi).imp id fun hh =>
    (congrFun (World.holds_setConfig hd hs) i).trans hh

/-- In every reachable world, `beginGroup(name)` on a cursor whose
current level's first atom is a writable Map, for a name that names a
path, succeeds and changes no Source record and no file: it marks
nothing dirty and saves nothing. Yet the first layer's document now
holds at the group path what was there made a map: the map that was
there, or an empty one where a value, a list or nothing was; and every
current layer keeps its subtrees at the paths that part from the
group's. -/
theorem beginGroup_documents (hr : Reachable env cs w) (hd : w.config c = some d) {a : Ptr}
    (ha : d.current.atoms.head? = some a) (hm : (w.store.heap.atom a).isMap)
    (hw : (w.store.heap.atom a).readOnly = false) {name : String} (hn : parseNames name ≠ []) :
    ∃ w', step env cs w (.beginGroup c name) = some w' ∧
      w'.store.sources = w.store.sources ∧ w'.fs = w.fs ∧
      (w'.store.heap.materialize a).subtree (parseNames name) =
        some ((((w.store.heap.materialize a).subtree (parseNames name)).getD .invalid).asMap) ∧
      ∀ x ∈ d.current.atoms, ∀ q, Tree.Apart q (parseNames name) →
        (w'.store.heap.materialize x).subtree q = (w.store.heap.materialize x).subtree q := by
  have hinv := hr.heapInv
  have hok := hinv.configs c d hd
  obtain ⟨as, hat⟩ := List.head?_eq_some_iff.1 ha
  obtain ⟨l, h', e, -, -, hfl, -⟩ := beginGroup_follows hok hinv.closed hn
  obtain ⟨hcl, -, b, bs, hlb, hsp, hmb, hf⟩ :=
    beginGroup_tracks hok hinv.closed hat hw hm hn List.prefix_rfl e
  have hstep :
      step env cs w (.beginGroup c name) = some ((w.setConfig c (d.push l)).setHeap h') := by
    simp [step, perform, hd, e, collect_setConfig_setHeap hr hd (ConfigPrivate.push_sources d l)]
  have hsh : h'.Shaped := (Reachable.step _ hr hstep).shaped
  have hva : ∀ x ∈ d.current.atoms, w.store.heap.Valid x := hok.current.valid
  have ha' : a.addr < (h'.trees a.tree).next := hsp.changed.lt (hva a (hat ▸ .head _))
  have hva₀ : w.store.heap.Valid a := hva a (hat ▸ .head _)
  refine ⟨_, hstep, rfl, rfl, ?_, fun x hx q hq => ?_⟩
  · rw [World.setHeap, Store.withHeap_heap, Heap.subtree_materialize hcl hsh ha', hsp.lookup,
      Option.map_some']
    have hn' : ((a :: as).map Ptr.tree).Nodup := hat ▸ hok.current.separate
    rw [hat, show l.atoms = b :: bs from hlb] at hfl
    obtain ⟨y, hy, rfl⟩ := Heap.lookup_some hsp.lookup
    obtain ⟨m, hmat⟩ :=
      Heap.materialize_of_isMap hsh ((Tree.lookup_reach hy).bound (hcl _) ha').2 hmb
    rcases hfl.stands_head hn' rfl with ⟨e₀, hr₀⟩ | ⟨hb, -, hhol⟩
    · -- the layer had a node there, and its region is as it was: a Map
      have hsame : h'.materialize ⟨a.tree, y⟩ = w.store.heap.materialize ⟨a.tree, y⟩ := by
        simp only [Heap.materialize, hr₀]
      rw [Heap.subtree_materialize hinv.closed hr.shaped hva₀.2, e₀, Option.map_some',
        Option.getD_some, ← hsame, hmat, Variant.asMap]
    · -- the layer had no Map there: the node carries nothing
      have hempty : (h'.materialize ⟨a.tree, y⟩).asMap = .map [] :=
        Tree.asMap_of_entries_nil (hsh _) ((Tree.lookup_reach hy).bound (hcl _) ha').2
          (Tree.entries_of_hollow hhol)
      rw [Heap.asMap_of_barren hinv.closed hr.shaped hva₀ hb, ← hempty, hmat, Variant.asMap]
  · have hc : w.store.heap.ChangedAlong h' (parseNames name) x := by
      rw [hat] at hx
      rcases List.mem_cons.1 hx with rfl | hx
      · exact hsp.changed
      · exact hf.changed x hx
    exact hc.subtree hinv.closed hr.shaped hcl hsh (hva x hx) hq

/-- Entering the group `k` of `keyFile`, which holds the value `1`,
leaves a map where the value was, and no Source is marked dirty. -/
theorem beginGroup_documents_over_value :
    ∃ w d, run Env.sample ⟨id, id⟩ (World.init keyFile) [.construct ["a"] [] none] = some w ∧
      w.config 0 = some d ∧ d.current.atoms.head? = some ⟨0, 0⟩ ∧
      (w.store.heap.atom ⟨0, 0⟩).isMap ∧ (w.store.heap.atom ⟨0, 0⟩).readOnly = false ∧
      parseNames "k" ≠ [] ∧
      (w.store.heap.materialize ⟨0, 0⟩).subtree (parseNames "k") = some (.scalar (.int 1)) ∧
      ∃ w', step Env.sample ⟨id, id⟩ w (.beginGroup 0 "k") = some w' ∧
        w'.store.sources = w.store.sources ∧ w'.fs = w.fs ∧
        (w'.store.heap.materialize ⟨0, 0⟩).subtree (parseNames "k") =
          some ((((w.store.heap.materialize ⟨0, 0⟩).subtree (parseNames "k")).getD
            .invalid).asMap) ∧
        ∀ x ∈ d.current.atoms, ∀ q, Tree.Apart q (parseNames "k") →
          (w'.store.heap.materialize x).subtree q = (w.store.heap.materialize x).subtree q :=
  ⟨_, _, rfl, rfl, rfl, by decide, by decide, by decide, by decide,
    beginGroup_documents (c := 0) (Reachable.run (.init keyFile) (rfl : run Env.sample ⟨id, id⟩
      (World.init keyFile) [.construct ["a"] [] none] = _)) rfl rfl (by decide) (by decide)
      (by decide)⟩

end Group

-- ================================================= what a read leaves

section ReadFrame

variable {h₀ : Heap} {P s : List String}

/-- The loop of `Config::value` rewrites the regions of its atoms only. -/
theorem valueLoop_trees {name : String} :
    ∀ {bs : List Ptr} {var r : Variant} {h h' : Heap}, valueLoop name bs var h = some (r, h') →
      ∀ t, t ∉ bs.map Ptr.tree → h'.trees t = h.trees t
  | [], _, _, _, _, e, _, _ => by
      simp only [valueLoop, Option.some.injEq, Prod.mk.injEq] at e
      rw [e.2]
  | b :: bs, var, r, h, h', e, t, ht => by
      simp only [valueLoop, Option.bind_eq_bind] at e
      split_ifs at e
      obtain ⟨⟨rc, h₂⟩, e₁, e₂⟩ := Option.bind_eq_some.1 e
      have h₁ : h₂.trees t = h.trees t := by
        simp only [Heap.child, Option.map_eq_some', Prod.mk.injEq] at e₁
        obtain ⟨_, -, -, rfl⟩ := e₁
        exact Heap.update_trees_ne _ _ fun e => ht (e ▸ List.mem_cons_self _ _)
      dsimp only at e₂
      split_ifs at e₂
      · rw [valueLoop_trees e₂ t fun hm => ht (List.mem_cons_of_mem _ hm), h₁]
      · simp only [Option.pure_def, Option.some.injEq, Prod.mk.injEq] at e₂
        rw [← e₂.2, h₁]

/-- The loop of `Config::value` over the layers' nodes at `s`, for the
leaf `name` with `s ++ [name] = P`: its `child(name)` calls change every
layer along `P` only. -/
theorem valueLoop_changedAlong {name : String} (hP : s ++ [name] = P) :
    ∀ {as bs : List Ptr} {var r : Variant} {h₁ h₂ : Heap}, Tracks h₀ h₁ P s as bs → h₁.Closed →
      (∀ x ∈ as, h₀.Valid x) → (as.map Ptr.tree).Nodup → (∀ b ∈ bs, h₁.Valid b) →
      valueLoop name bs var h₁ = some (r, h₂) → ∀ x ∈ as, h₀.ChangedAlong h₂ P x
  | [], _, _, _, _, _, .nil, _, _, _, _, _ => fun x hx => absurd hx (List.not_mem_nil _)
  | a :: as, bs, var, r, h₁, h₂, .drop hc hf, hh, hva, hn, hv, e => by
      have ih := valueLoop_changedAlong hP hf hh (fun x hx => hva x (.tail _ hx))
        (List.nodup_cons.1 hn).2 hv e
      have hfr : h₂.trees a.tree = h₁.trees a.tree :=
        valueLoop_trees e a.tree fun hm => (List.nodup_cons.1 hn).1 (hf.sub.subset hm)
      intro x hx
      rcases List.mem_cons.1 hx with rfl | hx
      · exact hc.frame hfr
      · exact ih x hx
  | a :: as, b :: bs, var, r, h₁, h₂, .keep hc hl hf, hh, hva, hn, hv, e => by
      have hvb := hv b (.head _)
      have hmb : (h₁.atom b).isMap := by
        by_contra hm
        simp [valueLoop, hm] at e
      simp only [valueLoop, hmb, Bool.not_true, Bool.false_eq_true, if_false, Option.bind_eq_bind,
        Option.bind_eq_some] at e
      obtain ⟨⟨rc, h'⟩, e₁, e₂⟩ := e
      have loc := (Heap.child_local hh hvb e₁).1
      have hab : b.tree = a.tree := Heap.lookup_tree hl
      have hca : h₀.ChangedAlong h' P a :=
        (hc.child hl (hva a (.head _)) hh (hP ▸ List.prefix_refl _) (fun _ => hmb) e₁).1
      have hother : ∀ x ∈ as, h'.trees x.tree = h₁.trees x.tree := fun x hx =>
        loc.frame _ (by rw [hab]; exact (not_mem_of_nodup hn x hx).symm)
      have hf' : Tracks h₀ h' P s as bs := hf.frame hother
      dsimp only at e₂
      split_ifs at e₂
      · have ih := valueLoop_changedAlong hP hf' loc.closed (fun x hx => hva x (.tail _ hx))
          (List.nodup_cons.1 hn).2 (fun c hc => (hv c (.tail _ hc)).grow loc.grows) e₂
        have hfr : h₂.trees a.tree = h'.trees a.tree :=
          valueLoop_trees e₂ a.tree fun hm => (List.nodup_cons.1 hn).1 (hf.sub.subset hm)
        intro x hx
        rcases List.mem_cons.1 hx with rfl | hx
        · exact hca.frame hfr
        · exact ih x hx
      · simp only [Option.pure_def, Option.some.injEq, Prod.mk.injEq] at e₂
        obtain ⟨-, rfl⟩ := e₂
        intro x hx
        rcases List.mem_cons.1 hx with rfl | hx
        · exact hca
        · exact (hf.changed x hx).frame (hother x hx)

variable {env : Env} {cs : CryptoService} {w : World} {c : Nat} {d : ConfigPrivate}

/-- `Config::value` from a level whose first atom is a writable Map, on a
key whose group part names a path (every atom a Map when it has none):
it succeeds, comes back to the cursor, and every layer's region changes
along the key's path only. -/
theorem value_changedAlong {h : Heap} {a : Ptr} {as : List Ptr} {key : String} (hok : d.OK h)
    (hh : h.Closed) (hat : d.current.atoms = a :: as) (hw : (h.atom a).readOnly = false)
    (hma : (h.atom a).isMap) (hmap : slashIndex key = -1 → ∀ x ∈ d.current.atoms, (h.atom x).isMap)
    (hkey : slashIndex key = -1 ∨ parseNames (keyGroup key) ≠ []) (dflt : Variant)
    (flags : ValueFlags) :
    ∃ r h', value cs key dflt flags d h = some (r, d, h') ∧
      ∀ x ∈ d.current.atoms, h.ChangedAlong h' (keyPath key) x := by
  obtain ⟨d₁, h₁, b, bs, e₁, hleave, hcl₁, hb, hsp, -, hf⟩ := enterKey_spine hok hh hat hw hma hkey
  obtain ⟨d₁', h₁', e₁', -, -, hfo, hv₁⟩ := enterKey_follows hok hh hmap hkey
  obtain ⟨rfl, rfl⟩ := Prod.mk.inj (Option.some.inj (e₁'.symm.trans e₁))
  obtain ⟨r, h₂, eloop, -⟩ := valueLoop_follows (keyName key) hfo hcl₁ hv₁ hok.current.separate
    (rfl : Variant.invalid.isNull = true)
  have hne : d.current.atoms ≠ [] := by rw [hat]; exact List.cons_ne_nil _ _
  have hch := valueLoop_changedAlong (keyPath_eq key).symm (.keep hsp.changed hsp.lookup hf) hcl₁
    (hat ▸ hok.current.valid) (hat ▸ hok.current.separate) (hb ▸ fun y hy => (hv₁ y hy).1) (hb ▸ eloop)
  refine ⟨if r.isNull then dflt else if flags.crypted then cs.decrypt r else r, h₂, ?_,
    fun x hx => hch x (hat ▸ hx)⟩
  simp [value, hne, e₁, eloop, hleave]

/-- In every reachable world, on a cursor whose current atoms are all
Maps and whose first one is writable, `value(key)`, for a key with no
`/` or whose group part names a path, succeeds, leaves the cursor where
it was, and changes no Source record and no file; and whatever it
inserts or converts on its way, every current layer keeps its subtree at
every path that parts from the key's. -/
theorem value_changes_along_key (hr : Reachable env cs w) (hd : w.config c = some d) {a : Ptr}
    (ha : d.current.atoms.head? = some a) (hw : (w.store.heap.atom a).readOnly = false)
    (hmap : ∀ x ∈ d.current.atoms, (w.store.heap.atom x).isMap) {key : String}
    (hkey : slashIndex key = -1 ∨ parseNames (keyGroup key) ≠ []) (dflt : Variant)
    (flags : ValueFlags) :
    ∃ w', step env cs w (.value c key dflt flags) = some w' ∧ w'.config c = some d ∧
      w'.store.sources = w.store.sources ∧ w'.fs = w.fs ∧
      ∀ x ∈ d.current.atoms, ∀ q, Tree.Apart q (keyPath key) →
        (w'.store.heap.materialize x).subtree q = (w.store.heap.materialize x).subtree q := by
  have hinv := hr.heapInv
  have hok := hinv.configs c d hd
  obtain ⟨as, hat⟩ := List.head?_eq_some_iff.1 ha
  obtain ⟨r, h₂, hval, hch⟩ : ∃ r h', value cs key dflt flags d w.store.heap = some (r, d, h') ∧ _ :=
    value_changedAlong hok hinv.closed hat hw (hmap a (hat ▸ .head _)) (fun _ => hmap) hkey dflt flags
  have hstep : step env cs w (.value c key dflt flags) = some ((w.setConfig c d).setHeap h₂) := by
    simp [step, perform, hd, hval, collect_setConfig_setHeap hr hd rfl]
  have hr' := Reachable.step _ hr hstep
  refine ⟨_, hstep, World.config_setConfig_self hd, rfl, rfl, fun x hx q hq => ?_⟩
  exact (hch x hx).subtree hinv.closed hr.shaped hr'.heapInv.closed hr'.shaped
    (hok.current.valid x hx) hq

/-- Reading `g/z` over `writableGroupFile` keeps every subtree apart
from `g/z`. -/
theorem value_changes_along_key_group :
    ∃ w d, run Env.sample ⟨id, id⟩ (World.init writableGroupFile) [.construct ["a"] [] none] =
        some w ∧ w.config 0 = some d ∧ d.current.atoms.head? = some ⟨0, 0⟩ ∧
      (w.store.heap.atom ⟨0, 0⟩).readOnly = false ∧
      (∀ x ∈ d.current.atoms, (w.store.heap.atom x).isMap) ∧
      (slashIndex "g/z" = -1 ∨ parseNames (keyGroup "g/z") ≠ []) ∧
      ∃ w', step Env.sample ⟨id, id⟩ w (.value 0 "g/z" .invalid ⟨false⟩) = some w' ∧
        w'.config 0 = some d ∧ w'.store.sources = w.store.sources ∧ w'.fs = w.fs ∧
        ∀ x ∈ d.current.atoms, ∀ q, Tree.Apart q (keyPath "g/z") →
          (w'.store.heap.materialize x).subtree q = (w.store.heap.materialize x).subtree q :=
  ⟨_, _, rfl, rfl, rfl, by decide, by decide, .inr (by decide),
    value_changes_along_key (c := 0) (Reachable.run (.init writableGroupFile)
      (rfl : run Env.sample ⟨id, id⟩ (World.init writableGroupFile) [.construct ["a"] [] none] = _))
      rfl rfl (by decide) (by decide) (.inr (by decide)) _ _⟩

end ReadFrame

-- ========================================= entering an array element

/-- What `setArrayIndex(i)` makes of a writable list's document: padded
with invalid elements to cover `i`, with its element `i` made a map. -/
def listWithMapAt (xs : List Variant) (i : Nat) : List Variant :=
  (xs ++ List.replicate (i + 1 - xs.length) Variant.invalid).modify Variant.asMap i

namespace Tree

variable {T T' : Tree} {a c x : Nat}

/-- A List node materialises to the list of its items' trees. -/
theorem materialize_list (hT : T.Closed) (ha : a < T.next) {xs : List Nat}
    (hp : (T.cells a).payload = .list xs) : T.materialize a = .list (xs.map T.materialize) := by
  obtain ⟨n, hn⟩ := Nat.exists_eq_succ_of_ne_zero (by omega : T.next ≠ 0)
  have hfuel : ∀ b ∈ xs, T.toVariant n b = T.materialize b := fun b hb => by
    have hab := hT.above a ha b (by rw [hp]; exact hb)
    exact toVariant_fuel hT (hT.bound a ha b (by rw [hp]; exact hb)) (by omega) (by omega)
  rw [materialize, hn]
  simp only [toVariant, hp, List.map_congr_left hfuel]

/-- A child keeps its materialised tree through writes that leave the
cells of the region, its parent's apart, as they were. -/
theorem materialize_child_of_frame (hT : T.Closed) (ha : a < T.next)
    (hc : c ∈ (T.cells a).payload.children) (hn : T.next ≤ T'.next)
    (hframe : ∀ b < T.next, b ≠ a → T'.cells b = T.cells b) :
    T'.materialize c = T.materialize c := by
  have hcn := hT.bound a ha c hc
  exact materialize_congr hT hcn hn fun b hb => hframe b (hb.bound hT hcn).2
    (Nat.ne_of_gt (lt_of_lt_of_le (hT.above a ha c hc) (hb.bound hT hcn).1))

/-- Two children of one node lie apart: neither is below the other. -/
theorem not_reach_sibling (hT : T.Closed) (ha : a < T.next) (hc : c ∈ (T.cells a).payload.children)
    (hx : x ∈ (T.cells a).payload.children) (hne : x ≠ c) : ¬T.Reach x c := by
  intro h
  cases h with
  | refl => exact hne rfl
  | child hb hcb =>
      have hxb := hb.bound hT (hT.bound a ha x hx)
      obtain rfl := hT.parent a ha _ hxb.2 c hc hcb
      have := hT.above a ha x hx
      omega

theorem grow_items_length (ro : Bool) : ∀ (n : Nat) (T : Tree),
    ((grow a ro n T).items a).length = (T.items a).length + n
  | 0, _ => rfl
  | n + 1, T => by
      simp only [grow, grow_items_length ro n, items_setPayload_list, List.length_append,
        List.length_singleton]
      omega

/-- One round of the growth loop appends a Null element to the list's
document. -/
theorem materialize_appendFresh (hT : T.Closed) (ha : a < T.next) (ro : Bool) :
    (T.items a ++ [T.next]).map
        ((T.alloc (Atom.create ro)).1.setPayload a (.list (T.items a ++ [T.next]))).materialize =
      (T.items a).map T.materialize ++ [.invalid] := by
  have hframe := frame_round (a := a)
    (fun b hb => alloc_cells_ne T (Atom.create ro) (Nat.ne_of_lt hb))
    (.list (T.items a ++ [T.next]))
  rw [List.map_append, List.map_congr_left fun b hb =>
    materialize_child_of_frame hT ha (mem_children_of_items hb) (by simp) hframe]
  simp [materialize, toVariant, Atom.create, setPayload_cells_ne _ _ (Nat.ne_of_gt ha)]

/-- The growth loop appends `n` Null elements to a list's document. -/
theorem materialize_grow (ro : Bool) : ∀ (n : Nat) {T : Tree}, T.Closed → a < T.next →
    (T.cells a).readOnly = ro →
    ((grow a ro n T).items a).map (grow a ro n T).materialize =
      (T.items a).map T.materialize ++ List.replicate n .invalid
  | 0, _, _, _, _ => by simp [grow]
  | n + 1, T, hT, ha, hro => by
      have hcell : (T.alloc (Atom.create ro)).1.cells a = T.cells a := alloc_cells_ne _ _ (by omega)
      simp only [grow, alloc_addr]
      rw [materialize_grow ro n (hT.appendFresh ha hro) (by simp; omega) (by simp [hcell, hro]),
        items_setPayload_list, materialize_appendFresh hT ha ro, List.append_assoc,
        List.singleton_append, List.replicate_succ]

/-- `convert(Map)` on a node of a shaped region leaves `asMap` of its
document. -/
theorem materialize_convert_self (hs : T.Shaped) (hc : c < T.next) :
    (T.convert c .map).materialize c = (T.materialize c).asMap := by
  obtain ⟨n, hn⟩ := Nat.exists_eq_succ_of_ne_zero (by omega : T.next ≠ 0)
  cases hm : (T.cells c).isMap
  · have hsc := hs c
    simp only [materialize, convert_next, hn, toVariant, convert_map_of_not_isMap hm,
      List.foldl_nil]
    cases hp : (T.cells c).payload with
    | value v => cases v <;> simp_all [Payload.shaped, Variant.asMap]
    | _ => simp_all [Variant.asMap, Atom.isMap, Atom.type, Payload.type]
  · obtain ⟨m, hp⟩ : ∃ m, (T.cells c).payload = .map m := by
      cases hq : (T.cells c).payload <;> simp_all [Atom.isMap, Atom.type, Payload.type]
    simp [convert_map_of_isMap hm, materialize, hn, toVariant, hp, Variant.asMap]

/-- `convert(Map)` on item `i` of a List node: the list's document has
its element `i` made a map and keeps every other. -/
theorem materialize_convert_item (hT : T.Closed) (hs : T.Shaped) (ha : a < T.next)
    {xs : List Nat} {i : Nat} (hp : (T.cells a).payload = .list xs) (hc : xs[i]? = some c) :
    (T.convert c .map).materialize a = .list ((xs.map T.materialize).modify Variant.asMap i) := by
  have hmem : ∀ {y}, y ∈ xs → y ∈ (T.cells a).payload.children := fun hy => by
    rw [hp]; exact hy
  have hcx := hmem (List.mem_iff_getElem?.2 ⟨i, hc⟩)
  have hcn := hT.bound a ha c hcx
  have hp' : ((T.convert c .map).cells a).payload = .list xs := by
    rw [convert_map_cells_ne (Nat.ne_of_lt (hT.above a ha c hcx)), hp]
  rw [materialize_list (hT.convert hcn .map) (by simpa using ha) hp']
  congr 1
  refine List.ext_getElem? fun j => ?_
  simp only [List.getElem?_map, List.getElem?_modify]
  cases hj : xs[j]? with
  | none => rfl
  | some y =>
      simp only [Option.map_some', Functor.map, Option.map]
      by_cases hij : i = j
      · subst hij
        obtain rfl : y = c := Option.some.inj (hj.symm.trans hc)
        simp [materialize_convert_self hs hcn]
      · have hyx := hmem (List.mem_iff_getElem?.2 ⟨j, hj⟩)
        have hyc : y ≠ c := fun e => hij (List.getElem?_inj (List.getElem?_eq_some_iff.1 hc).1
          (by simpa [items, hp] using hT.nodup_items ha) (hc.trans (e ▸ hj).symm))
        rw [if_neg hij]
        exact congrArg some (materialize_congr hT (hT.bound a ha y hyx) (by simp) fun b hb =>
          convert_map_cells_ne fun e => not_reach_sibling hT ha hcx hyx hyc (e ▸ hb))

theorem payload_of_isList (h : (T.cells a).isList) : (T.cells a).payload = .list (T.items a) := by
  unfold items
  cases hp : (T.cells a).payload <;> simp_all [Atom.isList, Atom.type, Payload.type]

/-- `child(index)`, at an index `≥ 0`, on a node that is writable or a
List, does not assert: the growth loop covers the index. -/
theorem childAt_isSome (index : Nat) (h : ¬((T.cells a).readOnly && !(T.cells a).isList) = true) :
    ∃ r, T.childAt a index = some r := by
  unfold childAt
  dsimp only
  rw [if_neg h]
  split_ifs with h₁ h₂
  · exact ⟨_, rfl⟩
  · omega
  · rw [Int.toNat_ofNat, List.getElem?_eq_getElem (by rw [grow_items_length]; omega)]
    exact ⟨_, rfl⟩

/-- `child(index)` then `convert(Map)` on a writable List node, at an
index `≥ 0`: the element is a writable node, the list's document becomes
`listWithMapAt` of what it was, and its element at the index is the
converted node's document. -/
theorem materialize_childAt_convert (hT : T.Closed) (hs : T.Shaped) (ha : a < T.next)
    (hl : (T.cells a).isList) (hw : (T.cells a).readOnly = false) {index : Nat} {r : Option Nat}
    (e : T.childAt a index = some (r, T')) :
    ∃ c, r = some c ∧ (T'.cells c).readOnly = false ∧
      (T'.convert c .map).materialize a =
        .list (listWithMapAt ((T.items a).map T.materialize) index) ∧
      (listWithMapAt ((T.items a).map T.materialize) index)[index]? =
        some ((T'.convert c .map).materialize c) := by
  have hneg : ¬(index : Int) < 0 := by omega
  have hn : (↑index + 1 - ↑(T.items a).length : Int).toNat = index + 1 - (T.items a).length := by
    omega
  unfold childAt at e
  simp only [ensureList_of_isList hl, hw, hl, Bool.false_and, Bool.false_eq_true, if_false,
    Int.toNat_ofNat, hn, hneg] at e
  set G := grow a false (index + 1 - (T.items a).length) T
  obtain ⟨hG, hGn⟩ : G.Closed ∧ T.next ≤ G.next := Closed.grow false _ hT ha hw
  obtain ⟨hsame, -⟩ := grow_spec false (index + 1 - (T.items a).length) ha hl
  have hidx : index < (G.items a).length := by
    rw [grow_items_length]; omega
  rw [List.getElem?_eq_getElem hidx] at e
  obtain ⟨rfl, rfl⟩ := Prod.mk.inj (Option.some.inj e)
  have hga : a < G.next := by omega
  have hGp : (G.cells a).payload = .list (G.items a) :=
    payload_of_isList (by simpa [Atom.isList, hsame.1] using hl)
  have hc := mem_children_of_items (List.getElem_mem hidx)
  have hmat : (G.convert (G.items a)[index] .map).materialize a =
      .list (listWithMapAt ((T.items a).map T.materialize) index) := by
    rw [materialize_convert_item hG (hs.grow false _) hga hGp (List.getElem?_eq_getElem hidx),
      materialize_grow false _ hT ha hw, listWithMapAt, List.length_map]
  refine ⟨_, rfl, by rw [hG.readOnly a hga _ hc, hsame.2, hw], hmat, ?_⟩
  have hlist := materialize_list (hG.convert (hG.bound a hga _ hc) .map) (by simpa using hga)
    (by rw [convert_map_cells_ne (Nat.ne_of_lt (hG.above a hga _ hc)), hGp])
  rw [Variant.list.inj (hmat.symm.trans hlist), List.getElem?_map, List.getElem?_eq_getElem hidx]
  rfl

end Tree

section ArrayElement

/-- `ConfigAtom::child(index)`, at an index `≥ 0`, never asserts under
`ConfigLevel::map`. -/
theorem childAtCallback_total (index : Nat) : CallbackTotal (childAtCallback index) := by
  intro a ro h hro
  unfold childAtCallback
  split_ifs with hc
  · exact ⟨_, rfl⟩
  · have : ¬(((h.trees a.tree).cells a.addr).readOnly &&
        !((h.trees a.tree).cells a.addr).isList) = true := fun hx => hc (by
      simp only [Bool.and_eq_true, Bool.not_eq_true'] at hx ⊢
      exact ⟨hro hx.1, hx.2⟩)
    obtain ⟨r, e⟩ := Tree.childAt_isSome index this
    exact ⟨(r.1.map (Ptr.mk a.tree), h.update a.tree r.2), by simp [Heap.childAt, e]⟩

/-- `ConfigLevel::child(index)`, at an index `≥ 0`, on a level whose first
atom `ℓ` is writable: it answers, the new level starts with the element
that `child(index)` answers on `ℓ`'s node, and `ℓ`'s region holds what
that call left. -/
theorem childAt_first {l : ConfigLevel} {h : Heap} {ℓ : Ptr} {rest : List Ptr} (hh : h.Closed)
    (hl : l.OK h) (hat : l.atoms = ℓ :: rest) (hw : (h.atom ℓ).readOnly = false) {index : Nat}
    {c : Nat} {G : Tree} (eG : (h.trees ℓ.tree).childAt ℓ.addr index = some (some c, G)) :
    ∃ l' h' rs, l.childAt index h = some (l', h') ∧ l'.atoms = ⟨ℓ.tree, c⟩ :: rs ∧
      h'.trees ℓ.tree = G := by
  have e₁ : h.childAt ℓ index = some (some ⟨ℓ.tree, c⟩, h.update ℓ.tree G) := by
    simp [Heap.childAt, eG]
  have hv : ∀ x ∈ ℓ :: rest, h.Valid x := hat ▸ hl.valid
  have hn : ((ℓ :: rest).map Ptr.tree).Nodup := hat ▸ hl.separate
  have hloc := (Heap.childAt_local hh (hv ℓ (.head _)) e₁).1
  obtain ⟨⟨rs, h₂⟩, e₂⟩ :=
    mapAtoms_total (childAtCallback_total index) rest false (h.update ℓ.tree G)
  have hfr := (mapAtoms_ok (childAtCallback_ok index) rest false hloc.closed
    (fun x hx => (hv x (.tail _ hx)).grow hloc.grows) e₂).2.2.1 ℓ.tree (List.nodup_cons.1 hn).1
  refine ⟨⟨⟨ℓ.tree, c⟩ :: rs, false⟩, h₂, rs, ?_, rfl, by rw [hfr]; simp⟩
  simp [ConfigLevel.childAt, ConfigLevel.map, hat, mapAtoms, childAtCallback, hw, e₁, e₂]

variable {env : Env} {cs : CryptoService} {w : World} {c : Nat} {d : ConfigPrivate}

/-- In every reachable world, `setArrayIndex(i)` on a cursor whose list
frame starts with a writable List, at an index `≥ 0`, succeeds and
changes no Source record and no file; and the first layer's list
document is padded with invalid elements to cover `i`, has its element
`i` made a map (kept where it was one, emptied otherwise), and keeps
every other element. -/
theorem setArrayIndex_documents (hr : Reachable env cs w) (hd : w.config c = some d)
    {d₁ : ConfigPrivate} (hpop : d.popElement = some d₁) {ℓ : Ptr}
    (hℓ : d₁.current.atoms.head? = some ℓ) (hl : (w.store.heap.atom ℓ).isList)
    (hw : (w.store.heap.atom ℓ).readOnly = false) (index : Nat) :
    ∃ w', step env cs w (.setArrayIndex c index) = some w' ∧
      w'.store.sources = w.store.sources ∧ w'.fs = w.fs ∧
      ∃ xs, w.store.heap.materialize ℓ = .list xs ∧
        w'.store.heap.materialize ℓ = .list (listWithMapAt xs index) ∧
        ∃ E p, w'.config c = some (d₁.push E) ∧ E.arrayElement = true ∧ E.atoms.head? = some p ∧
          (listWithMapAt xs index)[index]? = some (w'.store.heap.materialize p) := by
  have hinv := hr.heapInv
  have hok := popElement_ok (hinv.configs c d hd) hpop
  obtain ⟨rest, hat⟩ := List.head?_eq_some_iff.1 hℓ
  have hvℓ : w.store.heap.Valid ℓ := hok.current.valid ℓ (hat ▸ .head _)
  obtain ⟨⟨r, G⟩, eG⟩ := Tree.childAt_isSome (T := w.store.heap.trees ℓ.tree) (a := ℓ.addr) index
    (by simp [Heap.atom] at hw; simp [hw])
  obtain ⟨e, rfl, hro, hmat, hel⟩ :=
    Tree.materialize_childAt_convert (hinv.closed ℓ.tree) (hr.shaped ℓ.tree) hvℓ.2 hl hw eG
  obtain ⟨l₁, h₁, rs, e₁, hat₁, ht₁⟩ := childAt_first hinv.closed hok.current hat hw eG
  have s₁ := ConfigLevel.map_step (childAtCallback_ok index) hok.current hinv.closed e₁
  obtain ⟨⟨ys, h₂⟩, e₂⟩ := mapAtoms_total (convertCallback_total .map) l₁.atoms true h₁
  have e₂' : l₁.convert .map h₁ = some (⟨ys, false⟩, h₂) := by
    simp [ConfigLevel.convert, ConfigLevel.map, e₂]
  obtain ⟨hhead, -, ht₂⟩ :=
    convert_first s₁.closed s₁.ok hat₁ (by simpa [Heap.atom, ht₁] using hro) e₂'
  have hs : (d₁.push ⟨ys, true⟩).sources = d.sources :=
    (ConfigPrivate.push_sources _ _).trans (ConfigPrivate.popElement_sources hpop)
  have hstep : step env cs w (.setArrayIndex c index) =
      some ((w.setConfig c (d₁.push ⟨ys, true⟩)).setHeap h₂) := by
    simp [step, perform, hd, setArrayIndex, hpop, hℓ, hl, e₁, e₂',
      collect_setConfig_setHeap hr hd hs]
  have hmat₂ : ∀ q, h₂.materialize ⟨ℓ.tree, q⟩ = (G.convert e .map).materialize q := by
    simp [Heap.materialize, ht₂, ht₁]
  exact ⟨_, hstep, rfl, rfl, _,
    Tree.materialize_list (hinv.closed ℓ.tree) hvℓ.2 (Tree.payload_of_isList hl),
    (hmat₂ ℓ.addr).trans hmat, ⟨ys, true⟩, _, World.config_setConfig_self hd, rfl, hhead,
    hel.trans (congrArg some (hmat₂ e).symm)⟩

/-- Setting index 3 of the list `g = [1, {}]` of `listProfile` leaves
`[1, {}, invalid, {}]`. -/
theorem setArrayIndex_documents_listProfile :
    ∃ w d, run Env.sample ⟨id, id⟩ (World.init listProfile)
        [.construct ["a"] [] none, .beginArray 0 "g"] = some w ∧
      w.config 0 = some d ∧ d.popElement = some d ∧ d.current.atoms.head? = some ⟨0, 1⟩ ∧
      (w.store.heap.atom ⟨0, 1⟩).isList ∧ (w.store.heap.atom ⟨0, 1⟩).readOnly = false ∧
      w.store.heap.materialize ⟨0, 1⟩ = .list [.scalar (.int 1), .map []] ∧
      listWithMapAt [.scalar (.int 1), .map []] 3 = [.scalar (.int 1), .map [], .invalid, .map []] ∧
      ∃ w', step Env.sample ⟨id, id⟩ w (.setArrayIndex 0 (3 : Nat)) = some w' ∧
        w'.store.sources = w.store.sources ∧ w'.fs = w.fs ∧
        ∃ xs, w.store.heap.materialize ⟨0, 1⟩ = .list xs ∧
          w'.store.heap.materialize ⟨0, 1⟩ = .list (listWithMapAt xs 3) ∧
          ∃ E p, w'.config 0 = some (d.push E) ∧ E.arrayElement = true ∧ E.atoms.head? = some p ∧
            (listWithMapAt xs 3)[3]? = some (w'.store.heap.materialize p) :=
  ⟨_, _, rfl, rfl, rfl, rfl, by decide, by decide, rfl, rfl,
    setArrayIndex_documents (c := 0) (Reachable.run (.init listProfile)
      (rfl : run Env.sample ⟨id, id⟩ (World.init listProfile)
        [.construct ["a"] [] none, .beginArray 0 "g"] = _)) rfl rfl rfl (by decide) (by decide) 3⟩

end ArrayElement

end QutimConfig
