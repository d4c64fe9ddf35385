/-
Writing back what was read: `setValue(k, value(k))` (config.cpp:1023-1086).

`Config::setValue` marks the first Source dirty when
`ConfigAtom::replace` stored something, that is when the first layer's
node under the key was missing or `QVariant::operator==` finds its tree
unequal to the new one (config.cpp:234-246, Compare.lean).
`Config::value` reads through every layer and answers the default for a
null. So the write-back leaves the Sources alone when the first layer
already holds what `value` answered:

- the first layer answers the key with a value that holds no NaN:
  `value` leaves that layer's region as it was, and `replace` finds the
  same tree, equal to itself (`Variant.cmp_self`);
- no layer answers and the first layer has at most a Null at the key:
  `value` leaves a Null there, and the invalid default is stored as a
  Null, which `replace` finds equal.

It marks the first Source when a lower layer answers (the first layer
gets the value), when the first layer holds a null scalar (`value`
answers the default, another tree), or when it holds a NaN, which
equals nothing.

The navigation of both calls is read through the simulation of
Layers.lean: the first atom of the level entered stands for the first
layer (`Follows.stands_head`), so a layer that has the key's group path
keeps its region (`enterKey_first`).
-/
import QutimConfig.Proofs.Write
import QutimConfig.Proofs.Outline

namespace QutimConfig

open Heap

-- ======================================== the first layer, navigated

section Navigation

variable {h h' : Heap} {p : List String} {a b : Ptr}

/-- A layer with a writable node at a non-empty path is a writable Map
at its root. -/
theorem root_of_lookup (hh : h.Closed) (ha : h.Valid a) {n : String} {q : Ptr}
    (hq : h.lookup a (p ++ [n]) = some q) (hw : (h.atom q).readOnly = false) :
    (h.atom a).isMap ∧ (h.atom a).readOnly = false := by
  obtain ⟨x, hx, rfl⟩ := lookup_some hq
  refine ⟨?_, ?_⟩
  · cases p with
    | nil =>
        simp only [List.nil_append, Tree.lookup, Option.bind_eq_some] at hx
        obtain ⟨c, hc, -⟩ := hx
        exact Tree.isMap_of_lookup hc
    | cons m ms =>
        simp only [List.cons_append, Tree.lookup, Option.bind_eq_some] at hx
        obtain ⟨c, hc, -⟩ := hx
        exact Tree.isMap_of_lookup hc
  · show ((h.trees a.tree).cells a.addr).readOnly = false
    rw [← (Tree.lookup_reach hx).readOnly (hh _) ha.2]
    exact hw

end Navigation

-- ============================================================ the read

section Read

variable {cs : CryptoService} {key : String} {d d' : ConfigPrivate} {h h' : Heap} {a : Ptr}
  {as : List Ptr}

/-- After the value loop's first pass, the rest of the loop reads other
layers and leaves the first atom's region alone. -/
theorem valueLoop_head {leaf : String} {b : Ptr} {bs : List Ptr} {var r : Variant} {h₁ h₂ h₃ : Heap}
    {rc : Option Ptr} (hh : h₁.Closed) (hv : ∀ x ∈ b :: bs, h₁.Valid x)
    (hn : ((b :: bs).map Ptr.tree).Nodup) (e₂ : h₁.child b leaf = some (rc, h₂))
    (e : valueLoop leaf (b :: bs) var h₁ = some (r, h₃)) : h₃.trees b.tree = h₂.trees b.tree := by
  have hl := (child_local hh (hv b (.head _)) e₂).1
  simp only [valueLoop, e₂, Option.bind_eq_bind, Option.some_bind] at e
  split_ifs at e
  · exact (valueLoop_ok bs _ hl.closed (fun x hx => (hv x (.tail _ hx)).grow hl.grows) e).2.2 b.tree
      (List.nodup_cons.1 hn).1
  · simp only [Option.pure_def, Option.some.injEq, Prod.mk.injEq] at e
    rw [e.2]

/-- `Config::value` without `Crypted`, from a level whose first atom is
a writable Map, on a key whose group part names a path: it leaves the
cursor as it was, and the first layer then has a writable node at the
key's path. That node is the one the layer had, in a region left as it
was; or the layer had none, and it is a fresh Null. -/
theorem value_first (hd : d.OK h) (hh : h.Closed) (hat : d.current.atoms = a :: as)
    (hwa : (h.atom a).readOnly = false) (hma : (h.atom a).isMap)
    (hkey : slashIndex key = -1 ∨ parseNames (keyGroup key) ≠ []) {dflt r : Variant}
    (e : value cs key dflt ⟨false⟩ d h = some (r, d', h')) :
    d' = d ∧ ∃ c, h'.lookup a (keyPath key) = some c ∧ (h'.atom c).readOnly = false ∧
      (h.lookup a (keyPath key) = some c ∧ h'.trees a.tree = h.trees a.tree ∨
        h.lookup a (keyPath key) = none ∧ (h'.atom c).isNull) := by
  obtain ⟨d₁, h₁, b, bs, e₁, e₄, o₁, hat₁, hlb, hwb, hmb, hst⟩ :=
    enterKey_first hd hh hat hwa hma hkey
  have hva : h.Valid a := hd.current.valid a (hat ▸ .head _)
  have hvs : ∀ x ∈ b :: bs, h₁.Valid x := hat₁ ▸ o₁.ok.current.valid
  have hbt : b.tree = a.tree := lookup_tree hlb
  -- the loop's first pass: `child(leaf)` on the first layer's node
  obtain ⟨⟨r₀, T⟩, e₀⟩ := Tree.child_isSome (n := keyName key) (T := h₁.trees b.tree)
    (a := b.addr) (by simp_all [Heap.atom])
  have e₂ : h₁.child b (keyName key) = some (r₀.map (Ptr.mk b.tree), h₁.update b.tree T) := by
    simp [Heap.child, e₀]
  obtain ⟨-, hsome, hlc⟩ := Heap.ChangedAlong.child (Tree.ChangedAlong.refl _ _ _) hlb
    (hva.grow o₁.grows) o₁.closed (List.prefix_refl _) (fun _ => hmb) e₂
  obtain ⟨c, hc⟩ := Option.isSome_iff_exists.1 (hsome hwb)
  obtain ⟨hlc, hwc⟩ := hlc c hc
  -- the whole read
  simp only [value, hat, reduceCtorEq, if_false, e₁, Option.bind_eq_bind, Option.some_bind,
    Option.bind_eq_some] at e
  obtain ⟨⟨r₂, h₃⟩, e₃, d₃, e₅, he⟩ := e
  simp only [Bool.false_eq_true, if_false, Option.pure_def, Option.some.injEq, Prod.mk.injEq] at he
  obtain ⟨-, hd₃, hh₃⟩ := he
  rw [← hh₃, ← hd₃, Option.some.inj (e₅.symm.trans e₄)]
  rw [hat₁] at e₃
  have hreg : h₃.trees a.tree = (h₁.update b.tree T).trees a.tree :=
    hbt ▸ valueLoop_head o₁.closed hvs (hat₁ ▸ o₁.ok.current.separate) e₂ e₃
  have hcl : h₃.lookup a (keyPath key) = some c := by rw [lookup_congr hreg, keyPath_eq]; exact hlc
  have hct : c.tree = a.tree := lookup_tree hcl
  have hatc : h₃.atom c = (h₁.update b.tree T).atom c := atom_congr (hct ▸ hreg)
  refine ⟨rfl, c, hcl, by rw [hatc, hwc, hwb], ?_⟩
  rw [keyPath_eq]
  rcases Heap.child_cases (hvs b (.head _)) e₂ with ⟨c₀, hr, hT, hl⟩ | ⟨hr, -⟩ | ⟨c₁, hr, -, hn, hl⟩
  · -- the layer had the node: it is the one read
    rw [hc] at hr
    cases hr
    rcases hst with ⟨hb, hr₁⟩ | ⟨-, hb'⟩
    · refine .inl ⟨?_, hreg.trans (hbt ▸ hT.trans (hbt ▸ hr₁))⟩
      rw [lookup_snoc_of_some hb, ← hr₁, ← hbt, hl]
      rfl
    · rw [Tree.entries_of_hollow hb'] at hl
      cases hl
  · rw [hc] at hr
    cases hr
  · -- a fresh Null under a missing name
    rw [hc] at hr
    cases hr
    refine .inr ⟨?_, by rw [hatc]; simp [Atom.isNull, Atom.type, Payload.type, hn]⟩
    rcases hst with ⟨hb, hr₁⟩ | ⟨hb, -⟩
    · rw [lookup_snoc_of_some hb, ← hr₁, ← hbt, hl]
      rfl
    · exact hb _

end Read

-- =========================================================== the write

section Write

variable {cs : CryptoService} {key : String} {d : ConfigPrivate} {a q : Ptr} {as : List Ptr}

/-- `replace` of a tree `QVariant::operator==` finds equal to the one
under the name stores nothing. -/
theorem Tree.replace_of_cmp {T : Tree} {b c v : Nat} {name : String}
    (hm : (T.cells b).isMap) (hl : (T.entries b).lookup name = some c)
    (he : (T.materialize c).cmp (T.materialize v) = true) : T.replace b name v = some (false, T) := by
  simp [Tree.replace, hm, hl, he]

theorem markWritten_false_sources (srcs : List Nat) (s : Store) :
    (markWritten srcs false s).sources = s.sources := by
  unfold markWritten
  split <;> rfl

/-- `Config::setValue` without `Crypted` of the tree the first layer
already holds, writable, at the key's path: with no NaN in it, `replace`
finds it equal, so no Source is marked. -/
theorem setValue_of_held (s : Store) (hh : s.heap.Closed) (hd : d.OK s.heap) (hat : d.current.atoms = a :: as)
    (hkey : slashIndex key = -1 ∨ parseNames (keyGroup key) ≠ [])
    (hq : s.heap.lookup a (keyPath key) = some q) (hwq : (s.heap.atom q).readOnly = false)
    (hv : (s.heap.materialize q).canonical = true) (hnan : (s.heap.materialize q).hasNaN = false) :
    ∃ s', setValue cs key (s.heap.materialize q) ⟨false⟩ d s = some (d, s') ∧
      s'.sources = s.sources := by
  have hva : s.heap.Valid a := hd.current.valid a (hat ▸ .head _)
  rw [keyPath_eq] at hq
  obtain ⟨hma, hwa⟩ := root_of_lookup hh hva hq hwq
  obtain ⟨d₁, h₁, b, bs, e₁, e₄, o₁, hat₁, -, hwb, hmb, hst⟩ := enterKey_first hd hh hat hwa hma hkey
  obtain ⟨hb, hreg⟩ := hst.resolve_right fun ⟨hbar, _⟩ => by rw [hbar] at hq; cases hq
  have hbt : b.tree = a.tree := lookup_tree hb
  -- the entry under the leaf, in the region navigation left as it was
  obtain ⟨x, -, rfl⟩ := lookup_some hq
  have hTa : h₁.trees b.tree = s.heap.trees a.tree := by rw [hbt, hreg]
  set T := h₁.trees b.tree
  set v := s.heap.materialize ⟨a.tree, x⟩
  have hT : T.Closed := o₁.closed _
  have hbn : b.addr < T.next := (o₁.ok.current.valid b (hat₁ ▸ .head _)).2
  have hl : (T.entries b.addr).lookup (keyName key) = some x := by
    rw [lookup_snoc_of_some hb, ← hTa] at hq
    simpa using hq
  have hxn : x < T.next := hT.bound b.addr hbn x (Tree.entry_child hl)
  -- the new tree, built past the region, materialises as the old one
  obtain ⟨-, hlt, hframe, -⟩ := hT.fromVariant_spec false v
  have hold : (Tree.fromVariant false v T).2.materialize x = v := by
    rw [Tree.materialize_congr hT hxn hlt.le fun y hy => hframe y (hy.bound hT hxn).2]
    simp only [v, Heap.materialize, hTa]
  have hnew : (Tree.fromVariant false v T).2.materialize T.next = v := by
    rw [← Tree.fromVariant_fst false v T]
    exact Tree.materialize_fromVariant false hT hv
  have hrep : (Tree.fromVariant false v T).2.replace b.addr (keyName key) T.next =
      some (false, (Tree.fromVariant false v T).2) := by
    refine Tree.replace_of_cmp (by rw [hframe b.addr hbn]; exact hmb) ?_
      (by rw [hold, hnew]; exact Variant.cmp_self v hnan)
    simp only [Tree.entries, hframe b.addr hbn]
    exact hl
  refine ⟨markWritten d.sources false (s.withHeap
    ((h₁.update b.tree (Tree.fromVariant false v T).2).update b.tree (Tree.fromVariant false v T).2)),
    ?_, markWritten_false_sources _ _⟩
  simp [setValue, hat, e₁, hat₁, hmb, hwb, e₄, Heap.fromVariant, Heap.replace, hrep]

/-- `value` returns where `readKey` answers, with the cursor as it was,
and the first layer holds a node at the key's path as `value_first`
says. -/
theorem value_of_readKey {h : Heap} (hd : d.OK h) (hh : h.Closed) (hat : d.current.atoms = a :: as)
    (hwa : (h.atom a).readOnly = false) (hma : (h.atom a).isMap)
    (hkey : slashIndex key = -1 ∨ parseNames (keyGroup key) ≠ []) {o : Option Variant}
    (ho : readKey h d.current.atoms key = some o) (dflt : Variant) :
    ∃ h', value cs key dflt ⟨false⟩ d h = some (o.getD dflt, d, h') ∧ OpOK h h' d ∧
      ∃ c, h'.lookup a (keyPath key) = some c ∧ (h'.atom c).readOnly = false ∧
        (h.lookup a (keyPath key) = some c ∧ h'.trees a.tree = h.trees a.tree ∨
          h.lookup a (keyPath key) = none ∧ (h'.atom c).isNull) := by
  have hv : (value cs key dflt ⟨false⟩ d h).map (·.1) =
      (readKey h d.current.atoms key).map (·.getD dflt) := value_readKey hh hd dflt
  rw [ho, Option.map_some', Option.map_eq_some'] at hv
  obtain ⟨⟨r, d', h'⟩, e, rfl⟩ := hv
  obtain ⟨rfl, hc⟩ := value_first hd hh hat hwa hma hkey e
  exact ⟨h', e, value_ok hd hh e, hc⟩

end Write

/-- In every reachable world, on a cursor whose current level's first
atom is a writable Map, for a key with no `/` or whose group part names
a path: when the first layer answers the key with a value that holds no
NaN, `value` answers it whatever the default, and writing the answer
back with `setValue` leaves every Source's record as it was; when no
layer answers and the first layer holds at most a Null at the key, the
same holds of the invalid default. -/
theorem setValue_value_keeps_sources {env : Env} {cs : CryptoService} {w : World} {c : Nat}
    {d : ConfigPrivate} {key : String} {a : Ptr} (hr : Reachable env cs w)
    (hd : w.config c = some d) (ha : d.current.atoms.head? = some a)
    (hm : (w.store.heap.atom a).isMap) (hw : (w.store.heap.atom a).readOnly = false)
    (hkey : slashIndex key = -1 ∨ parseNames (keyGroup key) ≠ []) :
    (∀ v, w.store.heap.contribution a (keyPath key) = some v → v.hasNaN = false → ∀ dflt, ∃ h',
      value cs key dflt ⟨false⟩ d w.store.heap = some (v, d, h') ∧
      ∃ s', setValue cs key v ⟨false⟩ d (w.store.withHeap h') = some (d, s') ∧
        s'.sources = w.store.sources) ∧
    (readKey w.store.heap d.current.atoms key = some none →
      (∀ q, w.store.heap.lookup a (keyPath key) = some q → (w.store.heap.atom q).isNull) →
      ∃ h', value cs key .invalid ⟨false⟩ d w.store.heap = some (.invalid, d, h') ∧
      ∃ s', setValue cs key .invalid ⟨false⟩ d (w.store.withHeap h') = some (d, s') ∧
        s'.sources = w.store.sources) := by
  have hinv := hr.heapInv
  have hok := hinv.configs c d hd
  obtain ⟨as, hat⟩ := List.head?_eq_some_iff.1 ha
  refine ⟨fun v hc hnan dflt => ?_, fun hnone hnull => ?_⟩
  · -- the first layer answers: its node is read and written back unchanged
    have ho : readKey w.store.heap d.current.atoms key = some (some v) := by
      rw [hat]; exact readKey_of_first hm hc hkey
    obtain ⟨h', e, o, c, hcl, hwc, hcase⟩ := value_of_readKey hok hinv.closed hat hw hm hkey ho dflt
    simp only [contribution, Option.bind_eq_some] at hc
    obtain ⟨q, hq, hqv⟩ := hc
    obtain ⟨hlc, hreg⟩ := hcase.resolve_right fun ⟨hn, _⟩ => by rw [hn] at hq; cases hq
    rw [hq, Option.some.injEq] at hlc
    subst hlc
    split_ifs at hqv
    cases hqv
    have hmat : h'.materialize q = w.store.heap.materialize q :=
      materialize_congr ((lookup_tree hcl).symm ▸ hreg)
    obtain ⟨s', e', hs'⟩ := setValue_of_held (w.store.withHeap h') o.closed o.ok hat hkey hcl hwc
      (by rw [Store.withHeap_heap, hmat]; exact (hr.shaped q.tree).canonical_toVariant _ _)
      (by rw [Store.withHeap_heap, hmat]; exact hnan)
    exact ⟨h', e, s', hmat ▸ e', hs'⟩
  · -- nothing answers: the layer is left a Null, and the Null is written back
    obtain ⟨h', e, o, c, hcl, hwc, hcase⟩ :=
      value_of_readKey hok hinv.closed hat hw hm hkey hnone .invalid
    have hn : (h'.atom c).isNull := by
      rcases hcase with ⟨hlc, hreg⟩ | ⟨-, hn⟩
      · rw [atom_congr ((lookup_tree hcl).symm ▸ hreg)]
        exact hnull c hlc
      · exact hn
    have hmat : h'.materialize c = .invalid :=
      Tree.toVariant_null (Atom.payload_of_isNull hn) _
    obtain ⟨s', e', hs'⟩ := setValue_of_held (w.store.withHeap h') o.closed o.ok hat hkey hcl hwc
      (by rw [Store.withHeap_heap, hmat]; rfl) (by rw [Store.withHeap_heap, hmat]; rfl)
    exact ⟨h', e, s', hmat ▸ e', hs'⟩

/-- Over the file holding `g = {x: 1}`: writing back `g/x`, which the
file answers, and `g/y`, which nothing answers, leaves the Sources as
they were. -/
theorem setValue_value_keeps_sources_group :
    ∃ w, run Env.sample ⟨id, id⟩ (World.init writableGroupFile) [.construct ["a"] [] none] = some w ∧
      ∃ d a, w.config 0 = some d ∧ d.current.atoms.head? = some a ∧ (w.store.heap.atom a).isMap ∧
        (w.store.heap.atom a).readOnly = false ∧
        (∃ h', value ⟨id, id⟩ "g/x" .invalid ⟨false⟩ d w.store.heap = some (.scalar (.int 1), d, h') ∧
          ∃ s', setValue ⟨id, id⟩ "g/x" (.scalar (.int 1)) ⟨false⟩ d (w.store.withHeap h') =
            some (d, s') ∧ s'.sources = w.store.sources) ∧
        ∃ h', value ⟨id, id⟩ "g/y" .invalid ⟨false⟩ d w.store.heap = some (.invalid, d, h') ∧
          ∃ s', setValue ⟨id, id⟩ "g/y" .invalid ⟨false⟩ d (w.store.withHeap h') = some (d, s') ∧
            s'.sources = w.store.sources :=
  have hr := Reachable.run (.init writableGroupFile) (rfl : run Env.sample ⟨id, id⟩
    (World.init writableGroupFile) [.construct ["a"] [] none] = _)
  ⟨_, rfl, _, _, rfl, rfl, rfl, rfl,
    (setValue_value_keeps_sources (c := 0) hr rfl rfl rfl rfl (.inr (by decide))).1 (.scalar (.int 1))
      (by decide) rfl .invalid,
    (setValue_value_keeps_sources (c := 0) hr rfl rfl rfl rfl (.inr (by decide))).2 rfl
      fun _ hq => by cases hq⟩

/-- One writable file holding a null scalar under `k`. -/
def nullScalarFile : FileSystem := .ofList [("home/a.json", ⟨.map [("k", .scalar .null)], 0, true⟩)]

/-- One writable file holding a NaN under `k`. -/
def nanFile : FileSystem := .ofList [("home/a.json", ⟨.map [("k", .scalar (.double .nan))], 0, true⟩)]

/-- Over a writable file without `k` and a fallback with `k = 1`, reading
`k` answers 1 and writing 1 back marks the file's Source dirty; over a
file holding a null scalar at `k`, reading `k` answers the invalid
default and writing it back marks the Source dirty; and over a file
holding a NaN at `k`, reading `k` answers the NaN, which
`QVariant::operator==` finds unequal to itself, so writing it back
marks the Source dirty. -/
theorem setValue_value_marks_dirty :
    (∃ w, run Env.sample ⟨id, id⟩ (World.init writableGroupFile)
        [.construct ["a"] [.map [("k", .scalar (.int 1))]] none] = some w ∧
      (w.store.sources 0).dirty = false ∧ ∃ d, w.config 0 = some d ∧
      ∃ h, value ⟨id, id⟩ "k" .invalid ⟨false⟩ d w.store.heap = some (.scalar (.int 1), d, h) ∧
        ((setValue ⟨id, id⟩ "k" (.scalar (.int 1)) ⟨false⟩ d (w.store.withHeap h)).map
          fun r => (r.2.sources 0).dirty) = some true) ∧
    (∃ w, run Env.sample ⟨id, id⟩ (World.init nullScalarFile) [.construct ["a"] [] none] = some w ∧
      (w.store.sources 0).dirty = false ∧ ∃ d, w.config 0 = some d ∧
      ∃ h, value ⟨id, id⟩ "k" .invalid ⟨false⟩ d w.store.heap = some (.invalid, d, h) ∧
        ((setValue ⟨id, id⟩ "k" .invalid ⟨false⟩ d (w.store.withHeap h)).map
          fun r => (r.2.sources 0).dirty) = some true) ∧
    ∃ w, run Env.sample ⟨id, id⟩ (World.init nanFile) [.construct ["a"] [] none] = some w ∧
      (w.store.sources 0).dirty = false ∧ ∃ d, w.config 0 = some d ∧
      ∃ h, value ⟨id, id⟩ "k" .invalid ⟨false⟩ d w.store.heap = some (.scalar (.double .nan), d, h) ∧
        ((setValue ⟨id, id⟩ "k" (.scalar (.double .nan)) ⟨false⟩ d (w.store.withHeap h)).map
          fun r => (r.2.sources 0).dirty) = some true :=
  ⟨⟨_, rfl, rfl, _, rfl, _, rfl, rfl⟩, ⟨_, rfl, rfl, _, rfl, _, rfl, rfl⟩, _, rfl, rfl, _, rfl, _, rfl,
    rfl⟩

end QutimConfig
