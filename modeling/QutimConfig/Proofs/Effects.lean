/-
What reads and writes do to the Sources' trees (config.cpp:158-186,
923-929, 1023-1086).

A read (`Config::value`) changes only the regions of the current
level's layers (`value_frame`); `setValue` and `remove(name)` change
the Sources' records only by marking the cursor's first Source dirty
(`setValue_marks_head`, `remove_marks_head`). Within those bounds the
code does more than the header's comments promise, and the runs below
show it, each from the initial world over a few files:

- `ConfigAtom::child` consults the node's own read-only flag, so a read
  inserts a Null entry into a lower layer that is writable on disk
  (`value_inserts_into_lower_source`);
- a read whose key has a group part converts a scalar on the path into
  an empty Map, and the scalar is gone (`value_converts_scalar`);
- `setValue` marks `sources.first()` even when navigation made a lower
  Source's node the level's first atom (`setValue_marks_first_source`);
- `remove(name)` has no read-only check (`remove_read_only_source`).
-/
import QutimConfig.Proofs.Layers

namespace QutimConfig

-- ==================================================== observations

/-- The materialised tree of Source `i`: what a save would write. -/
def World.sourceTree (w : World) (i : Nat) : Variant :=
  w.store.heap.materialize (w.store.sources i).data

/-- A file system holding the listed files; every directory exists. -/
def FileSystem.ofList (files : List (String × FileEntry)) : FileSystem :=
  ⟨fun path => files.lookup path, fun _ => true, 1⟩

-- ============================================================ reads

theorem LevelStep.refl {l : ConfigLevel} {h : Heap} (hl : l.OK h) (hh : h.Closed) :
    LevelStep h l h l :=
  ⟨hl, hh, Heap.Grows.refl h, fun _ _ => rfl, List.Sublist.refl _⟩

theorem enterKey_step {key : String} {d d₁ : ConfigPrivate} {h h₁ : Heap} (hd : d.OK h)
    (hh : h.Closed) (e : enterKey key d h = some (d₁, h₁)) : LevelStep h d.current h₁ d₁.current := by
  unfold enterKey at e
  split_ifs at e
  · simp only [Option.some.injEq, Prod.mk.injEq] at e
    obtain ⟨rfl, rfl⟩ := e
    exact .refl hd.current hh
  · obtain ⟨-, l, rfl, s⟩ := beginGroup_ok hd hh e
    exact s

/-- A read changes only the regions of the current level's layers. -/
theorem value_frame {cs : CryptoService} {key : String} {dflt r : Variant} {flags : ValueFlags}
    {d d' : ConfigPrivate} {h h' : Heap} (hd : d.OK h) (hh : h.Closed)
    (e : value cs key dflt flags d h = some (r, d', h')) :
    ∀ u, u ∉ d.current.atoms.map Ptr.tree → h'.trees u = h.trees u := by
  unfold value at e
  split at e
  · simp only [Option.some.injEq, Prod.mk.injEq] at e
    obtain ⟨-, -, rfl⟩ := e
    exact fun _ _ => rfl
  · simp only [Option.bind_eq_bind, Option.bind_eq_some, Option.pure_def, Option.some.injEq,
      Prod.mk.injEq] at e
    obtain ⟨⟨d₁, h₁⟩, e₁, ⟨r₂, h₂⟩, e₂, d₃, -, -, -, rfl⟩ := e
    have s := enterKey_step hd hh e₁
    have hf := (valueLoop_ok _ _ s.closed s.ok.valid e₂).2.2
    exact fun u hu => (hf u fun m => hu (s.sub.subset m)).trans (s.frame u hu)

/-- Two writable files in the user directory. -/
def twoWritable : FileSystem :=
  .ofList [("home/a.json", ⟨.map [], 0, true⟩), ("home/b.json", ⟨.map [], 0, true⟩)]

/-- Over two writable Sources, reading a key neither holds inserts a
Null entry into the lower Source too: its saved tree gains `k`. -/
theorem value_inserts_into_lower_source :
    ((run Env.sample ⟨id, id⟩ (World.init twoWritable) [.construct ["a", "b"] [] none]).map
        fun w => ((w.config 0).map (·.sources), w.sourceTree 1)) = some (some [0, 1], .map []) ∧
    ((run Env.sample ⟨id, id⟩ (World.init twoWritable)
        [.construct ["a", "b"] [] none, .value 0 "k" .invalid ⟨false⟩]).map
        fun w => w.sourceTree 1) = some (.map [("k", .invalid)]) :=
  ⟨rfl, rfl⟩

/-- One writable file holding a scalar `x`. -/
def scalarFile : FileSystem := .ofList [("home/a.json", ⟨.map [("x", .scalar (.int 5))], 0, true⟩)]

/-- Reading `x/y` turns the scalar `x` into a Map: the value 5 is gone
from the Source's tree. -/
theorem value_converts_scalar :
    ((run Env.sample ⟨id, id⟩ (World.init scalarFile) [.construct ["a"] [] none]).map
        fun w => w.sourceTree 0) = some (.map [("x", .scalar (.int 5))]) ∧
    ((run Env.sample ⟨id, id⟩ (World.init scalarFile)
        [.construct ["a"] [] none, .value 0 "x/y" .invalid ⟨false⟩]).map
        fun w => w.sourceTree 0) = some (.map [("x", .map [("y", .invalid)])]) :=
  ⟨rfl, rfl⟩

-- =========================================================== writes

@[simp] theorem markWritten_sources (srcs : List Nat) (b : Bool) (s : Store) (h : Heap) (i : Nat) :
    (markWritten srcs b (s.withHeap h)).sources i =
      if srcs.head? = some i ∧ b = true then { s.sources i with dirty := true } else s.sources i := by
  unfold markWritten
  split
  · next j hj =>
      by_cases hij : i = j
      · subst hij; split_ifs <;> simp_all [Store.makeDirty, Store.setSource, Store.withHeap]
      · have : j ≠ i := Ne.symm hij
        split_ifs <;> simp_all [Store.makeDirty, Store.setSource, Store.withHeap]
  · simp_all [Store.withHeap]

/-- `setValue` changes the Sources' records only by marking the
cursor's first Source dirty. -/
theorem setValue_marks_head {cs : CryptoService} {key : String} {v : Variant}
    {flags : ValueFlags} {d d' : ConfigPrivate} {s s' : Store}
    (e : setValue cs key v flags d s = some (d', s')) :
    s'.nsources = s.nsources ∧ ∀ i, s'.sources i ≠ s.sources i →
      d.sources.head? = some i ∧ s'.sources i = { s.sources i with dirty := true } := by
  unfold setValue at e
  split at e
  · simp only [Option.some.injEq, Prod.mk.injEq] at e
    obtain ⟨-, rfl⟩ := e
    exact ⟨rfl, fun _ h => absurd rfl h⟩
  · simp only [Option.bind_eq_bind, Option.bind_eq_some, Option.pure_def, Option.some.injEq,
      Prod.mk.injEq] at e
    obtain ⟨_, -, _, -, -, -, _, -, _, -, -, rfl⟩ := e
    refine ⟨(markWritten_dirtiesOnly _ _ _ _).1, fun i hi => ?_⟩
    rw [markWritten_sources] at hi ⊢
    split_ifs at hi ⊢ with hc
    · exact ⟨hc.1, rfl⟩
    · exact absurd rfl hi

/-- A read-only file over a writable one that holds the group `a`. -/
def readOnlyOverWritable : FileSystem :=
  .ofList [("home/a.json", ⟨.map [], 0, false⟩), ("home/b.json", ⟨.map [("a", .map [])], 0, true⟩)]

/-- Writing `a/k`, where only the lower Source has the group `a`: the
write lands in the lower Source's tree, and the upper Source, unchanged,
is the one marked dirty. -/
theorem setValue_marks_first_source :
    ((run Env.sample ⟨id, id⟩ (World.init readOnlyOverWritable) [.construct ["a", "b"] [] none]).map
        fun w => (w.sourceTree 0, (w.store.sources 0).dirty, w.sourceTree 1,
          (w.store.sources 1).dirty)) = some (.map [], false, .map [("a", .map [])], false) ∧
    ((run Env.sample ⟨id, id⟩ (World.init readOnlyOverWritable)
        [.construct ["a", "b"] [] none, .setValue 0 "a/k" (.scalar (.int 1)) ⟨false⟩]).map
        fun w => (w.sourceTree 0, (w.store.sources 0).dirty, w.sourceTree 1,
          (w.store.sources 1).dirty)) =
      some (.map [], true, .map [("a", .map [("k", .scalar (.int 1))])], false) :=
  ⟨rfl, rfl⟩

/-- `remove(name)` changes the Sources' records only by marking the
cursor's first Source dirty. -/
theorem remove_marks_head {name : String} {d : ConfigPrivate} {s s' : Store}
    (e : remove name d s = some s') :
    s'.nsources = s.nsources ∧ ∀ i, s'.sources i ≠ s.sources i →
      d.sources.head? = some i ∧ s'.sources i = { s.sources i with dirty := true } := by
  simp only [remove, Option.bind_eq_bind, Option.bind_eq_some] at e
  obtain ⟨a, -, ⟨b, h⟩, -, e⟩ := e
  split at e
  · simp only [Option.bind_eq_some, Option.pure_def, Option.some.injEq] at e
    obtain ⟨j, hj, rfl⟩ := e
    refine ⟨rfl, fun i hi => ?_⟩
    by_cases hij : i = j
    · subst hij; exact ⟨hj, by simp [Store.makeDirty, Store.setSource, Store.withHeap]⟩
    · simp [Store.makeDirty, Store.setSource, Store.withHeap, hij] at hi
  · simp only [Option.pure_def, Option.some.injEq] at e
    subst e
    exact ⟨rfl, fun _ hi => absurd rfl hi⟩

/-- A file the process may not write. -/
def readOnlyFile : FileSystem := .ofList [("home/a.json", ⟨.map [("k", .scalar (.int 1))], 0, false⟩)]

/-- `remove(name)` on a Source opened read-only: its root is a
read-only node, and the entry goes all the same. -/
theorem remove_read_only_source :
    ((run Env.sample ⟨id, id⟩ (World.init readOnlyFile) [.construct ["a"] [] none]).map
        fun w => ((w.store.heap.atom (w.store.sources 0).data).readOnly, w.sourceTree 0)) =
      some (true, .map [("k", .scalar (.int 1))]) ∧
    ((run Env.sample ⟨id, id⟩ (World.init readOnlyFile) [.construct ["a"] [] none, .remove 0 "k"]).map
        fun w => ((w.store.heap.atom (w.store.sources 0).data).readOnly, w.sourceTree 0)) =
      some (true, .map []) :=
  ⟨rfl, rfl⟩

-- ========================================================== failing removes

section Removes

variable {name : String} {d : ConfigPrivate} {s : Store}

/-- `ConfigAtom::remove(index)` below zero passes the bound check and
reaches `QVector::remove`'s assertion. -/
theorem Tree.removeAt_of_neg {T : Tree} {a : Nat} {index : Int} (hi : index < 0) :
    T.removeAt a index = none := by
  unfold Tree.removeAt
  split_ifs <;> first | rfl | omega

/-- `remove(index)` below zero fails on every cursor. -/
theorem removeAt_of_neg {index : Int} (hi : index < 0) : removeAt index d s = none := by
  simp only [removeAt, Heap.removeAt, Tree.removeAt_of_neg hi, Option.map_none', Option.bind_eq_bind,
    Option.bind_none, Option.none_bind, Option.bind_eq_none]

/-- `remove(name)` on a level with no atom dereferences `atoms.value(0)`. -/
theorem remove_of_atoms_nil (hd : d.current.atoms = []) : remove name d s = none := by
  simp [remove, hd]

/-- `remove(name)` on a cursor with no Source fails exactly where it
would mark one dirty: the first atom is a Map holding the entry. -/
theorem remove_of_sources_nil {a : Ptr} (hs : d.sources = []) (ha : d.current.atoms.head? = some a)
    (hm : (s.heap.atom a).isMap) (hk : ((s.heap.trees a.tree).entries a.addr).lookup name ≠ none) :
    remove name d s = none := by
  obtain ⟨c, hc⟩ := Option.ne_none_iff_exists'.1 hk
  simp only [Heap.atom] at hm
  simp [remove, ha, Heap.remove, Tree.remove, hm, hc, hs]

end Removes

/-- A Config built from the tree `{k: 1}` has no Source: `remove("k")`
finds the entry and then takes the first of no Sources. A Config built
from `[1]` is at a List: `remove(-1)` fails. -/
theorem remove_fails_without_source :
    (∃ w, run Env.sample ⟨id, id⟩ (World.init FileSystem.empty)
        [.fromTree (.map [("k", .scalar (.int 1))])] = some w ∧
      (w.config 0).map (·.sources) = some [] ∧
      step Env.sample ⟨id, id⟩ w (.remove 0 "k") = none) ∧
    ∃ w, run Env.sample ⟨id, id⟩ (World.init FileSystem.empty) [.fromTree (.list [.scalar (.int 1)])] =
        some w ∧ step Env.sample ⟨id, id⟩ w (.removeAt 0 (-1)) = none :=
  ⟨⟨_, rfl, rfl, rfl⟩, _, rfl, rfl⟩

end QutimConfig
