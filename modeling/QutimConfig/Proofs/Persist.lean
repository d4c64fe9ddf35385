/-
What `ConfigSource::sync` writes, `ConfigSource::open` reads back
(config.cpp:472-528).

`sync` saves the materialised tree of the Source's root through the
backend; `open` loads the file's tree into a fresh region with
`fromVariant`, refusing a document whose root is a Value or Null, or
putting an empty Map in its place. Every Source's root stays a Map or a
List (`Reachable.rootsContained`, ReadOnly.lean) and every node is
shaped (`Reachable.shaped`), so the saved tree is a map or a list in
`QMap` order: `open` keeps it, and `toVariant` of the node built from it
gives it back (`materialize_fromVariant`). The Source a later `open`
makes of the file holds what was saved.

A backend leaves a file that exists read-only as it was, so the file
must be writable, or absent, when the save runs.
-/
import QutimConfig.Proofs.ReadOnly
import QutimConfig.Proofs.Outline

namespace QutimConfig

-- ================================================ the built root

namespace Tree

theorem fromVariantMap_isMap (ro : Bool) (a : Nat) : ∀ (m : List (String × Variant)) {T : Tree},
    (T.cells a).isMap → ((fromVariantMap ro a m T).cells a).isMap
  | [], _, h => h
  | _ :: m, _, _ => by
      rw [fromVariantMap]
      exact fromVariantMap_isMap ro a m (by simp [Atom.isMap, Atom.type, Payload.type])

theorem fromVariantList_isList (ro : Bool) (a : Nat) : ∀ (xs : List Variant) {T : Tree},
    (T.cells a).isList → ((fromVariantList ro a xs T).cells a).isList
  | [], _, h => h
  | _ :: xs, _, _ => by
      rw [fromVariantList]
      exact fromVariantList_isList ro a xs (by simp [Atom.isList, Atom.type, Payload.type])

/-- `fromVariant` of a map or a list builds a Map or a List root. -/
theorem fromVariant_root_isContainer (ro : Bool) {v : Variant} (T : Tree)
    (hv : (∃ m, v = .map m) ∨ (∃ xs, v = .list xs)) :
    ((fromVariant ro v T).2.cells (fromVariant ro v T).1).isContainer := by
  rcases hv with ⟨m, rfl⟩ | ⟨xs, rfl⟩
  · have := fromVariantMap_isMap ro T.next m (T := (T.alloc ⟨.map [], ro⟩).1)
      (by simp [Atom.isMap, Atom.type, Payload.type])
    simp [fromVariant, Atom.isContainer, this]
  · have := fromVariantList_isList ro T.next xs (T := (T.alloc ⟨.list [], ro⟩).1)
      (by simp [Atom.isList, Atom.type, Payload.type])
    simp [fromVariant, Atom.isContainer, this]

end Tree

theorem Atom.not_leaf_of_isContainer {x : Atom} (h : x.isContainer) : (x.isValue || x.isNull) = false := by
  obtain ⟨p, r⟩ := x
  cases p <;> simp_all [Atom.isContainer, Atom.isMap, Atom.isList, Atom.isValue, Atom.isNull,
    Atom.type, Payload.type]

@[simp] theorem newTree_trees_count (h : Heap) : h.newTree.1.trees h.count = Tree.empty := by
  simp [Heap.newTree]

/-- `open`'s load of a map or a list keeps the document: its root is no
leaf, so neither the refusal nor the empty Map applies. -/
theorem loadRoot_of_container {h : Heap} {v : Variant}
    (hv : (∃ m, v = .map m) ∨ (∃ xs, v = .list xs)) (ro create : Bool) :
    loadRoot h v ro create = some (h.newTree.1.fromVariant h.count v ro) := by
  have hs : (((h.newTree.1.fromVariant h.count v ro).2.atom
      (h.newTree.1.fromVariant h.count v ro).1).isValue ||
      ((h.newTree.1.fromVariant h.count v ro).2.atom (h.newTree.1.fromVariant h.count v ro).1).isNull)
        = false := by
    apply Atom.not_leaf_of_isContainer
    simpa [Heap.fromVariant, Heap.atom] using Tree.fromVariant_root_isContainer ro Tree.empty hv
  simp only [loadRoot, newTree_snd, hs, Bool.false_and, Bool.false_eq_true, if_false]

/-- A document in `QMap` order, built into a fresh region, materialises
back to itself. -/
theorem materialize_newTree_fromVariant {h : Heap} {v : Variant} (hc : v.canonical = true)
    (ro : Bool) :
    (h.newTree.1.fromVariant h.count v ro).2.materialize
      (h.newTree.1.fromVariant h.count v ro).1 = v := by
  simp only [Heap.materialize, Heap.fromVariant, Heap.update_trees_self, newTree_trees_count]
  exact Tree.materialize_fromVariant ro Tree.closed_empty hc

-- ================================================== save, then open

section Persist

variable {env : Env} {cs : CryptoService} {w : World}

/-- `ConfigSource::sync` over a writable or absent file stores the tree. -/
theorem syncSource_files (w : World) {i : Nat}
    (hwr : (w.fs.files (env.absoluteFilePath (w.store.sources i).fileName)).all (·.writable)) :
    (w.syncSource env i).fs.files (env.absoluteFilePath (w.store.sources i).fileName) =
      some ⟨w.sourceTree i, w.fs.clock, true⟩ := by
  simp only [World.syncSource, FileSystem.save]
  split
  · next e he =>
      rw [he] at hwr
      simp only [Option.all_some] at hwr
      simp [hwr, FileSystem.write, World.sourceTree]
  · simp [FileSystem.write, World.sourceTree]

/-- What `sync` saves is a document a backend can store: in every
reachable world the tree of each Source is a map or a list, with every
map's keys in `QMap` order, each once. -/
theorem sourceTree_canonical_container (hr : Reachable env cs w) {i : Nat}
    (hi : i < w.store.nsources) :
    ((∃ m, w.sourceTree i = .map m) ∨ (∃ xs, w.sourceTree i = .list xs)) ∧
      (w.sourceTree i).canonical = true :=
  ⟨hr.rootsContained.sourceTree hr.heapInv hi, (hr.shaped _).canonical_toVariant _ _⟩

/-- The read-only Source of `writableOverReadOnly` saves a map. -/
theorem sourceTree_canonical_container_readOnly :
    ∃ w, run Env.sample ⟨id, id⟩ (World.init writableOverReadOnly)
        [.construct ["a", "b"] [] none] = some w ∧ 1 < w.store.nsources ∧
      ((∃ m, w.sourceTree 1 = .map m) ∨ (∃ xs, w.sourceTree 1 = .list xs)) ∧
        (w.sourceTree 1).canonical = true :=
  ⟨_, rfl, by decide, sourceTree_canonical_container (Reachable.run (.init writableOverReadOnly)
    (rfl : run Env.sample ⟨id, id⟩ (World.init writableOverReadOnly)
      [.construct ["a", "b"] [] none] = _)) (by decide)⟩

/-- A Source saved over a writable or absent file: a later `open` of its
file name that finds the file as saved, and may go on, makes a new Source
holding the saved tree. -/
theorem open_reads_synced (hr : Reachable env cs w) {i : Nat} (hi : i < w.store.nsources)
    (hwr : (w.fs.files (env.absoluteFilePath (w.store.sources i).fileName)).all (·.writable))
    {w₂ : World}
    (hfile : w₂.fs.files (env.absoluteFilePath (w.store.sources i).fileName) =
      (w.syncSource env i).fs.files (env.absoluteFilePath (w.store.sources i).fileName))
    {info : String} {sys create : Bool} {bk : Backend} {stale : Option Nat}
    (hex : (w₂.fs.exists_ env info || create) = true)
    (hdir : (w₂.fs.dirs (env.absolutePath info) || create) = true) :
    ∃ w₃, openFile env (w.store.sources i).fileName info sys create bk stale w₂ =
        (some w₂.store.nsources, w₃) ∧ w₃.sourceTree w₂.store.nsources = w.sourceTree i := by
  have h₁ : (!w₂.fs.exists_ env info && !create) = false := by cases create <;> simp_all
  have h₂ : (!w₂.fs.dirs (env.absolutePath info) && !create) = false := by
    cases create <;> simp_all
  have hload : ∀ fs : FileSystem, fs.files = w₂.fs.files →
      fs.load env (w.store.sources i).fileName = w.sourceTree i := by
    intro fs hfs
    simp only [FileSystem.load, hfs, hfile, syncSource_files w hwr]
  simp only [openFile, h₁, h₂, Bool.false_eq_true, if_false]
  rw [hload _ (by split <;> rfl), loadRoot_of_container (hr.rootsContained.sourceTree hr.heapInv hi)]
  refine ⟨_, rfl, ?_⟩
  simp only [World.sourceTree, World.addSource, Function.update_same]
  exact materialize_newTree_fromVariant ((hr.shaped _).canonical_toVariant _ _) _

/-- A profile holding a nested map and list, writable. -/
def listProfile : FileSystem :=
  .ofList [("home/a.json", ⟨.map [("g", .list [.scalar (.int 1), .map []])], 3, true⟩)]

/-- Saving the profile's Source and opening its file again gives the
same tree. -/
theorem open_reads_synced_listProfile :
    ∃ w, run Env.sample ⟨id, id⟩ (World.init listProfile) [.construct ["a"] [] none] = some w ∧
      ∃ w₃, openFile Env.sample (w.store.sources 0).fileName (w.store.sources 0).fileName false
          false ⟨"json"⟩ none (w.syncSource Env.sample 0) =
          (some (w.syncSource Env.sample 0).store.nsources, w₃) ∧
        w₃.sourceTree (w.syncSource Env.sample 0).store.nsources = w.sourceTree 0 :=
  ⟨_, rfl, open_reads_synced (Reachable.run (.init listProfile)
    (rfl : run Env.sample ⟨id, id⟩ (World.init listProfile) [.construct ["a"] [] none] = _))
    (by decide) (by decide) rfl (by decide) (by decide)⟩

end Persist

end QutimConfig
