/-
`ConfigLevel` (config.cpp:571-680): a navigation frame — the atoms of
every layer at one path, writable layer first — over the whole node
store, with the `QString` helpers and `parseNames` that feed it paths.

# The heap

`Heap` holds one `Tree` per region; a `Ptr` names a region and an
address in it. Every `ConfigAtom::Ptr` the code keeps (a Source's
`data`, a level's atoms, a fallback) is a `Ptr`; operations on a node
run the region's operation and write the region back.

# `ConfigLevel::map`

The callback sees each atom with `isReadOnly = atom.isReadOnly() ||
!first`, where `first` holds for the level's first atom only: later
layers are presented read-only to the callback, but the callback then
calls `ConfigAtom::child`, which consults the node's own flag.
-/
import QutimConfig.Atom

namespace QutimConfig

-- ========================================================== QString

namespace QString

/-- `QString::indexOf(c, start)`: the first position at or after
`start` holding `c`, or `-1`. -/
def indexOf (s : String) (c : Char) (start : Nat) : Int :=
  match (s.data.drop start).findIdx? (· = c) with
  | some i => (start + i : Nat)
  | none => -1

/-- `QString::lastIndexOf(c)`: the last position holding `c`, or `-1`. -/
def lastIndexOf (s : String) (c : Char) : Int :=
  match s.data.reverse.findIdx? (· = c) with
  | some i => (s.data.length - 1 - i : Nat)
  | none => -1

/-- `QString::mid(position, n)`: `n` characters from `position`, or the
whole rest when `n` is negative. -/
def mid (s : String) (position : Nat) (n : Int) : String :=
  if n < 0 then ⟨s.data.drop position⟩ else ⟨(s.data.drop position).take n.toNat⟩

end QString

/-- The `do … while (first != 0)` loop of `parseNames` (config.cpp:
891-903), with fuel: every pass either stops or moves `first` past a
`/`, so `fullName.length + 1` passes are enough. -/
def parseNamesFrom (fullName : String) : Nat → Nat → List String → List String
  | 0, _, names => names
  | fuel + 1, first, names =>
      let last := QString.indexOf fullName '/' first
      let name := QString.mid fullName first (if last ≠ -1 then last - first else last)
      let names := if name.isEmpty then names else names ++ [name]
      if last + 1 ≠ 0 then parseNamesFrom fullName fuel (last + 1).toNat names else names

/-- `parseNames(fullName)`: the `/`-separated names of a path. -/
def parseNames (fullName : String) : List String :=
  parseNamesFrom fullName (fullName.length + 1) 0 []

-- ============================================================= heap

/-- A `ConfigAtom::Ptr`: a region and an address in it. -/
structure Ptr where
  tree : Nat
  addr : Nat
  deriving DecidableEq, Repr

/-- The node store: one region per tree, and how many regions are in use. -/
structure Heap where
  trees : Nat → Tree
  count : Nat

namespace Heap

/-- The store with no regions. -/
def empty : Heap := ⟨fun _ => Tree.empty, 0⟩

/-- The atom a pointer names. -/
def atom (h : Heap) (p : Ptr) : Atom := (h.trees p.tree).cells p.addr

/-- Write one region back. -/
def update (h : Heap) (t : Nat) (T : Tree) : Heap :=
  { h with trees := Function.update h.trees t T }

/-- A fresh, empty region. -/
def newTree (h : Heap) : Heap × Nat :=
  ({ trees := Function.update h.trees h.count Tree.empty, count := h.count + 1 }, h.count)

/-- The materialised tree of a node. -/
def materialize (h : Heap) (p : Ptr) : Variant := (h.trees p.tree).materialize p.addr

/-- `ConfigAtom::child(name)` on a pointer. -/
def child (h : Heap) (p : Ptr) (name : String) : Option (Option Ptr × Heap) :=
  ((h.trees p.tree).child p.addr name).map fun r => (r.1.map (Ptr.mk p.tree), h.update p.tree r.2)

/-- `ConfigAtom::child(index)` on a pointer. -/
def childAt (h : Heap) (p : Ptr) (index : Int) : Option (Option Ptr × Heap) :=
  ((h.trees p.tree).childAt p.addr index).map fun r =>
    (r.1.map (Ptr.mk p.tree), h.update p.tree r.2)

/-- `ConfigAtom::convert(type)` on a pointer. -/
def convert (h : Heap) (p : Ptr) (type : AtomType) : Heap :=
  h.update p.tree ((h.trees p.tree).convert p.addr type)

/-- `ConfigAtom::arraySize()` on a pointer. -/
def arraySize (h : Heap) (p : Ptr) : Option Nat := (h.trees p.tree).arraySize p.addr

/-- `ConfigAtom::remove(name)` on a pointer. -/
def remove (h : Heap) (p : Ptr) (name : String) : Option (Bool × Heap) :=
  ((h.trees p.tree).remove p.addr name).map fun r => (r.1, h.update p.tree r.2)

/-- `ConfigAtom::remove(index)` on a pointer. -/
def removeAt (h : Heap) (p : Ptr) (index : Int) : Option (Bool × Heap) :=
  ((h.trees p.tree).removeAt p.addr index).map fun r => (r.1, h.update p.tree r.2)

/-- `ConfigAtom::replace(name, value)` on a pointer; `value` is a node
of the same region. -/
def replace (h : Heap) (p : Ptr) (name : String) (v : Nat) : Option (Bool × Heap) :=
  ((h.trees p.tree).replace p.addr name v).map fun r => (r.1, h.update p.tree r.2)

/-- `ConfigAtom::fromVariant(value, readOnly)` built in region `t`. -/
def fromVariant (h : Heap) (t : Nat) (v : Variant) (readOnly : Bool) : Ptr × Heap :=
  let r := Tree.fromVariant readOnly v (h.trees t)
  (⟨t, r.1⟩, h.update t r.2)

/-- The entries of a Map node, as pointers. -/
def entries (h : Heap) (p : Ptr) : List (String × Ptr) :=
  ((h.trees p.tree).entries p.addr).map fun e => (e.1, ⟨p.tree, e.2⟩)

@[simp] theorem update_trees_self (h : Heap) (t : Nat) (T : Tree) :
    (h.update t T).trees t = T := by
  simp [update]

theorem update_trees_ne (h : Heap) {t u : Nat} (T : Tree) (hne : u ≠ t) :
    (h.update t T).trees u = h.trees u := by
  simp [update, hne]

@[simp] theorem update_count (h : Heap) (t : Nat) (T : Tree) :
    (h.update t T).count = h.count := rfl

end Heap

-- ============================================================ levels

/-- A `ConfigLevel`: the atoms of each layer at one path, and whether
the frame is an array element. -/
structure ConfigLevel where
  atoms : List Ptr
  arrayElement : Bool
  deriving DecidableEq, Repr

/-- The per-atom callback of `ConfigLevel::map`: the atom, its
`isReadOnly` as `map` computes it, the store; `none` is a failed
assertion, `some (none, _)` drops the atom. -/
abbrev AtomCallback := Ptr → Bool → Heap → Option (Option Ptr × Heap)

/-- `ConfigLevel::map`: run the callback over the atoms in order, each
seen read-only when the atom is or when it is not the first; keep the
non-null results. -/
def mapAtoms (cb : AtomCallback) : Bool → List Ptr → Heap → Option (List Ptr × Heap)
  | _, [], h => some ([], h)
  | first, a :: as, h => do
      let r ← cb a ((h.atom a).readOnly || !first) h
      let rs ← mapAtoms cb false as r.2
      pure (r.1.toList ++ rs.1, rs.2)

/-- The callback of `ConfigLevel::child(name)`. -/
def childCallback (name : String) : AtomCallback := fun a readOnly h =>
  if readOnly && !(h.atom a).isMap then some (none, h) else h.child a name

/-- The callback of `ConfigLevel::child(index)`. -/
def childAtCallback (index : Int) : AtomCallback := fun a readOnly h =>
  if readOnly && !(h.atom a).isList then some (none, h) else h.childAt a index

/-- The callback of `ConfigLevel::convert(type)`. -/
def convertCallback (type : AtomType) : AtomCallback := fun a readOnly h =>
  if readOnly && (h.atom a).type ≠ type then some (none, h) else some (some a, h.convert a type)

namespace ConfigLevel

/-- `ConfigLevel::map` producing a fresh level (`arrayElement` false). -/
def map (l : ConfigLevel) (cb : AtomCallback) (h : Heap) : Option (ConfigLevel × Heap) :=
  (mapAtoms cb true l.atoms h).map fun r => (⟨r.1, false⟩, r.2)

/-- `ConfigLevel::child(name)`. -/
def child (l : ConfigLevel) (name : String) (h : Heap) : Option (ConfigLevel × Heap) :=
  l.map (childCallback name) h

/-- `ConfigLevel::child(index)`. -/
def childAt (l : ConfigLevel) (index : Int) (h : Heap) : Option (ConfigLevel × Heap) :=
  l.map (childAtCallback index) h

/-- `ConfigLevel::convert(type)`. -/
def convert (l : ConfigLevel) (type : AtomType) (h : Heap) : Option (ConfigLevel × Heap) :=
  l.map (convertCallback type) h

/-- The loop of `ConfigLevel::child(names)`: one `child` per name. -/
def childPath : ConfigLevel → List String → Heap → Option (ConfigLevel × Heap)
  | l, [], h => some (l, h)
  | l, n :: ns, h => do
      let r ← l.child n h
      r.1.childPath ns r.2

/-- `ConfigLevel::child(names)`: asserts a non-empty path. -/
def childNames (l : ConfigLevel) (names : List String) (h : Heap) :
    Option (ConfigLevel × Heap) :=
  if names = [] then none else l.childPath names h

/-- `ConfigLevel::iterateMap`: the entries of every Map atom, in layer
order. -/
def iterateMap (l : ConfigLevel) (h : Heap) : List (String × Ptr) :=
  l.atoms.flatMap fun a => if (h.atom a).isMap then h.entries a else []

end ConfigLevel

end QutimConfig
