/-
`ConfigAtom` (config.cpp:48-362): one node of a configuration tree, and
the operations on it, over an explicit store of nodes.

# The store

A `Tree` is one region of nodes: the atoms of one document (a Source's
data, a fallback, the value tree of `Config(QVariantMap)`), addressed by
`Nat`, with the next free address. A node's children (`QMap<QString,
Ptr>`, `QVector<Ptr>`) are addresses in the same region: every node
config.cpp creates is created by an operation on a node of that region
(`child`, the growth loop of `child(int)`, `fromVariant` for `replace`),
and where the address of a new node goes is not observable. Keeping
regions apart makes "a write to one layer does not touch another" a
fact about `Function.update`, not a separation invariant.

# Faithfulness

Each operation is the C++ body: `ensureMap`/`ensureList`/`ensureValue`
clear the payload and install an empty one when the tag differs, and a
`Q_ASSERT` that fails is `none`. `toVariant` recurses through the store
and takes fuel; `materialize` gives it the region's size, which bounds
the depth of every tree the operations build (children are allocated
after their parent).
-/
import QutimConfig.Compare

namespace QutimConfig

-- ============================================================= atoms

/-- `ConfigAtom::Type`. -/
inductive AtomType where
  | list
  | map
  | value
  | null
  deriving DecidableEq, Repr

/-- The tagged union of an atom: `m_type` with the buffer it selects.
Children are addresses in the atom's own region. -/
inductive Payload where
  | list (xs : List Nat)
  | map (m : List (String × Nat))
  | value (v : Variant)
  | null
  deriving DecidableEq, Repr

/-- The tag of a payload. -/
def Payload.type : Payload → AtomType
  | .list _ => .list
  | .map _ => .map
  | .value _ => .value
  | .null => .null

/-- A `ConfigAtom`: payload and the `m_readOnly` flag fixed at
construction. -/
structure Atom where
  payload : Payload
  readOnly : Bool
  deriving DecidableEq, Repr

namespace Atom

/-- `ConfigAtom::type()`. -/
def type (x : Atom) : AtomType := x.payload.type

/-- `ConfigAtom::isMap()`. -/
def isMap (x : Atom) : Bool := x.type == .map

/-- `ConfigAtom::isList()`. -/
def isList (x : Atom) : Bool := x.type == .list

/-- `ConfigAtom::isValue()`. -/
def isValue (x : Atom) : Bool := x.type == .value

/-- `ConfigAtom::isNull()`. -/
def isNull (x : Atom) : Bool := x.type == .null

/-- `Ptr::create(readOnly)`: a fresh Null atom. -/
def create (readOnly : Bool) : Atom := ⟨.null, readOnly⟩

end Atom

-- ============================================================ regions

/-- One region of the node store: its cells and the next free address. -/
structure Tree where
  cells : Nat → Atom
  next : Nat

namespace Tree

/-- The empty region. -/
def empty : Tree := ⟨fun _ => Atom.create false, 0⟩

/-- Overwrite one cell. -/
def set (T : Tree) (a : Nat) (x : Atom) : Tree :=
  { T with cells := Function.update T.cells a x }

/-- Allocate a cell at the next free address. -/
def alloc (T : Tree) (x : Atom) : Tree × Nat :=
  (⟨Function.update T.cells T.next x, T.next + 1⟩, T.next)

/-- Replace a cell's payload, keeping its read-only flag. -/
def setPayload (T : Tree) (a : Nat) (p : Payload) : Tree :=
  T.set a { T.cells a with payload := p }

/-- The entries of a Map atom (`asMap()`); empty for any other tag. -/
def entries (T : Tree) (a : Nat) : List (String × Nat) :=
  match (T.cells a).payload with
  | .map m => m
  | _ => []

/-- The elements of a List atom (`asList()`); empty for any other tag. -/
def items (T : Tree) (a : Nat) : List Nat :=
  match (T.cells a).payload with
  | .list xs => xs
  | _ => []

@[simp] theorem set_next (T : Tree) (a : Nat) (x : Atom) : (T.set a x).next = T.next := rfl

@[simp] theorem set_cells_self (T : Tree) (a : Nat) (x : Atom) : (T.set a x).cells a = x := by
  simp [set]

theorem set_cells_ne (T : Tree) {a b : Nat} (x : Atom) (h : b ≠ a) :
    (T.set a x).cells b = T.cells b := by
  simp [set, h]

@[simp] theorem alloc_next (T : Tree) (x : Atom) : (T.alloc x).1.next = T.next + 1 := rfl

@[simp] theorem alloc_addr (T : Tree) (x : Atom) : (T.alloc x).2 = T.next := rfl

@[simp] theorem alloc_cells_self (T : Tree) (x : Atom) : (T.alloc x).1.cells T.next = x := by
  simp [alloc]

theorem alloc_cells_ne (T : Tree) (x : Atom) {b : Nat} (h : b ≠ T.next) :
    (T.alloc x).1.cells b = T.cells b := by
  simp [alloc, h]

@[simp] theorem setPayload_next (T : Tree) (a : Nat) (p : Payload) :
    (T.setPayload a p).next = T.next := rfl

@[simp] theorem setPayload_cells_self (T : Tree) (a : Nat) (p : Payload) :
    (T.setPayload a p).cells a = { T.cells a with payload := p } := by
  simp [setPayload]

theorem setPayload_cells_ne (T : Tree) {a b : Nat} (p : Payload) (h : b ≠ a) :
    (T.setPayload a p).cells b = T.cells b := by
  simp [setPayload, set_cells_ne _ _ h]

-- ==================================================== tag conversions

/-- `ensureMap()`: a Map stays, any other atom is cleared to an empty
Map. -/
def ensureMap (T : Tree) (a : Nat) : Tree :=
  match (T.cells a).payload with
  | .map _ => T
  | _ => T.setPayload a (.map [])

/-- `ensureList()`. -/
def ensureList (T : Tree) (a : Nat) : Tree :=
  match (T.cells a).payload with
  | .list _ => T
  | _ => T.setPayload a (.list [])

/-- `ensureValue()`: a fresh value is the invalid `QVariant()`. -/
def ensureValue (T : Tree) (a : Nat) : Tree :=
  match (T.cells a).payload with
  | .value _ => T
  | _ => T.setPayload a (.value .invalid)

/-- `clear()`: back to Null, payload destroyed. -/
def clear (T : Tree) (a : Nat) : Tree := T.setPayload a .null

/-- `ConfigAtom::convert(type)`: nothing when the tag already matches,
otherwise the matching `ensure…` (or `clear`). -/
def convert (T : Tree) (a : Nat) (type : AtomType) : Tree :=
  if (T.cells a).type = type then T
  else
    match type with
    | .map => T.ensureMap a
    | .list => T.ensureList a
    | .value => T.ensureValue a
    | .null => T.clear a

-- ======================================================== navigation

/-- `ConfigAtom::child(const QString &name)`: asserts a read-only atom
is a Map, turns the atom into a Map, and inserts a fresh Null child for a
missing key unless the atom is read-only. -/
def child (T : Tree) (a : Nat) (name : String) : Option (Option Nat × Tree) :=
  let x := T.cells a
  if x.readOnly && !x.isMap then none
  else
    let T := T.ensureMap a
    match (T.entries a).lookup name with
    | some c => some (some c, T)
    | none =>
        if x.readOnly then some (none, T)
        else
          let (T', c) := T.alloc (Atom.create x.readOnly)
          some (some c, T'.setPayload a (.map (QMap.insert name c (T.entries a))))

/-- The growth loop of `child(int)`: `n` fresh Null atoms appended. -/
def grow (a : Nat) (readOnly : Bool) : Nat → Tree → Tree
  | 0, T => T
  | n + 1, T =>
      let (T', c) := T.alloc (Atom.create readOnly)
      grow a readOnly n (T'.setPayload a (.list (T.items a ++ [c])))

/-- `ConfigAtom::child(int index)`: asserts a read-only atom is a List,
turns the atom into a List, answers absent past the end of a read-only
list, grows a writable one up to `index`, and reads `list.at(index)`
(which asserts `0 ≤ index`). -/
def childAt (T : Tree) (a : Nat) (index : Int) : Option (Option Nat × Tree) :=
  let x := T.cells a
  if x.readOnly && !x.isList then none
  else
    let T := T.ensureList a
    if x.readOnly && ((T.items a).length : Int) ≤ index then some (none, T)
    else
      let T := grow a x.readOnly (index + 1 - (T.items a).length).toNat T
      if index < 0 then none
      else
        match (T.items a)[index.toNat]? with
        | some c => some (some c, T)
        | none => none

/-- `ConfigAtom::arraySize()`: asserts a List. -/
def arraySize (T : Tree) (a : Nat) : Option Nat :=
  if (T.cells a).isList then some (T.items a).length else none

-- ========================================================= mutation

/-- `ConfigAtom::remove(int)`: asserts a List; `false` at or past the
end; `QVector::remove` asserts a non-negative index. -/
def removeAt (T : Tree) (a : Nat) (index : Int) : Option (Bool × Tree) :=
  if !(T.cells a).isList then none
  else if ((T.items a).length : Int) ≤ index then some (false, T)
  else if index < 0 then none
  else some (true, T.setPayload a (.list ((T.items a).eraseIdx index.toNat)))

/-- `ConfigAtom::remove(const QString &)`: asserts a Map; whether an
entry went. -/
def remove (T : Tree) (a : Nat) (name : String) : Option (Bool × Tree) :=
  if !(T.cells a).isMap then none
  else some (((T.entries a).lookup name).isSome,
    T.setPayload a (.map (QMap.erase name (T.entries a))))

-- ==================================================== materialisation

/-- `ConfigAtom::toVariant()`, with fuel for the recursion through the
store: a Map is rebuilt by inserting every entry into a `QVariantMap`. -/
def toVariant (T : Tree) : Nat → Nat → Variant
  | 0, _ => .invalid
  | n + 1, a =>
      match (T.cells a).payload with
      | .map m => .map (m.foldl (fun acc p => QMap.insert p.1 (toVariant T n p.2) acc) [])
      | .list xs => .list (xs.map (toVariant T n))
      | .value v => v
      | .null => .invalid

/-- The materialised tree of a node: `toVariant` with the region's size
as fuel. -/
def materialize (T : Tree) (a : Nat) : Variant := T.toVariant T.next a

/-- `ConfigAtom::replace(name, value)`: asserts a Map; stores `value`
under `name` when the key is missing or its materialised tree is not
`QVariant::operator==` to the new one, and says whether it did. -/
def replace (T : Tree) (a : Nat) (name : String) (v : Nat) : Option (Bool × Tree) :=
  if !(T.cells a).isMap then none
  else
    let store := T.setPayload a (.map (QMap.insert name v (T.entries a)))
    match (T.entries a).lookup name with
    | some c => if !(T.materialize c).cmp (T.materialize v) then some (true, store) else some (false, T)
    | none => some (true, store)

mutual
/-- `ConfigAtom::fromVariant(variant, readOnly)`: the root is allocated
first, then each child in order; every atom carries `readOnly`. -/
def fromVariant (readOnly : Bool) : Variant → Tree → Nat × Tree
  | .invalid, T => ((T.alloc (Atom.create readOnly)).2, (T.alloc (Atom.create readOnly)).1)
  | .scalar s, T => ((T.alloc ⟨.value (.scalar s), readOnly⟩).2,
      (T.alloc ⟨.value (.scalar s), readOnly⟩).1)
  | .list xs, T =>
      (T.next, fromVariantList readOnly T.next xs (T.alloc ⟨.list [], readOnly⟩).1)
  | .map m, T =>
      (T.next, fromVariantMap readOnly T.next m (T.alloc ⟨.map [], readOnly⟩).1)
/-- The `list.append(fromVariant(value, readOnly))` loop. -/
def fromVariantList (readOnly : Bool) (a : Nat) : List Variant → Tree → Tree
  | [], T => T
  | x :: xs, T =>
      let r := fromVariant readOnly x T
      fromVariantList readOnly a xs (r.2.setPayload a (.list (r.2.items a ++ [r.1])))
/-- The `map.insert(key, fromVariant(value, readOnly))` loop. -/
def fromVariantMap (readOnly : Bool) (a : Nat) : List (String × Variant) → Tree → Tree
  | [], T => T
  | (k, x) :: m, T =>
      let r := fromVariant readOnly x T
      fromVariantMap readOnly a m (r.2.setPayload a (.map (QMap.insert k r.1 (r.2.entries a))))
end

end Tree

end QutimConfig
