/-
`ConfigPrivate` and the public operations of `Config` (config.cpp:
682-1091): a stack of levels over the layered atoms, the Sources they
came from, and the memory guard a derived cursor holds.

Every operation is a function of the cursor and the shared store — the
node heap and the Sources' records — returning the new cursor and
store. A failed `Q_ASSERT`, or a dereference the code cannot survive
(`first()` of an empty list, a method called through a null `Ptr`), is
`none`.

The level stack is `current :: parents`, so it is never empty: popping
the last frame is a failure at the point where the code would next read
`levels.first()`.
-/
import QutimConfig.Level

namespace QutimConfig

-- =========================================================== sources

/-- `ConfigBackend`: a registered format codec, known by its extension
tag. Its `load`/`save` act on the file system (Source.lean). -/
structure Backend where
  name : String
  deriving DecidableEq, Repr

/-- `ConfigSource` (config.cpp:364-391). `lastModified` is `none` for a
null `QDateTime` (no file). -/
structure ConfigSource where
  fileName : String
  backend : Backend
  dirty : Bool
  isAtLoop : Bool
  data : Ptr
  lastModified : Option Nat
  deriving DecidableEq, Repr

/-- The memory every cursor shares: the node heap and the Sources,
indexed by the order they were created in. -/
structure Store where
  heap : Heap
  sources : Nat → ConfigSource
  nsources : Nat

namespace Store

/-- Replace one Source's record. -/
def setSource (s : Store) (i : Nat) (src : ConfigSource) : Store :=
  { s with sources := Function.update s.sources i src }

/-- `ConfigSource::makeDirty()`. -/
def makeDirty (s : Store) (i : Nat) : Store := s.setSource i { s.sources i with dirty := true }

/-- Replace the heap. -/
def withHeap (s : Store) (h : Heap) : Store := { s with heap := h }

@[simp] theorem withHeap_heap (s : Store) (h : Heap) : (s.withHeap h).heap = h := rfl

@[simp] theorem withHeap_sources (s : Store) (h : Heap) : (s.withHeap h).sources = s.sources := rfl

@[simp] theorem makeDirty_heap (s : Store) (i : Nat) : (s.makeDirty i).heap = s.heap := rfl

@[simp] theorem setSource_heap (s : Store) (i : Nat) (src : ConfigSource) :
    (s.setSource i src).heap = s.heap := rfl

end Store

-- =========================================================== cursors

/-- `ConfigPrivate`: `levels` as `current :: parents`, the layered
Sources (first is the one writes mark dirty), and the memory guard. -/
structure ConfigPrivate where
  current : ConfigLevel
  parents : List ConfigLevel
  sources : List Nat
  memoryGuard : Option Nat
  deriving DecidableEq, Repr

/-- `CryptoService`: the cipher applied to `Crypted` values. -/
structure CryptoService where
  crypt : Variant → Variant
  decrypt : Variant → Variant

/-- `Config::ValueFlags`: only `Crypted` is read. -/
structure ValueFlags where
  crypted : Bool
  deriving DecidableEq, Repr

namespace ConfigPrivate

/-- `levels.prepend(level)`. -/
def push (d : ConfigPrivate) (l : ConfigLevel) : ConfigPrivate :=
  { d with current := l, parents := d.current :: d.parents }

/-- `levels.takeFirst()`, failing when no frame would be left. -/
def pop (d : ConfigPrivate) : Option ConfigPrivate :=
  match d.parents with
  | [] => none
  | l :: ls => some { d with current := l, parents := ls }

/-- `if (d->current()->arrayElement) d->levels.takeFirst();`: leave an
element frame for its list frame. -/
def popElement (d : ConfigPrivate) : Option ConfigPrivate :=
  if d.current.arrayElement then d.pop else some d

/-- `ConfigPrivate::clone()`: one level, a copy of the current one, and
the same Sources. -/
def clone (d : ConfigPrivate) : ConfigPrivate := ⟨d.current, [], d.sources, none⟩

/-- `ConfigPrivate::sync()`: the first Source, when dirty and not yet
queued, is marked queued and clean, and its save event is posted (the
second component). -/
def sync (d : ConfigPrivate) (s : Store) : Store × Option Nat :=
  match d.sources.head? with
  | none => (s, none)
  | some i =>
      let src := s.sources i
      if src.dirty && !src.isAtLoop then
        (s.setSource i { src with isAtLoop := true, dirty := false }, some i)
      else (s, none)

@[simp] theorem push_current (d : ConfigPrivate) (l : ConfigLevel) : (d.push l).current = l := rfl

@[simp] theorem push_sources (d : ConfigPrivate) (l : ConfigLevel) :
    (d.push l).sources = d.sources := rfl

@[simp] theorem pop_push (d : ConfigPrivate) (l : ConfigLevel) : (d.push l).pop = some d := rfl

theorem pop_sources {d d' : ConfigPrivate} (e : d.pop = some d') : d'.sources = d.sources := by
  unfold pop at e
  split at e <;> simp_all [eq_comm]

theorem popElement_sources {d d' : ConfigPrivate} (e : d.popElement = some d') :
    d'.sources = d.sources := by
  unfold popElement at e
  split at e
  · exact pop_sources e
  · cases e; rfl

end ConfigPrivate

open ConfigPrivate

/-- `Config::beginGroup(fullName)`. -/
def beginGroup (fullName : String) (d : ConfigPrivate) (h : Heap) :
    Option (ConfigPrivate × Heap) := do
  guard (fullName ≠ "")
  let names := parseNames fullName
  guard (names ≠ [])
  let r ← d.current.childNames names h
  let r ← r.1.convert .map r.2
  pure (d.push r.1, r.2)

/-- `Config::endGroup()`. -/
def endGroup (d : ConfigPrivate) : Option ConfigPrivate := d.pop

/-- Where `value`/`setValue` split a key: at the last `/`. -/
def slashIndex (key : String) : Int := QString.lastIndexOf key '/'

/-- The group part of a key with a `/`. -/
def keyGroup (key : String) : String := QString.mid key 0 (slashIndex key)

/-- The leaf name of a key. -/
def keyName (key : String) : String :=
  if slashIndex key = -1 then key else QString.mid key (slashIndex key + 1).toNat (-1)

/-- `beginGroup` on the group part of a key, when it has one. -/
def enterKey (key : String) (d : ConfigPrivate) (h : Heap) : Option (ConfigPrivate × Heap) :=
  if slashIndex key = -1 then some (d, h) else beginGroup (keyGroup key) d h

/-- `endGroup` after `enterKey`. -/
def leaveKey (key : String) (d : ConfigPrivate) : Option ConfigPrivate :=
  if slashIndex key = -1 then some d else endGroup d

/-- One pass of the loop of `Config::value`: a present, non-Null child
is materialised into `var`. -/
def pickValue (r : Option Ptr) (h : Heap) (var : Variant) : Variant :=
  match r with
  | some c => if (h.atom c).isNull then var else h.materialize c
  | none => var

/-- The loop of `Config::value` (config.cpp:1041-1051): each atom must
be a Map, and the first non-null `var` stops the walk. -/
def valueLoop (name : String) : List Ptr → Variant → Heap → Option (Variant × Heap)
  | [], var, h => some (var, h)
  | a :: as, var, h =>
      if !(h.atom a).isMap then none
      else do
        let r ← h.child a name
        let var := pickValue r.1 r.2 var
        if var.isNull then valueLoop name as var r.2 else pure (var, r.2)

/-- `Config::value(key, def, type)`. -/
def value (cs : CryptoService) (key : String) (dflt : Variant) (flags : ValueFlags)
    (d : ConfigPrivate) (h : Heap) : Option (Variant × ConfigPrivate × Heap) :=
  if d.current.atoms = [] then some (dflt, d, h)
  else do
    let g ← enterKey key d h
    let r ← valueLoop (keyName key) g.1.current.atoms .invalid g.2
    let d' ← leaveKey key g.1
    let var := r.1
    pure (if var.isNull then dflt else if flags.crypted then cs.decrypt var else var, d', r.2)

/-- The end of `Config::setValue`: when `replace` changed the entry,
the first Source (if any) is marked dirty. -/
def markWritten (sources : List Nat) (changed : Bool) (s : Store) : Store :=
  match sources.head? with
  | some i => if changed then s.makeDirty i else s
  | none => s

/-- `Config::setValue(key, value, type)`: the new node is built in the
region of the atom it is stored into. -/
def setValue (cs : CryptoService) (key : String) (v : Variant) (flags : ValueFlags)
    (d : ConfigPrivate) (s : Store) : Option (ConfigPrivate × Store) :=
  if d.current.atoms = [] then some (d, s)
  else do
    let g ← enterKey key d s.heap
    let var := if flags.crypted then cs.crypt v else v
    let a ← g.1.current.atoms.head?
    guard ((g.2.atom a).isMap && !(g.2.atom a).readOnly)
    let n := g.2.fromVariant a.tree var false
    let r ← n.2.replace a (keyName key) n.1.addr
    let d' ← leaveKey key g.1
    pure (d', markWritten d.sources r.1 (s.withHeap r.2))

/-- `Config::remove(name)`: on the current level's first atom, marking
the first Source dirty when an entry went. -/
def remove (name : String) (d : ConfigPrivate) (s : Store) : Option Store := do
  let a ← d.current.atoms.head?
  let r ← s.heap.remove a name
  if r.1 then
    let i ← d.sources.head?
    pure ((s.withHeap r.2).makeDirty i)
  else pure (s.withHeap r.2)

/-- `Config::arraySize()`'s loop: the first positive size, else the
last size read (`0`). -/
def arraySizeLoop (h : Heap) : List Ptr → Option Nat
  | [] => some 0
  | a :: as => do
      let n ← h.arraySize a
      if 0 < n then pure n else arraySizeLoop h as

/-- `Config::arraySize()`: measured on the list frame, the parent of an
element frame. -/
def arraySize (d : ConfigPrivate) (h : Heap) : Option Nat := do
  let l ← if d.current.arrayElement then d.parents.head? else pure d.current
  arraySizeLoop h l.atoms

/-- `Config::beginArray(name)`. -/
def beginArray (name : String) (d : ConfigPrivate) (h : Heap) :
    Option (Nat × ConfigPrivate × Heap) := do
  guard (name ≠ "")
  let r ← d.current.childNames (parseNames name) h
  let r ← r.1.convert .list r.2
  let d := d.push r.1
  let n ← arraySize d r.2
  pure (n, d, r.2)

/-- `Config::endArray()`. -/
def endArray (d : ConfigPrivate) : Option ConfigPrivate := do
  guard (d.parents ≠ [])
  let d ← d.popElement
  guard (d.parents ≠ [] && !d.current.arrayElement)
  d.pop

/-- `Config::setArrayIndex(index)`. -/
def setArrayIndex (index : Int) (d : ConfigPrivate) (h : Heap) :
    Option (ConfigPrivate × Heap) := do
  let d ← d.popElement
  let a ← d.current.atoms.head?
  guard (h.atom a).isList
  let r ← d.current.childAt index h
  let r ← r.1.convert .map r.2
  pure (d.push { r.1 with arrayElement := true }, r.2)

/-- `Config::remove(index)`. -/
def removeAt (index : Int) (d : ConfigPrivate) (s : Store) : Option (ConfigPrivate × Store) := do
  let d ← d.popElement
  let a ← d.current.atoms.head?
  let r ← s.heap.removeAt a index
  if r.1 then
    let i ← d.sources.head?
    pure (d, (s.withHeap r.2).makeDirty i)
  else pure (d, s.withHeap r.2)

/-- `Config::group(fullName)`: the derived cursor (guarded by `self`)
and the cursor itself after its `endGroup`. -/
def group (fullName : String) (self : Nat) (d : ConfigPrivate) (h : Heap) :
    Option (ConfigPrivate × ConfigPrivate × Heap) := do
  guard (fullName ≠ "")
  let g ← beginGroup fullName d h
  let p := { g.1.clone with memoryGuard := some self }
  let d' ← endGroup g.1
  pure (p, d', g.2)

/-- `Config::arrayElement(index)`: a clone guarded by `self`, moved to
the element. -/
def arrayElement (index : Int) (self : Nat) (d : ConfigPrivate) (h : Heap) :
    Option (ConfigPrivate × Heap) :=
  setArrayIndex index { d.clone with memoryGuard := some self } h

/-- `Config::rootValue(def, type)`. -/
def rootValue (cs : CryptoService) (dflt : Variant) (flags : ValueFlags) (d : ConfigPrivate)
    (h : Heap) : Variant :=
  match d.current.atoms.head? with
  | none => dflt
  | some a =>
      let var := h.materialize a
      if var.isNull then dflt else if flags.crypted then cs.decrypt var else var

/-- `Config::childGroups()`. -/
def childGroups (d : ConfigPrivate) (h : Heap) : List String :=
  (d.current.iterateMap h).foldl
    (fun gs e => if (h.atom e.2).isMap && !gs.contains e.1 then gs ++ [e.1] else gs) []

/-- `Config::childKeys()`. -/
def childKeys (d : ConfigPrivate) (h : Heap) : List String :=
  (d.current.iterateMap h).foldl
    (fun ks e => if !(h.atom e.2).isMap && !ks.contains e.1 then ks ++ [e.1] else ks) []

/-- `Config::hasChildGroup(name)`. -/
def hasChildGroup (name : String) (d : ConfigPrivate) (h : Heap) : Bool :=
  (d.current.iterateMap h).any fun e => (h.atom e.2).isMap && e.1 == name

/-- `Config::hasChildKey(name)`. -/
def hasChildKey (name : String) (d : ConfigPrivate) (h : Heap) : Bool :=
  (d.current.iterateMap h).any fun e => !(h.atom e.2).isMap && e.1 == name

end QutimConfig
