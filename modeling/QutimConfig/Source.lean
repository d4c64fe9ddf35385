/-
The process around the cursors: the file system `ConfigSource::open`
reads, the Source cache, the save-event queue, and the cursors alive in
the process (config.cpp:364-569, 702-780).

# External collaborators

Path handling is Qt's and the platform's (`QFileInfo`, `QDir`,
`SystemInfo::getDir`): `Env` takes each function `open` calls as a
parameter, together with the backend registry. A backend's `load` reads
the stored tree of a file and its `save` writes one, stamping the file
with the file system's clock; a file that exists read-only is left as
it was.

# The world

`World` is the state every operation of the process acts on: the store
(nodes and Sources), `ConfigSourceHash`, the files, the live
`ConfigPrivate`s (a destroyed one is `none`), the posted
`PostConfigSaveEvent`s in delivery order, whether the post routine has
drained them, every `backend.save` call made, and the Sources whose
destructor has run.
-/
import QutimConfig.Config

namespace QutimConfig

-- ====================================================== environment

/-- What `ConfigSource::open` asks of Qt, the platform and the registry. -/
structure Env where
  /-- `SystemInfo::getDir(systemDir ? SystemConfigDir : ConfigDir)`. -/
  configDir : Bool → String
  /-- `QFileInfo::isAbsolute`. -/
  isAbsolute : String → Bool
  /-- `QDir::filePath`. -/
  filePath : String → String → String
  /-- `QDir::cleanPath`. -/
  cleanPath : String → String
  /-- The file a `QFileInfo` of a path names, resolved against the
  working directory. -/
  absoluteFilePath : String → String
  /-- `QFileInfo::absolutePath`: the directory of that file. -/
  absolutePath : String → String
  /-- `QFileInfo::suffix().toLatin1().toLower()`. -/
  suffix : String → String
  /-- `all_config_backends()`, in registration order. -/
  backends : List Backend

/-- A stored file: its tree, modification stamp and writability. -/
structure FileEntry where
  content : Variant
  mtime : Nat
  writable : Bool
  deriving DecidableEq, Repr

/-- The file system: files and directories by absolute path, and the
stamp the next write gets. -/
structure FileSystem where
  files : String → Option FileEntry
  dirs : String → Bool
  clock : Nat

namespace FileSystem

variable (env : Env) (fs : FileSystem)

/-- `QFileInfo(path).exists()`. -/
def exists_ (path : String) : Bool := (fs.files (env.absoluteFilePath path)).isSome

/-- `QFileInfo(path).isWritable()`: false for a missing file. -/
def isWritable (path : String) : Bool :=
  match fs.files (env.absoluteFilePath path) with
  | some e => e.writable
  | none => false

/-- `QFileInfo(path).lastModified()`. -/
def lastModified (path : String) : Option Nat :=
  (fs.files (env.absoluteFilePath path)).map FileEntry.mtime

/-- `ConfigBackend::load`: the stored tree, invalid for a missing file. -/
def load (path : String) : Variant :=
  match fs.files (env.absoluteFilePath path) with
  | some e => e.content
  | none => .invalid

/-- Store a tree at a path with the current stamp. -/
def write (path : String) (v : Variant) : FileSystem :=
  { fs with
    files := Function.update fs.files (env.absoluteFilePath path) (some ⟨v, fs.clock, true⟩)
    clock := fs.clock + 1 }

/-- `ConfigBackend::save`: write the tree and stamp the file; a
read-only file is left as it was. -/
def save (path : String) (v : Variant) : FileSystem :=
  match fs.files (env.absoluteFilePath path) with
  | some e => if e.writable then fs.write env path v else fs
  | none => fs.write env path v

end FileSystem

-- ============================================================ world

/-- Everything the configuration core acts on. -/
structure World where
  store : Store
  cache : List (String × Nat)
  fs : FileSystem
  configs : List (Option ConfigPrivate)
  events : List Nat
  drained : Bool
  saves : List (Nat × Variant)
  freed : List Nat

namespace World

/-- A process with no Source, cursor or event yet, over the given files. -/
def init (fs : FileSystem) : World :=
  ⟨⟨Heap.empty, fun _ => ⟨"", ⟨""⟩, false, false, ⟨0, 0⟩, none⟩, 0⟩, [], fs, [], [], false,
    [], []⟩

/-- The live cursor at a handle. -/
def config (w : World) (i : Nat) : Option ConfigPrivate := (w.configs[i]?).join

/-- Replace the cursor at a handle. -/
def setConfig (w : World) (i : Nat) (d : ConfigPrivate) : World :=
  { w with configs := w.configs.set i (some d) }

/-- Replace the heap. -/
def setHeap (w : World) (h : Heap) : World := { w with store := w.store.withHeap h }

/-- `ConfigSourceHash::value`: the cached Source of a file name. -/
def cached (w : World) (key : String) : Option Nat := w.cache.lookup key

/-- `ConfigSource::isValid()`: the file's stamp is the one recorded. -/
def isValid (env : Env) (w : World) (i : Nat) : Bool :=
  w.fs.lastModified env (w.store.sources i).fileName == (w.store.sources i).lastModified

/-- `ConfigSource::sync()`: save the materialised root, clear `dirty`,
record the new stamp. -/
def syncSource (env : Env) (w : World) (i : Nat) : World :=
  let src := w.store.sources i
  let tree := w.store.heap.materialize src.data
  let fs := w.fs.save env src.fileName tree
  { w with
    fs := fs
    saves := w.saves ++ [(i, tree)]
    store := w.store.setSource i
      { src with dirty := false, lastModified := fs.lastModified env src.fileName } }

end World

-- ============================================================= open

/-- The file name `open` looks for before any extension is added: the
path (or `"profile"`), placed in the user or system directory when
relative; `none` for an absolute path asked of the system directory. -/
def resolveName (env : Env) (path : String) (systemDir : Bool) : Option String :=
  let fileName := if path = "" then "profile" else path
  if !env.isAbsolute fileName then
    some (env.cleanPath (env.filePath (env.configDir systemDir) fileName))
  else if systemDir then none
  else some (env.cleanPath fileName)

/-- The cache probe of `open`: the cached Source of `key` when it is
still valid. -/
def probe (env : Env) (w : World) (key : String) : Option Nat :=
  match w.cached key with
  | some i => if w.isValid env i then some i else none
  | none => none

/-- Steps 9-10 of `ConfigSource::open`: the document is loaded into a
fresh region; a root that is a Value or Null is refused, or replaced by
an empty Map when the file may be created. -/
def loadRoot (h : Heap) (v : Variant) (readOnly create : Bool) : Option (Ptr × Heap) :=
  let nt := h.newTree
  let loaded := nt.1.fromVariant nt.2 v readOnly
  let scalar := (loaded.2.atom loaded.1).isValue || (loaded.2.atom loaded.1).isNull
  if scalar && !create then none
  else some (if scalar then loaded.2.fromVariant nt.2 (.map []) readOnly else loaded)

/-- Step 11: the new Source takes the next index and enters the cache. -/
def World.addSource (w : World) (src : ConfigSource) (h : Heap) : Nat × World :=
  let i := w.store.nsources
  (i, { w with
    store := ⟨h, Function.update w.store.sources i src, i + 1⟩
    cache := QMap.insert src.fileName i w.cache })

/-- Steps 6-11 of `ConfigSource::open` (config.cpp:490-520), once the
backend and the file name are fixed: `info` is the `QFileInfo` the
existence and writability checks consult, `stale` what the cache gave. -/
def openFile (env : Env) (fileName info : String) (systemDir create : Bool) (bk : Backend)
    (stale : Option Nat) (w : World) : Option Nat × World :=
  if !w.fs.exists_ env info && !create then (stale, w)
  else if !w.fs.dirs (env.absolutePath info) && !create then (stale, w)
  else
    let fs := if w.fs.dirs (env.absolutePath info) then w.fs
      else { w.fs with dirs := Function.update w.fs.dirs (env.absolutePath info) true }
    let readOnly := !fs.isWritable env info && (systemDir || fs.exists_ env info)
    match loadRoot w.store.heap (fs.load env fileName) readOnly create with
    | none => (none, { w with fs := fs })
    | some root =>
        let r := World.addSource { w with fs := fs }
          ⟨fileName, bk, false, false, root.1, fs.lastModified env fileName⟩ root.2
        (some r.1, r.2)

/-- The backend whose name is the file's suffix, if it has one. -/
def Env.backendFor (env : Env) (path : String) : Option Backend :=
  let suffix := env.suffix path
  if suffix ≠ "" then env.backends.find? (·.name = suffix) else none

/-- `ConfigSource::open(path, systemDir, create, backend)`. -/
def openSource (env : Env) (path : String) (systemDir create : Bool) (backend : Option Backend)
    (w : World) : Option Nat × World :=
  let raw := if path = "" then "profile" else path
  match resolveName env path systemDir with
  | none => (none, w)
  | some fileName =>
      match probe env w fileName with
      | some i => (some i, w)
      | none =>
          match backend with
          | some bk => openFile env fileName raw systemDir create bk (w.cached fileName) w
          | none =>
              match env.backends with
              | [] => (none, w)
              | first :: _ =>
                  match env.backendFor raw with
                  | some bk => openFile env fileName raw systemDir create bk (w.cached fileName) w
                  | none =>
                      let fileName := fileName ++ "." ++ first.name
                      match probe env w fileName with
                      | some i => (some i, w)
                      | none =>
                          openFile env fileName fileName systemDir create first
                            (w.cached fileName) w

-- ===================================================== construction

/-- The opening loops of `ConfigPrivate(paths, fallbacks, backend)`: for
the user directory, then the system one, each path is opened (created
only while no Source is open yet) and kept unless its file name is
already open. -/
def openAll (env : Env) (backend : Option Backend) :
    List (Bool × String) → List Nat → World → List Nat × World
  | [], srcs, w => (srcs, w)
  | (systemDir, path) :: rest, srcs, w =>
      let r := openSource env path systemDir srcs.isEmpty backend w
      match r.1 with
      | some i =>
          if srcs.any fun j => (r.2.store.sources j).fileName == (r.2.store.sources i).fileName
          then openAll env backend rest srcs r.2
          else openAll env backend rest (srcs ++ [i]) r.2
      | none => openAll env backend rest srcs r.2

/-- The fallback loop: each fallback tree becomes a read-only region,
kept unless its root is Null or a Value. -/
def addFallbacks : List Variant → List Ptr → Heap → List Ptr × Heap
  | [], atoms, h => (atoms, h)
  | v :: vs, atoms, h =>
      let root := h.newTree.1.fromVariant h.newTree.2 v true
      if (root.2.atom root.1).isNull || (root.2.atom root.1).isValue then addFallbacks vs atoms root.2
      else addFallbacks vs (atoms ++ [root.1]) root.2

/-- `ConfigPrivate(paths, fallbacks, backend)`: the new cursor and the
world it leaves. -/
def construct (env : Env) (paths : List String) (fallbacks : List Variant)
    (backend : Option Backend) (w : World) : ConfigPrivate × World :=
  let o := openAll env backend
    ((paths.map fun p => (false, p)) ++ (paths.map fun p => (true, p))) [] w
  let f := addFallbacks fallbacks (o.1.map fun i => (o.2.store.sources i).data) o.2.store.heap
  (⟨⟨f.1, false⟩, [], o.1, none⟩, o.2.setHeap f.2)

/-- `Config(const QVariantMap &)` / `Config(const QVariantList &)`: one
writable region built from the tree, no Source. -/
def constructFromTree (v : Variant) (w : World) : ConfigPrivate × World :=
  let root := w.store.heap.newTree.1.fromVariant w.store.heap.newTree.2 v false
  (⟨⟨[root.1], false⟩, [], [], none⟩, w.setHeap root.2)

end QutimConfig
