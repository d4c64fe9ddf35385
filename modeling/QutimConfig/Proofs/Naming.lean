/-
File names across whole runs (config.cpp:393-521, 712-739, 760-768).

# Shape of the argument

A Source's file name is fixed when `ConfigSource::open` creates it; no
later step renames one (`syncSource_fileName` and its callers), and
`open` only adds a Source at the next index (`Opened.fileName`). Two
facts follow over every run (`Named`):

- `ConfigSourceHash` maps each name to a Source of that name: `open`
  inserts `(fileName, source)` and the timer only erases
  (`openFile_keyed`). So `open` answers a live Source of the very file
  it resolved, cached or new (`open_answers_own_file`).
- `ConfigPrivate(paths, ...)` keeps a Source only when its file name is
  not yet in `opened` (`openAll_distinct`), `clone` and `group` copy the
  Source list, and the names stay: no cursor holds two Sources of one
  file (`cursor_files_distinct`).
-/
import QutimConfig.Proofs.Isolation

namespace QutimConfig

open World

/-- The file name of Source `i`. -/
def World.fileName (w : World) (i : Nat) : String := (w.store.sources i).fileName

-- ================================================= names never change

section Names

variable {env : Env} {w w' : World} {i : Nat}

@[simp] theorem syncSource_fileName (w : World) (i : Nat) :
    (w.syncSource env i).fileName = w.fileName := by
  funext j
  by_cases h : j = i <;> simp [World.fileName, World.syncSource, Store.setSource, h]

@[simp] theorem deliver_fileName (w : World) (i : Nat) : (w.deliver env i).fileName = w.fileName := by
  funext j
  by_cases h : j = i <;> simp [World.fileName, World.deliver, World.syncSource, Store.setSource, h]

theorem deliverAll_fileName : ∀ (es : List Nat) (w : World), (deliverAll env es w).fileName = w.fileName
  | [], _ => rfl
  | i :: es, w => (deliverAll_fileName es _).trans (deliver_fileName w i)

theorem syncConfig_fileName (w : World) (d : ConfigPrivate) : (w.syncConfig d).fileName = w.fileName :=
  funext (d.sync_fileName w.store)

theorem collect_fileName (w : World) : (w.collect env).fileName = w.fileName := by
  unfold World.collect
  generalize List.range w.store.nsources = is
  induction is generalizing w with
  | nil => rfl
  | cons i is ih =>
    rw [List.foldl_cons, ih]
    rcases collectOne_cases w i with ⟨-, -, he⟩ | ⟨-, he⟩ <;> rw [he]
    unfold World.destroySource
    split
    · exact syncSource_fileName w i
    · rfl

/-- `open` leaves the names of the Sources that were there. -/
theorem Opened.fileName {r : Option Nat} (o : Opened w r w') (hi : i < w.store.nsources) :
    w'.fileName i = w.fileName i := by
  rcases o.records i with h | ⟨h, -⟩
  · exact congrArg ConfigSource.fileName h
  · omega

end Names

-- ======================================================== the cache

/-- Every cache entry is keyed by the file name of its Source. -/
def World.Keyed (w : World) : Prop := ∀ k i, (k, i) ∈ w.cache → w.fileName i = k

section Keyed

variable {env : Env} {w w' : World}

/-- A new Source enters the cache under its own name. -/
theorem Keyed.addSource (hk : w.Keyed) (hc : ∀ e ∈ w.cache, e.2 < w.store.nsources)
    (src : ConfigSource) (h : Heap) : (w.addSource src h).2.Keyed := by
  intro k i he
  rcases QMap.mem_insert he with he | he
  · cases he
    simp [World.fileName, World.addSource]
  · have hne : i ≠ w.store.nsources := (hc _ he).ne
    simpa [World.fileName, World.addSource, hne] using hk k i he

/-- What `open` does once the file is chosen: it answers the stale
entry, or answers none, or adds a Source of the file. -/
theorem openFile_cases {fileName info : String} {sys create : Bool} {bk : Backend}
    {stale r : Option Nat} (e : openFile env fileName info sys create bk stale w = (r, w')) :
    (r = stale ∧ w' = w) ∨ (r = none ∧ w'.store = w.store ∧ w'.cache = w.cache) ∨
      ∃ fs : FileSystem, ∃ src h, src.fileName = fileName ∧ r = some w.store.nsources ∧
        w' = (World.addSource { w with fs := fs } src h).2 := by
  unfold openFile at e
  by_cases h₁ : (!w.fs.exists_ env info && !create) = true
  · rw [if_pos h₁] at e; cases e; exact .inl ⟨rfl, rfl⟩
  rw [if_neg h₁] at e
  by_cases h₂ : (!w.fs.dirs (env.absolutePath info) && !create) = true
  · rw [if_pos h₂] at e; cases e; exact .inl ⟨rfl, rfl⟩
  rw [if_neg h₂] at e
  dsimp only at e
  generalize (if w.fs.dirs (env.absolutePath info) = true then w.fs else _) = fs at e
  split at e
  · cases e; exact .inr (.inl ⟨rfl, rfl, rfl⟩)
  · simp only [Prod.mk.injEq] at e
    exact .inr (.inr ⟨fs, _, _, rfl, e.1.symm, e.2.symm⟩)

theorem openFile_keyed {fileName info : String} {sys create : Bool} {bk : Backend}
    {stale r : Option Nat} (hw : HeapInv w) (hk : w.Keyed)
    (e : openFile env fileName info sys create bk stale w = (r, w')) : w'.Keyed := by
  rcases openFile_cases e with ⟨-, rfl⟩ | ⟨-, hs, hc⟩ | ⟨fs, src, h, -, -, rfl⟩
  · exact hk
  · intro k i he
    simpa only [World.fileName, hs] using hk k i (hc ▸ he)
  · exact Keyed.addSource hk hw.cache src h

theorem openSource_keyed {path : String} {sys create : Bool} {bk : Option Backend}
    (hw : HeapInv w) (hk : w.Keyed) : (openSource env path sys create bk w).2.Keyed := by
  unfold openSource
  dsimp only
  repeat' split
  all_goals first
    | exact hk
    | exact openFile_keyed hw hk rfl

/-- What `open` answers with a file chosen: the stale entry, of that
name, or the new Source of that name. -/
theorem openFile_fileName {fileName info : String} {sys create : Bool} {bk : Backend}
    {stale : Option Nat} {i : Nat} (hst : ∀ j ∈ stale, w.fileName j = fileName)
    (e : openFile env fileName info sys create bk stale w = (some i, w')) :
    w'.fileName i = fileName := by
  rcases openFile_cases e with ⟨h, rfl⟩ | ⟨h, -⟩ | ⟨fs, src, h, hn, hi, rfl⟩
  · exact hst i h.symm
  · cases h
  · cases hi
    simpa [World.fileName, World.addSource] using hn

theorem probe_fileName (hk : w.Keyed) {k : String} {i : Nat} (e : probe env w k = some i) :
    w.fileName i = k :=
  hk k i (probe_mem e)

theorem cached_fileName (hk : w.Keyed) (k : String) : ∀ j ∈ w.cached k, w.fileName j = k :=
  fun j h => hk k j (QMap.mem_of_lookup h)

/-- `ConfigSource::open` answers a Source of the file it resolved, or of
that file with the first backend's extension when no backend was asked
for or found by the suffix. -/
theorem openSource_fileName (hk : w.Keyed) {path : String} {sys create : Bool}
    {bk : Option Backend} {i : Nat} (e : openSource env path sys create bk w = (some i, w')) :
    ∃ name, resolveName env path sys = some name ∧ (w'.fileName i = name ∨
      ∃ first rest, bk = none ∧ env.backends = first :: rest ∧
        w'.fileName i = name ++ "." ++ first.name) := by
  unfold openSource at e
  dsimp only at e
  split at e
  · cases e
  · next name hname =>
    refine ⟨name, hname, ?_⟩
    split at e
    · next j hj => cases e; exact .inl (probe_fileName hk hj)
    · split at e
      · exact .inl (openFile_fileName (cached_fileName hk name) e)
      · split at e
        · cases e
        · next first rest hbs =>
          split at e
          · exact .inl (openFile_fileName (cached_fileName hk name) e)
          · refine .inr ⟨first, rest, rfl, hbs, ?_⟩
            split at e
            · next j hj => cases e; exact probe_fileName hk hj
            · exact openFile_fileName (cached_fileName hk _) e

end Keyed

-- ============================================== a cursor's own files

section Distinct

variable {env : Env} {w : World}

/-- The opening loops of `ConfigPrivate(paths, ...)` keep a Source only
when no kept one has its file name (the `opened` set); the cache stays
keyed. -/
theorem openAll_distinct (bk : Option Backend) :
    ∀ (ps : List (Bool × String)) {srcs : List Nat} {w : World}, HeapInv w → w.Keyed →
      (∀ i ∈ srcs, i < w.store.nsources) → (srcs.map w.fileName).Nodup →
      (openAll env bk ps srcs w).2.Keyed ∧
        ((openAll env bk ps srcs w).1.map (openAll env bk ps srcs w).2.fileName).Nodup
  | [], _, _, _, hk, _, hd => ⟨hk, hd⟩
  | (sys, path) :: rest, srcs, w, hw, hk, hs, hd => by
      have o : Opened w (openSource env path sys srcs.isEmpty bk w).1
        (openSource env path sys srcs.isEmpty bk w).2 := openSource_inv hw
      have hk₁ : (openSource env path sys srcs.isEmpty bk w).2.Keyed := openSource_keyed hw hk
      simp only [openAll]
      generalize openSource env path sys srcs.isEmpty bk w = r at o hk₁ ⊢
      obtain ⟨r, w₁⟩ := r
      have hs₁ : ∀ i ∈ srcs, i < w₁.store.nsources := fun i hi => lt_of_lt_of_le (hs i hi) o.mono
      have hd₁ : (srcs.map w₁.fileName).Nodup := by
        rwa [List.map_congr_left fun i hi => o.fileName (hs i hi)]
      cases r with
      | none => exact openAll_distinct bk rest o.inv hk₁ hs₁ hd₁
      | some i =>
        dsimp only
        split
        · exact openAll_distinct bk rest o.inv hk₁ hs₁ hd₁
        · next hany =>
          refine openAll_distinct bk rest o.inv hk₁ ?_ ?_
          · simpa [or_imp, forall_and] using ⟨hs₁, o.lt i rfl⟩
          · simp only [List.any_eq_true, beq_iff_eq, not_exists, not_and] at hany
            simpa [List.nodup_append, hd₁] using fun j hj h => hany j hj h

end Distinct

-- ========================================================= over runs

/-- The file-name invariant: the cache is keyed by file names, and no
live cursor holds two Sources of one file. -/
structure Named (w : World) : Prop where
  keyed : w.Keyed
  distinct : ∀ c d, w.config c = some d → (d.sources.map w.fileName).Nodup

section Named

variable {env : Env} {cs : CryptoService} {w w' : World} {c : Nat} {d : ConfigPrivate}

/-- A step that renames nothing, adds no cache entry, and adds only
cursors over no Source. -/
theorem Named.of_frame (hn : Named w) (hf : w'.fileName = w.fileName)
    (hk : ∀ e ∈ w'.cache, e ∈ w.cache)
    (hc : ∀ c d, w'.config c = some d → w.config c = some d ∨ d.sources = []) : Named w' := by
  refine ⟨fun k i he => hf ▸ hn.keyed k i (hk _ he), fun c d e => hf ▸ ?_⟩
  rcases hc c d e with e | h
  · exact hn.distinct c d e
  · simp [h]

/-- A step that renames nothing and keeps the cache and the cursors. -/
theorem Named.of_same (hn : Named w) (hf : w'.fileName = w.fileName) (hk : w'.cache = w.cache)
    (hc : w'.configs = w.configs) : Named w' :=
  hn.of_frame hf (fun _ h => hk ▸ h) fun _ _ e => .inl (by rwa [config_of_configs hc] at e)

/-- An action through one cursor: each cursor is an old one or holds
that cursor's Sources. -/
theorem Named.through (hn : Named w) (hd : w.config c = some d) (t : Through c d w w') : Named w' := by
  have hf : w'.fileName = w.fileName := funext t.names
  refine ⟨fun k i he => hf ▸ hn.keyed k i (t.cache ▸ he), fun c' d' e => hf ▸ ?_⟩
  rcases t.configs c' d' e with ⟨-, e⟩ | ⟨hs, -⟩
  · exact hn.distinct c' d' e
  · exact hs ▸ hn.distinct c d hd

/-- `ConfigPrivate(paths, fallbacks, backend)`: the new cursor is
distinct by the `opened` set; an old one holds Sources that were there,
whose names `open` keeps. -/
theorem Named.construct (hw : HeapInv w) (hl : Lifetimes w) (hn : Named w) (paths : List String)
    (fallbacks : List Variant) (bk : Option Backend) :
    Named ((construct env paths fallbacks bk w).2.addConfig (construct env paths fallbacks bk w).1) := by
  obtain ⟨o, -⟩ := @openAll_inv env bk
    ((paths.map fun p => (false, p)) ++ (paths.map fun p => (true, p))) [] w hw (by simp)
    List.nodup_nil
  obtain ⟨hk, hd⟩ := @openAll_distinct env bk
    ((paths.map fun p => (false, p)) ++ (paths.map fun p => (true, p))) [] w hw hn.keyed (by simp)
    List.nodup_nil
  refine ⟨hk, fun c d e => ?_⟩
  rcases World.config_addConfig e with ⟨-, rfl⟩ | e
  · exact hd
  · change (openAll env bk _ [] w).2.config c = some d at e
    rw [config_of_configs o.configs] at e
    have hlt : ∀ i ∈ d.sources, i < w.store.nsources := fun i hi =>
      (hl.held i (holds_iff.2 (.inl (.inl ⟨c, d, e, hi⟩)))).1
    change (d.sources.map (openAll env bk _ [] w).2.fileName).Nodup
    rw [List.map_congr_left fun i hi => o.fileName (hlt i hi)]
    exact hn.distinct c d e

/-- Every action keeps the file-name invariant. -/
theorem Named.perform (hw : HeapInv w) (hl : Lifetimes w) (hn : Named w) {a : Action}
    (e : perform env cs w a = some w') : Named w' := by
  cases ha : a.cursor with
  | some c =>
    obtain ⟨d, hd⟩ := perform_config ha e
    exact hn.through hd (perform_through hw ha hd e)
  | none =>
    rcases perform_cursor_none ha e with ⟨paths, fallbacks, bk, rfl⟩ | ⟨v, rfl⟩ | ⟨i, rest, -, rfl⟩ |
      rfl | ⟨key, rfl⟩
    · exact hn.construct hw hl paths fallbacks bk
    · refine hn.of_frame rfl (fun _ => id) fun c d e => ?_
      rcases World.config_addConfig e with ⟨-, rfl⟩ | e
      · exact .inr rfl
      · exact .inl e
    · have k := (Keeps.of_store rfl rfl rfl : Keeps w { w with events := rest }).trans
        (@keeps_deliver env _ i)
      exact hn.of_same (deliver_fileName _ i) k.cache k.configs
    · have k := (Keeps.of_store rfl rfl rfl : Keeps w { w with events := [] }).trans
        (@keeps_deliverAll env w.events _)
      exact hn.of_same (deliverAll_fileName _ _) k.cache k.configs
    · exact hn.of_frame rfl (fun _ h => QMap.mem_erase h) fun _ _ e => .inl e

theorem Reachable.named (hr : Reachable env cs w) : Named w := by
  induction hr with
  | init fs =>
    exact ⟨fun _ _ h => absurd h (List.not_mem_nil _), fun c d e => by simp [World.config, World.init] at e⟩
  | step a hr e ih =>
    simp only [QutimConfig.step, Option.map_eq_some'] at e
    obtain ⟨w₁, e, rfl⟩ := e
    exact (ih.perform hr.heapInv hr.lifetimes e).of_same (collect_fileName w₁) (keeps_collect w₁).cache
      (keeps_collect w₁).configs

end Named

-- ====================================================== the results

section Results

variable {env : Env} {cs : CryptoService} {w : World} {c : Nat} {d : ConfigPrivate}

/-- In every reachable world, no live cursor holds two Sources of one
file: the constructor's `opened` set admits each file name once, `clone`
and `group` copy their parent's Sources, and no step renames a Source. -/
theorem cursor_files_distinct (hr : Reachable env cs w) (hd : w.config c = some d) :
    (d.sources.map w.fileName).Nodup :=
  hr.named.distinct c d hd

/-- `Config(["a", "b", "a"])`: the second `a` finds the cached Source of
`home/a.json`, which the cursor already holds. -/
theorem cursor_files_distinct_repeated :
    ∃ w d, run Env.sample ⟨id, id⟩ (World.init twoFiles) [.construct ["a", "b", "a"] [] none] =
        some w ∧ w.config 0 = some d ∧ d.sources = [0, 1] ∧ (d.sources.map w.fileName).Nodup :=
  ⟨_, _, rfl, rfl, rfl, cursor_files_distinct (c := 0) (Reachable.run (.init twoFiles)
    (rfl : run Env.sample ⟨id, id⟩ (World.init twoFiles) [.construct ["a", "b", "a"] [] none] = _))
    rfl⟩

/-- In every reachable world, `ConfigSource::open` answers a live Source
of the file it resolved, or of that file with the first backend's
extension when no backend was asked for or found by the suffix: the
cache, stale or not, never answers a Source of another file. -/
theorem open_answers_own_file (hr : Reachable env cs w) {path : String} {sys create : Bool}
    {bk : Option Backend} {i : Nat} {w' : World}
    (e : openSource env path sys create bk w = (some i, w')) :
    i < w'.store.nsources ∧ i ∉ w'.freed ∧ ∃ name, resolveName env path sys = some name ∧
      (w'.fileName i = name ∨ ∃ first rest, bk = none ∧ env.backends = first :: rest ∧
        w'.fileName i = name ++ "." ++ first.name) := by
  have o := @openSource_inv env w path sys create bk hr.heapInv
  have f := (@openSource_fresh env w path sys create bk hr.heapInv).2
  rw [e] at o f
  refine ⟨o.lt i rfl, o.freed ▸ fun hf => ?_, openSource_fileName hr.named.keyed e⟩
  rcases f i rfl with ⟨k, hk⟩ | h
  · exact (hr.lifetimes.held i (holds_iff.2 (.inr ⟨k, hk⟩))).2 hf
  · exact absurd (hr.lifetimes.freed i hf) (not_lt.2 h)

/-- A second `open` of `a` resolves `home/a`, adds the `json` extension,
and finds the Source of `home/a.json` in the cache. -/
theorem open_answers_own_file_cached :
    ∃ w w', run Env.sample ⟨id, id⟩ (World.init twoFiles) [.construct ["a"] [] none] = some w ∧
      openSource Env.sample "a" false false none w = (some 0, w') ∧
      0 < w'.store.nsources ∧ 0 ∉ w'.freed ∧ ∃ name, resolveName Env.sample "a" false = some name ∧
        (w'.fileName 0 = name ∨ ∃ first rest, (none : Option Backend) = none ∧
          Env.sample.backends = first :: rest ∧ w'.fileName 0 = name ++ "." ++ first.name) :=
  ⟨_, _, rfl, rfl, open_answers_own_file (Reachable.run (.init twoFiles)
    (rfl : run Env.sample ⟨id, id⟩ (World.init twoFiles) [.construct ["a"] [] none] = _))
    (by exact rfl : openSource Env.sample "a" false false none _ = (some 0, _))⟩

end Results

end QutimConfig
