/-
The heap invariant of the process: every region closed, every level of
every live cursor sound, every Source's root an allocated node of a
region of its own, every cache entry a Source that exists. It holds
initially and every step keeps it (`HeapInv.step`), so it holds in
every reachable world (`Reachable.heapInv`).

Saver steps, syncs and destructions touch only Source records, events
and files (`Keeps`); cursor operations are covered by Cursor.lean; the
constructors open Sources into fresh regions.
-/
import QutimConfig.World
import QutimConfig.Proofs.Cursor

namespace QutimConfig

open Heap World

variable {env : Env} {cs : CryptoService} {w w' : World}

/-- The heap invariant of a world. -/
structure HeapInv (w : World) : Prop where
  closed : w.store.heap.Closed
  configs : ∀ c d, w.config c = some d → d.OK w.store.heap
  sources : ∀ i < w.store.nsources, w.store.heap.Valid (w.store.sources i).data
  distinct : ∀ i < w.store.nsources, ∀ j < w.store.nsources,
    (w.store.sources i).data.tree = (w.store.sources j).data.tree → i = j
  cache : ∀ e ∈ w.cache, e.2 < w.store.nsources

-- ================================================ record-only steps

/-- `w'` has the heap, the cursors, the cache and the Sources' roots of
`w`. -/
structure Keeps (w w' : World) : Prop where
  heap : w'.store.heap = w.store.heap
  nsources : w'.store.nsources = w.store.nsources
  data : ∀ i, (w'.store.sources i).data = (w.store.sources i).data
  configs : w'.configs = w.configs
  cache : w'.cache = w.cache

theorem Keeps.refl (w : World) : Keeps w w := ⟨rfl, rfl, fun _ => rfl, rfl, rfl⟩

theorem Keeps.of_store (hs : w'.store = w.store) (hc : w'.configs = w.configs)
    (hca : w'.cache = w.cache) : Keeps w w' :=
  ⟨by rw [hs], by rw [hs], fun _ => by rw [hs], hc, hca⟩

theorem Keeps.trans {w'' : World} (k₁ : Keeps w w') (k₂ : Keeps w' w'') : Keeps w w'' :=
  ⟨k₂.heap.trans k₁.heap, k₂.nsources.trans k₁.nsources, fun i => (k₂.data i).trans (k₁.data i),
    k₂.configs.trans k₁.configs, k₂.cache.trans k₁.cache⟩

@[simp] theorem Store.setSource_data (s : Store) (i j : Nat) (src : ConfigSource) :
    ((s.setSource i src).sources j).data = if j = i then src.data else (s.sources j).data := by
  by_cases hj : j = i <;> simp [Store.setSource, hj]

@[simp] theorem Store.setSource_nsources (s : Store) (i : Nat) (src : ConfigSource) :
    (s.setSource i src).nsources = s.nsources := rfl

theorem keeps_syncSource (w : World) (i : Nat) : Keeps w (w.syncSource env i) := by
  refine ⟨rfl, rfl, fun j => ?_, rfl, rfl⟩
  by_cases hj : j = i <;> simp [World.syncSource, hj]

theorem keeps_deliver (w : World) (i : Nat) : Keeps w (w.deliver env i) := by
  refine (@keeps_syncSource env w i).trans ⟨rfl, rfl, fun j => ?_, rfl, rfl⟩
  by_cases hj : j = i <;> simp [World.deliver, hj]

theorem keeps_deliverAll : ∀ (es : List Nat) (w : World), Keeps w (deliverAll env es w)
  | [], w => .refl w
  | e :: es, w => (keeps_deliver w e).trans (keeps_deliverAll es _)

theorem keeps_syncConfig (w : World) (d : ConfigPrivate) : Keeps w (w.syncConfig d) := by
  unfold World.syncConfig ConfigPrivate.sync
  split
  · exact ⟨rfl, rfl, fun _ => rfl, rfl, rfl⟩
  · next i _ =>
    dsimp only
    split
    · refine ⟨rfl, rfl, fun j => ?_, rfl, rfl⟩
      by_cases hj : j = i <;> simp [hj]
    · exact ⟨rfl, rfl, fun _ => rfl, rfl, rfl⟩

theorem HeapInv.of_keeps (hw : HeapInv w) (k : Keeps w w') : HeapInv w' := by
  obtain ⟨hc, hcfg, hs, hd, hca⟩ := hw
  refine ⟨k.heap ▸ hc, fun c d e => ?_, fun i hi => ?_, fun i hi j hj e => ?_, fun e he => ?_⟩
  · rw [World.config, k.configs] at e; exact k.heap ▸ hcfg c d e
  · rw [k.heap, k.data]; exact hs i (k.nsources ▸ hi)
  · rw [k.data, k.data] at e; exact hd i (k.nsources ▸ hi) j (k.nsources ▸ hj) e
  · rw [k.nsources]; exact hca e (k.cache ▸ he)

/-- A step that grows the heap, at most sets dirty bits, keeps the
cache, and leaves every cursor sound or as it was, keeps the invariant. -/
theorem HeapInv.of_grow (hw : HeapInv w) (hh : w'.store.heap.Closed)
    (hg : w.store.heap.Grows w'.store.heap) (hs : w.store.DirtiesOnly w'.store)
    (hca : w'.cache = w.cache)
    (hcfg : ∀ c d, w'.config c = some d → d.OK w'.store.heap ∨ w.config c = some d) :
    HeapInv w' := by
  have hdata : ∀ i, (w'.store.sources i).data = (w.store.sources i).data := fun i => by
    rcases hs.2 i with h | h <;> rw [h]
  refine ⟨hh, fun c d e => ?_, fun i hi => ?_, fun i hi j hj e => ?_, fun e he => ?_⟩
  · rcases hcfg c d e with h | h
    · exact h
    · exact (hw.configs c d h).grow hg
  · rw [hdata]; exact (hw.sources i (hs.1 ▸ hi)).grow hg
  · rw [hdata, hdata] at e; exact hw.distinct i (hs.1 ▸ hi) j (hs.1 ▸ hj) e
  · rw [hs.1]; exact hw.cache e (hca ▸ he)

theorem Store.DirtiesOnly.refl (s : Store) : s.DirtiesOnly s := ⟨rfl, fun _ => .inl rfl⟩

/-- A cursor operation that rewrote cursor `c` and the store. -/
theorem HeapInv.of_cursor (hw : HeapInv w) {c : Nat} {d' : ConfigPrivate} {s' : Store}
    (hh : s'.heap.Closed) (hg : w.store.heap.Grows s'.heap) (hs : w.store.DirtiesOnly s')
    (hd : d'.OK s'.heap) : HeapInv { w.setConfig c d' with store := s' } := by
  refine hw.of_grow hh hg hs rfl fun j d e => ?_
  rcases config_setConfig e with ⟨-, rfl⟩ | e
  · exact .inl hd
  · exact .inr e

theorem HeapInv.of_heap (hw : HeapInv w) {c : Nat} {d' : ConfigPrivate} {h' : Heap}
    (o : OpOK w.store.heap h' d') : HeapInv ((w.setConfig c d').setHeap h') :=
  hw.of_cursor o.closed o.grows (.withHeap _ _) o.ok

theorem HeapInv.addConfig (hw : HeapInv w) {d : ConfigPrivate} (hd : d.OK w.store.heap) :
    HeapInv (w.addConfig d) := by
  refine hw.of_grow hw.closed (Grows.refl _) (.refl _) rfl fun j d' e => ?_
  rcases config_addConfig e with ⟨-, rfl⟩ | e
  · exact .inl hd
  · exact .inr e

-- ============================================================ opening

@[simp] theorem newTree_snd (h : Heap) : h.newTree.2 = h.count := rfl

@[simp] theorem newTree_count (h : Heap) : h.newTree.1.count = h.count + 1 := rfl

theorem newTree_closed {h : Heap} (hh : h.Closed) : h.newTree.1.Closed := by
  intro t
  by_cases ht : t = h.count
  · subst ht; simp only [Heap.newTree, Function.update_same]
    exact Tree.closed_empty
  · simpa [Heap.newTree, ht] using hh t

theorem newTree_grows (h : Heap) : h.Grows h.newTree.1 :=
  ⟨by simp, fun t ht => by simp [Heap.newTree, Nat.ne_of_lt ht]⟩

@[simp] theorem fromVariant_tree (h : Heap) (t : Nat) (v : Variant) (ro : Bool) :
    (h.fromVariant t v ro).1.tree = t := rfl

@[simp] theorem fromVariant_count (h : Heap) (t : Nat) (v : Variant) (ro : Bool) :
    (h.fromVariant t v ro).2.count = h.count := rfl

/-- Loading a document into the fresh region keeps the heap closed and
gives a root in that region. -/
theorem loadRoot_ok {h h' : Heap} {v : Variant} {ro create : Bool} {p : Ptr} (hh : h.Closed)
    (e : loadRoot h v ro create = some (p, h')) :
    h'.Closed ∧ h.Grows h' ∧ p.tree = h.count ∧ h'.Valid p := by
  have ht : h.count < h.newTree.1.count := by simp
  obtain ⟨hl₁, hv₁⟩ := fromVariant_local (newTree_closed hh) ht v ro
  unfold loadRoot at e
  dsimp only at e
  split_ifs at e with h₁ h₂ <;> simp only [Option.some.injEq, reduceCtorEq, Prod.ext_iff] at e <;>
    obtain ⟨rfl, rfl⟩ := e <;> simp only [newTree_snd] at *
  · obtain ⟨hl₂, hv₂⟩ := fromVariant_local hl₁.closed (t := h.count) (by simp) (.map []) ro
    exact ⟨hl₂.closed, (newTree_grows h).trans (hl₁.grows.trans hl₂.grows), rfl, hv₂⟩
  · exact ⟨hl₁.closed, (newTree_grows h).trans hl₁.grows, rfl, hv₁⟩

/-- A Source registered with a root in a fresh region keeps the
invariant. -/
theorem HeapInv.addSource (hw : HeapInv w) {src : ConfigSource} {h : Heap} (hh : h.Closed)
    (hg : w.store.heap.Grows h) (hfresh : src.data.tree = w.store.heap.count)
    (hv : h.Valid src.data) : HeapInv (w.addSource src h).2 := by
  set n := w.store.nsources
  have hsrc : ∀ j, ((w.addSource src h).2.store.sources j) =
      if j = n then src else w.store.sources j := fun j => by
    by_cases hj : j = n <;> simp [World.addSource, hj, n]
  refine ⟨hh, fun c d e => (hw.configs c d e).grow hg, fun i hi => ?_, fun i hi j hj e => ?_,
    fun e he => ?_⟩
  · simp only [World.addSource] at hi
    rw [hsrc]
    split_ifs with hin
    · exact hv
    · exact (hw.sources i (by omega)).grow hg
  · simp only [World.addSource] at hi hj
    rw [hsrc, hsrc] at e
    have hlt : ∀ k < n, (w.store.sources k).data.tree < w.store.heap.count :=
      fun k hk => (hw.sources k hk).1
    split_ifs at e with h₁ h₂ h₂
    · omega
    · have := hlt j (by omega); omega
    · have := hlt i (by omega); omega
    · exact hw.distinct i (by omega) j (by omega) e
  · simp only [World.addSource] at he ⊢
    rcases QMap.mem_insert he with rfl | he
    · exact Nat.lt_succ_self _
    · exact Nat.lt_succ_of_lt (hw.cache e he)

/-- What opening a Source guarantees: the invariant survives, the answer
is a Source that exists, and the cursors are untouched. -/
structure Opened (w : World) (r : Option Nat) (w' : World) : Prop where
  inv : HeapInv w'
  lt : ∀ i ∈ r, i < w'.store.nsources
  configs : w'.configs = w.configs
  mono : w.store.nsources ≤ w'.store.nsources
  events : w'.events = w.events
  records : ∀ i, w'.store.sources i = w.store.sources i ∨
    (w.store.nsources ≤ i ∧ (w'.store.sources i).isAtLoop = false)
  saves : w'.saves = w.saves
  drained : w'.drained = w.drained
  freed : w'.freed = w.freed

theorem Opened.stay (hw : HeapInv w) {r : Option Nat} (hr : ∀ i ∈ r, i < w.store.nsources) :
    Opened w r w :=
  ⟨hw, hr, rfl, le_rfl, rfl, fun _ => .inl rfl, rfl, rfl, rfl⟩

theorem Opened.none (hw : HeapInv w) : Opened w none w :=
  .stay hw fun _ h => absurd h (Option.not_mem_none _)

theorem Opened.some (hw : HeapInv w) {i : Nat} (hi : i < w.store.nsources) :
    Opened w (some i) w :=
  .stay hw fun _ h => Option.mem_some_iff.1 h ▸ hi

theorem Opened.trans {w'' : World} {r r' : Option Nat} (o₁ : Opened w r w') (o₂ : Opened w' r' w'') :
    Opened w r' w'' := by
  refine ⟨o₂.inv, o₂.lt, o₂.configs.trans o₁.configs, o₁.mono.trans o₂.mono,
    o₂.events.trans o₁.events, fun i => ?_, o₂.saves.trans o₁.saves, o₂.drained.trans o₁.drained,
    o₂.freed.trans o₁.freed⟩
  rcases o₂.records i with h₂ | ⟨hn, hb⟩
  · rcases o₁.records i with h₁ | ⟨hn, hb⟩
    · exact .inl (h₂.trans h₁)
    · exact .inr ⟨hn, h₂ ▸ hb⟩
  · exact .inr ⟨o₁.mono.trans hn, hb⟩

/-- A Source opened into a fresh region. -/
theorem openFile_inv {fileName info : String} {sys create : Bool} {bk : Backend}
    {stale r : Option Nat} (hw : HeapInv w) (hst : ∀ i ∈ stale, i < w.store.nsources)
    (e : openFile env fileName info sys create bk stale w = (r, w')) : Opened w r w' := by
  unfold openFile at e
  by_cases h₁ : (!w.fs.exists_ env info && !create) = true
  · rw [if_pos h₁] at e; cases e; exact .stay hw hst
  rw [if_neg h₁] at e
  by_cases h₂ : (!w.fs.dirs (env.absolutePath info) && !create) = true
  · rw [if_pos h₂] at e; cases e; exact .stay hw hst
  rw [if_neg h₂] at e
  dsimp only at e
  generalize (if w.fs.dirs (env.absolutePath info) = true then w.fs else _) = fs at e
  split at e
  · cases e
    exact ⟨hw.of_keeps (.of_store rfl rfl rfl), by simp, rfl, le_rfl, rfl, fun _ => .inl rfl, rfl,
      rfl, rfl⟩
  · next root hr =>
      simp only [Prod.mk.injEq] at e
      obtain ⟨rfl, rfl⟩ := e
      obtain ⟨hc, hg, hf, hv⟩ := loadRoot_ok hw.closed hr
      refine ⟨(hw.of_keeps (.of_store rfl rfl rfl : Keeps w { w with fs := fs })).addSource
        hc hg hf hv, by simp [World.addSource], rfl, by simp [World.addSource], rfl, fun i => ?_,
        rfl, rfl, rfl⟩
      by_cases hi : i = w.store.nsources
      · exact .inr ⟨hi.ge, by simp [World.addSource, hi]⟩
      · exact .inl (by simp [World.addSource, hi])

theorem cached_lt (hw : HeapInv w) {k : String} {i : Nat} (e : w.cached k = some i) :
    i < w.store.nsources :=
  hw.cache _ (QMap.mem_of_lookup e)

theorem probe_lt (hw : HeapInv w) {k : String} {i : Nat} (e : probe env w k = some i) :
    i < w.store.nsources := by
  unfold probe at e
  split at e
  · next j hj => split_ifs at e; cases e; exact cached_lt hw hj
  · cases e

/-- `ConfigSource::open`. -/
theorem openSource_inv {path : String} {sys create : Bool} {bk : Option Backend}
    (hw : HeapInv w) :
    Opened w (openSource env path sys create bk w).1 (openSource env path sys create bk w).2 := by
  have hst : ∀ k, ∀ i ∈ w.cached k, i < w.store.nsources := fun _ _ h => cached_lt hw h
  unfold openSource
  dsimp only
  repeat' split
  all_goals first
    | exact .none hw
    | exact .some hw (probe_lt hw ‹probe env w _ = some _›)
    | exact openFile_inv hw (hst _) rfl

/-- The opening loops collect distinct Sources that exist. -/
theorem openAll_inv (bk : Option Backend) :
    ∀ (ps : List (Bool × String)) {srcs : List Nat} {w : World}, HeapInv w →
      (∀ i ∈ srcs, i < w.store.nsources) → srcs.Nodup →
      Opened w none (openAll env bk ps srcs w).2 ∧
        (∀ i ∈ (openAll env bk ps srcs w).1, i < (openAll env bk ps srcs w).2.store.nsources) ∧
        (openAll env bk ps srcs w).1.Nodup
  | [], _, _, hw, hs, hn => ⟨.none hw, hs, hn⟩
  | (sys, path) :: rest, srcs, w, hw, hs, hn => by
      have o : Opened w (openSource env path sys srcs.isEmpty bk w).1
        (openSource env path sys srcs.isEmpty bk w).2 := openSource_inv hw
      have hs' : ∀ i ∈ srcs, i < (openSource env path sys srcs.isEmpty bk w).2.store.nsources :=
        fun i hi => lt_of_lt_of_le (hs i hi) o.mono
      simp only [openAll]
      split
      · next i hi =>
        split
        · obtain ⟨o', h₁, h₂⟩ := openAll_inv bk rest o.inv hs' hn
          exact ⟨o.trans o', h₁, h₂⟩
        · next hany =>
          have hnew : i ∉ srcs := fun hm => hany (List.any_eq_true.2 ⟨i, hm, beq_self_eq_true _⟩)
          obtain ⟨o', h₁, h₂⟩ := openAll_inv bk rest o.inv
            (by simpa [or_imp, forall_and] using ⟨hs', o.lt i (hi ▸ rfl)⟩)
            (List.nodup_append.2 ⟨hn, List.nodup_singleton i, by simpa using hnew⟩)
          exact ⟨o.trans o', h₁, h₂⟩
      · obtain ⟨o', h₁, h₂⟩ := openAll_inv bk rest o.inv hs' hn
        exact ⟨o.trans o', h₁, h₂⟩

/-- A tree loaded into a fresh region: the heap stays closed and the
root is the new region's. -/
theorem fresh_fromVariant {h : Heap} (hh : h.Closed) (v : Variant) (ro : Bool) :
    (h.newTree.1.fromVariant h.count v ro).2.Closed ∧
      h.Grows (h.newTree.1.fromVariant h.count v ro).2 ∧
      (h.newTree.1.fromVariant h.count v ro).2.Valid (h.newTree.1.fromVariant h.count v ro).1 := by
  obtain ⟨hl, hv⟩ := fromVariant_local (newTree_closed hh) (t := h.count) (by simp) v ro
  exact ⟨hl.closed, (newTree_grows h).trans hl.grows, hv⟩

/-- A level gains an atom of a region none of its atoms is in. -/
theorem ConfigLevel.OK.snoc {l : ConfigLevel} {h : Heap} (hl : l.OK h) {a : Ptr} (ha : h.Valid a)
    (hfresh : ∀ b ∈ l.atoms, b.tree ≠ a.tree) (e : Bool) : ConfigLevel.OK h ⟨l.atoms ++ [a], e⟩ := by
  refine ⟨fun b hb => ?_, ?_⟩
  · rcases List.mem_append.1 hb with hb | hb
    · exact hl.valid b hb
    · rw [List.mem_singleton.1 hb]; exact ha
  · simp only [List.map_append, List.map_cons, List.map_nil]
    refine List.nodup_append.2 ⟨hl.separate, List.nodup_singleton _, ?_⟩
    simpa using hfresh

/-- The fallback loop builds each tree in a region of its own. -/
theorem addFallbacks_ok : ∀ (vs : List Variant) {atoms : List Ptr} {h : Heap}, h.Closed →
    ConfigLevel.OK h ⟨atoms, false⟩ →
    (addFallbacks vs atoms h).2.Closed ∧ h.Grows (addFallbacks vs atoms h).2 ∧
      ConfigLevel.OK (addFallbacks vs atoms h).2 ⟨(addFallbacks vs atoms h).1, false⟩
  | [], _, h, hh, hl => ⟨hh, Grows.refl h, hl⟩
  | v :: vs, atoms, h, hh, hl => by
      obtain ⟨hc, hg, hv⟩ := fresh_fromVariant hh v true
      have hlg : ConfigLevel.OK _ ⟨atoms, false⟩ := hl.grow hg
      have hfresh : ∀ b ∈ atoms, b.tree ≠ h.count := fun b hb => (hl.valid b hb).1.ne
      simp only [addFallbacks, newTree_snd]
      split
      · obtain ⟨hc', hg', hl'⟩ := addFallbacks_ok vs hc hlg
        exact ⟨hc', hg.trans hg', hl'⟩
      · obtain ⟨hc', hg', hl'⟩ := addFallbacks_ok vs hc (hlg.snoc hv hfresh false)
        exact ⟨hc', hg.trans hg', hl'⟩

theorem HeapInv.setHeap (hw : HeapInv w) {h : Heap} (hh : h.Closed) (hg : w.store.heap.Grows h) :
    HeapInv (w.setHeap h) :=
  hw.of_grow hh hg (.withHeap _ _) rfl fun _ _ e => .inr e

/-- A cursor with one level and no parents. -/
theorem ConfigPrivate.OK.single {l : ConfigLevel} {h : Heap} (hl : l.OK h) (srcs : List Nat)
    (g : Option Nat) : ConfigPrivate.OK h ⟨l, [], srcs, g⟩ := by
  intro l' hl'
  rw [List.mem_singleton.1 hl']
  exact hl

/-- `ConfigPrivate(paths, fallbacks, backend)`. -/
theorem HeapInv.construct (hw : HeapInv w) (paths : List String) (fallbacks : List Variant)
    (bk : Option Backend) :
    HeapInv ((construct env paths fallbacks bk w).2.addConfig (construct env paths fallbacks bk w).1) := by
  obtain ⟨⟨ho, -⟩, hlt, hn⟩ := @openAll_inv env bk
    ((paths.map fun p => (false, p)) ++ (paths.map fun p => (true, p))) [] w hw (by simp)
    List.nodup_nil
  set o := openAll env bk ((paths.map fun p => (false, p)) ++ (paths.map fun p => (true, p))) [] w
  have hl : ConfigLevel.OK o.2.store.heap ⟨o.1.map fun i => (o.2.store.sources i).data, false⟩ := by
    refine ⟨fun a ha => ?_, ?_⟩
    · obtain ⟨i, hi, rfl⟩ := List.mem_map.1 ha
      exact ho.sources i (hlt i hi)
    · rw [List.map_map]
      exact hn.map_on fun i hi j hj e => ho.distinct i (hlt i hi) j (hlt j hj) e
  obtain ⟨hc, hg, hf⟩ := addFallbacks_ok fallbacks ho.closed hl
  exact (ho.setHeap hc hg).addConfig (ConfigPrivate.OK.single hf _ _)

/-- `Config(QVariantMap)` and `Config(QVariantList)`. -/
theorem HeapInv.constructFromTree (hw : HeapInv w) (v : Variant) :
    HeapInv ((constructFromTree v w).2.addConfig (constructFromTree v w).1) := by
  obtain ⟨hc, hg, hv⟩ := fresh_fromVariant hw.closed v false
  have hl : ConfigLevel.OK _ ⟨[(w.store.heap.newTree.1.fromVariant w.store.heap.count v false).1],
      false⟩ :=
    ⟨fun a ha => List.mem_singleton.1 ha ▸ hv, List.nodup_singleton _⟩
  exact (hw.setHeap hc hg).addConfig (ConfigPrivate.OK.single hl _ _)

-- ============================================================== steps

theorem HeapInv.release (hw : HeapInv w) (i : Nat) : HeapInv (w.release i) :=
  hw.of_grow hw.closed (Grows.refl _) (.refl _) rfl fun _ _ e => .inr (config_release e)

theorem HeapInv.expire (hw : HeapInv w) (key : String) : HeapInv (w.expire key) :=
  ⟨hw.closed, hw.configs, hw.sources, hw.distinct, fun e he => hw.cache e (QMap.mem_erase he)⟩

theorem keeps_destruct (w : World) (d : ConfigPrivate) : Keeps w (w.destruct d) := by
  unfold World.destruct
  split
  · exact keeps_syncConfig w d
  · exact .refl w

/-- Every action keeps the heap invariant. -/
theorem HeapInv.perform (hw : HeapInv w) {a : Action} (e : perform env cs w a = some w') :
    HeapInv w' := by
  have cfg := hw.configs
  cases a <;> simp only [QutimConfig.perform, World.destroy, Option.bind_eq_bind, Option.bind_eq_some,
    Option.pure_def, Option.some.injEq] at e
  case construct paths fallbacks bk =>
    exact e ▸ hw.construct paths fallbacks bk
  case fromTree v =>
    split at e <;> simp only [Option.some.injEq, reduceCtorEq] at e <;> exact e ▸ hw.constructFromTree _
  case beginGroup c name =>
    obtain ⟨d, hd, r, hr, rfl⟩ := e
    exact hw.of_heap (beginGroup_ok (cfg c d hd) hw.closed hr).1
  case endGroup c =>
    obtain ⟨d, hd, d', hd', rfl⟩ := e
    exact hw.of_heap (OpOK.refl hw.closed (endGroup_ok (cfg c d hd) hd'))
  case value c key dflt flags =>
    obtain ⟨d, hd, r, hr, rfl⟩ := e
    exact hw.of_heap (value_ok (cfg c d hd) hw.closed hr)
  case setValue c key v flags =>
    obtain ⟨d, hd, r, hr, rfl⟩ := e
    obtain ⟨o, hs⟩ := setValue_ok (cfg c d hd) hw.closed hr
    exact hw.of_cursor o.closed o.grows hs o.ok
  case remove c name =>
    obtain ⟨d, hd, s, hs, rfl⟩ := e
    obtain ⟨hc, hg, hdo⟩ := remove_ok hw.closed (cfg c d hd) hs
    exact hw.of_grow hc hg hdo rfl fun _ _ e => .inr e
  case removeAt c index =>
    obtain ⟨d, hd, r, hr, rfl⟩ := e
    obtain ⟨o, hs⟩ := removeAt_ok hw.closed (cfg c d hd) hr
    exact hw.of_cursor o.closed o.grows hs o.ok
  case beginArray c name =>
    obtain ⟨d, hd, r, hr, rfl⟩ := e
    exact hw.of_heap (beginArray_ok (cfg c d hd) hw.closed hr)
  case endArray c =>
    obtain ⟨d, hd, d', hd', rfl⟩ := e
    exact hw.of_heap (OpOK.refl hw.closed (endArray_ok (cfg c d hd) hd'))
  case setArrayIndex c index =>
    obtain ⟨d, hd, r, hr, rfl⟩ := e
    exact hw.of_heap (setArrayIndex_ok (cfg c d hd) hw.closed hr)
  case group c name =>
    obtain ⟨d, hd, r, hr, rfl⟩ := e
    obtain ⟨o, hp⟩ := group_ok (cfg c d hd) hw.closed hr
    exact (hw.of_heap o).addConfig hp
  case arrayElement c index =>
    obtain ⟨d, hd, r, hr, rfl⟩ := e
    have o := arrayElement_ok (cfg c d hd) hw.closed hr
    exact (hw.setHeap o.closed o.grows).addConfig o.ok
  case sync c =>
    obtain ⟨d, -, rfl⟩ := e
    exact hw.of_keeps (keeps_syncConfig w d)
  case destroy c =>
    obtain ⟨d, -, -, -, rfl⟩ := e
    exact (hw.of_keeps (keeps_destruct w d)).release c
  case dispatch =>
    simp only [World.dispatch] at e
    split_ifs at e
    split at e
    · cases e
    · next i rest _ =>
      cases e
      have k : Keeps w { w with events := rest } := .of_store rfl rfl rfl
      exact hw.of_keeps (k.trans (keeps_deliver _ i))
  case drain =>
    simp only [World.drain] at e
    split_ifs at e
    cases e
    have k : Keeps w { w with events := [] } := .of_store rfl rfl rfl
    exact hw.of_keeps ((k.trans (@keeps_deliverAll env w.events _)).trans (.of_store rfl rfl rfl))
  case expire key =>
    split_ifs at e
    cases e
    exact hw.expire key

theorem keeps_destroySource (w : World) (i : Nat) : Keeps w (w.destroySource env i) := by
  unfold World.destroySource
  split
  · exact (keeps_syncSource w i).trans (.of_store rfl rfl rfl)
  · exact .of_store rfl rfl rfl

theorem keeps_collect (w : World) : Keeps w (w.collect env) := by
  unfold World.collect
  generalize List.range w.store.nsources = is
  induction is generalizing w with
  | nil => exact .refl w
  | cons i is ih =>
      simp only [List.foldl_cons]
      refine Keeps.trans ?_ (ih _)
      unfold World.collectOne
      split
      · exact keeps_destroySource w i
      · exact .refl w

/-- Every step keeps the heap invariant. -/
theorem HeapInv.step (hw : HeapInv w) {a : Action} (e : step env cs w a = some w') :
    HeapInv w' := by
  simp only [QutimConfig.step, Option.map_eq_some'] at e
  obtain ⟨w₁, e, rfl⟩ := e
  exact (hw.perform e).of_keeps (keeps_collect w₁)

/-- The heap invariant holds in every reachable world. -/
theorem Reachable.heapInv (hr : Reachable env cs w) : HeapInv w := by
  induction hr with
  | init fs =>
    refine ⟨fun t => ?_, fun c d e => ?_, fun i hi => absurd hi (Nat.not_lt_zero i),
      fun i hi => absurd hi (Nat.not_lt_zero i), fun e he => absurd he (List.not_mem_nil e)⟩
    · exact Tree.closed_empty
    · simp [World.init, World.config] at e
  | step a _ e ih => exact ih.step e

end QutimConfig
