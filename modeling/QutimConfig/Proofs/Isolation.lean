/-
Cursors, Sources and regions across whole runs (config.cpp:364-461,
542-569, 682-1091).

# Isolation

A cursor points into the regions of its own Sources, or into regions
that are no Source's: its fallbacks, the tree of `Config(QVariantMap)`
(`Owned`). Every Source opens into a fresh region, and the fallbacks
after it, so this holds in every reachable world. A cursor operation
changes only regions its levels point into (`Confined`) and marks
dirty only the cursor's first Source; a cursor's `sync` and its
destructor post or save only its own. So an action through one `Config`
never changes the tree or the record of a Source it does not hold
(`cursor_isolated`), whichever files and cursors share the process.

# Lifetimes

A Source lives while a cursor, a posted save event or the cache holds
it (`QSharedPointer`); `collect` runs its destructor once nothing does.
Every Source a holder names exists and is alive, and none dies twice
(`Lifetimes`); the naming argument (Naming.lean) rests on it.
-/
import QutimConfig.Proofs.Cache

namespace QutimConfig

open World

-- ============================================ where a cursor points

namespace ConfigPrivate

variable {d d' : ConfigPrivate} {u : Nat}

/-- Cursor `d` points into region `u`: an atom of one of its levels
lies there. -/
def Points (d : ConfigPrivate) (u : Nat) : Prop :=
  ∃ l ∈ d.current :: d.parents, ∃ a ∈ l.atoms, a.tree = u

theorem points_current {a : Ptr} (ha : a ∈ d.current.atoms) : d.Points a.tree :=
  ⟨_, List.mem_cons_self _ _, a, ha, rfl⟩

theorem points_pop (e : d.pop = some d') (hp : d'.Points u) : d.Points u := by
  unfold pop at e
  split at e
  · cases e
  · next l ls hl =>
      cases e
      obtain ⟨l', hl', a, ha, rfl⟩ := hp
      exact ⟨l', by simp_all, a, ha, rfl⟩

theorem points_popElement (e : d.popElement = some d') (hp : d'.Points u) : d.Points u := by
  unfold popElement at e
  split at e
  · exact points_pop e hp
  · cases e; exact hp

theorem points_clone (g : Option Nat) (hp : { d.clone with memoryGuard := g }.Points u) :
    d.Points u := by
  obtain ⟨l, hl, a, ha, rfl⟩ := hp
  simp only [clone, List.mem_singleton] at hl
  subst hl
  exact points_current ha

end ConfigPrivate

open ConfigPrivate

-- ================================================ confined operations

/-- A cursor operation from `d` over `h` to `d'` over `h'` stays within
`d`'s regions: `d'` points only where `d` did, and every region `d` does
not point into is as it was. -/
structure Confined (h h' : Heap) (d d' : ConfigPrivate) : Prop where
  points : ∀ u, d'.Points u → d.Points u
  frame : ∀ u, ¬d.Points u → h'.trees u = h.trees u

namespace Confined

variable {h h₁ h' : Heap} {d d₁ d' : ConfigPrivate}

theorem refl (h : Heap) (d : ConfigPrivate) : Confined h h d d :=
  ⟨fun _ => id, fun _ _ => rfl⟩

theorem trans (c₁ : Confined h h₁ d d₁) (c₂ : Confined h₁ h' d₁ d') : Confined h h' d d' :=
  ⟨fun u hp => c₁.points u (c₂.points u hp),
    fun u hu => (c₂.frame u fun hp => hu (c₁.points u hp)).trans (c₁.frame u hu)⟩

/-- A step that only moves the cursor. -/
theorem stay (hp : ∀ u, d'.Points u → d.Points u) : Confined h h d d' :=
  ⟨hp, fun _ _ => rfl⟩

/-- A heap step that changes only the regions of the current level. -/
theorem ofLevel (hf : ∀ u, u ∉ d.current.atoms.map Ptr.tree → h'.trees u = h.trees u) :
    Confined h h' d d :=
  ⟨fun _ => id, fun u hu => hf u fun hm => by
    obtain ⟨a, ha, rfl⟩ := List.mem_map.1 hm
    exact hu (points_current ha)⟩

/-- A heap step that changes only the region of one current atom. -/
theorem ofAtom {a : Ptr} (ha : a ∈ d.current.atoms) (hf : ∀ u, u ≠ a.tree → h'.trees u = h.trees u) :
    Confined h h' d d :=
  ⟨fun _ => id, fun u hu => hf u fun e => hu (e ▸ points_current ha)⟩

/-- A new level reached from the current one by a level operation. -/
theorem push {l l' : ConfigLevel} (s : LevelStep h d.current h' l') (hl : l.atoms = l'.atoms) :
    Confined h h' d (d.push l) := by
  refine ⟨fun u ⟨k, hk, a, ha, hu⟩ => ?_, (ofLevel s.frame).frame⟩
  rcases List.mem_cons.1 hk with rfl | hk
  · rw [hl] at ha
    obtain ⟨b, hb, e⟩ := List.mem_map.1 (s.sub.subset (List.mem_map_of_mem Ptr.tree ha))
    exact hu ▸ e ▸ points_current hb
  · exact ⟨k, hk, a, ha, hu⟩

end Confined

section Cursor

variable {h h' : Heap} {d d' : ConfigPrivate}

theorem Heap.replace_frame {p : Ptr} {name : String} {v : Nat} {b : Bool}
    (e : h.replace p name v = some (b, h')) {u : Nat} (hu : u ≠ p.tree) : h'.trees u = h.trees u := by
  simp only [Heap.replace, Option.map_eq_some'] at e
  obtain ⟨_, -, e⟩ := e
  cases e
  exact Heap.update_trees_ne _ _ hu

theorem beginGroup_confined {name : String} (hd : d.OK h) (hh : h.Closed)
    (e : beginGroup name d h = some (d', h')) : Confined h h' d d' := by
  obtain ⟨-, l, rfl, s⟩ := beginGroup_ok hd hh e
  exact .push s rfl

theorem enterKey_confined {key : String} (hd : d.OK h) (hh : h.Closed)
    (e : enterKey key d h = some (d', h')) : Confined h h' d d' := by
  unfold enterKey at e
  split_ifs at e
  · cases e; exact .refl h d
  · exact beginGroup_confined hd hh e

theorem leaveKey_confined {key : String} (e : leaveKey key d = some d') : Confined h h d d' := by
  unfold leaveKey at e
  split_ifs at e
  · cases e; exact .refl h d
  · exact .stay fun _ => points_pop e

theorem value_confined {cs : CryptoService} {key : String} {dflt r : Variant} {flags : ValueFlags}
    (hd : d.OK h) (hh : h.Closed) (e : value cs key dflt flags d h = some (r, d', h')) :
    Confined h h' d d' := by
  unfold value at e
  split at e
  · simp only [Option.some.injEq, Prod.mk.injEq] at e
    obtain ⟨-, rfl, rfl⟩ := e
    exact .refl h d
  · simp only [Option.bind_eq_bind, Option.bind_eq_some, Option.pure_def, Option.some.injEq,
      Prod.mk.injEq] at e
    obtain ⟨⟨d₁, h₁⟩, e₁, ⟨r₂, h₂⟩, e₂, d₃, e₃, -, rfl, rfl⟩ := e
    have o₁ := enterKey_ok hd hh e₁
    obtain ⟨-, -, hf⟩ := valueLoop_ok _ _ o₁.closed o₁.ok.current.valid e₂
    exact (enterKey_confined hd hh e₁).trans ((Confined.ofLevel hf).trans (leaveKey_confined e₃))

theorem makeDirty_sources {s : Store} {i j : Nat} (hne : i ≠ j) :
    (s.makeDirty j).sources i = s.sources i := by
  simp [Store.makeDirty, Store.setSource, hne]

theorem setValue_confined {cs : CryptoService} {key : String} {v : Variant} {flags : ValueFlags}
    {s s' : Store} (hd : d.OK s.heap) (hh : s.heap.Closed)
    (e : setValue cs key v flags d s = some (d', s')) :
    Confined s.heap s'.heap d d' ∧ ∀ i ∉ d.sources, s'.sources i = s.sources i := by
  unfold setValue at e
  split at e
  · simp only [Option.some.injEq, Prod.mk.injEq] at e
    obtain ⟨rfl, rfl⟩ := e
    exact ⟨.refl _ _, fun _ _ => rfl⟩
  · simp only [Option.bind_eq_bind, Option.bind_eq_some, Option.guard_eq_some, Option.pure_def,
      Option.some.injEq, Prod.mk.injEq] at e
    obtain ⟨⟨d₁, h₁⟩, e₁, a, ha, -, -, ⟨b, h₃⟩, e₃, d₄, e₄, rfl, rfl⟩ := e
    refine ⟨?_, fun i hi => by
      rw [markWritten_sources, if_neg fun h => hi (List.mem_of_mem_head? h.1)]⟩
    simp only [markWritten_heap, Store.withHeap_heap]
    refine (enterKey_confined hd hh e₁).trans ((Confined.ofAtom (List.mem_of_mem_head? ha)
      fun u hu => ?_).trans (leaveKey_confined e₄))
    rw [Heap.replace_frame e₃ hu]
    exact Heap.update_trees_ne _ _ hu

theorem remove_confined {name : String} {s s' : Store} (hh : s.heap.Closed) (hd : d.OK s.heap)
    (e : remove name d s = some s') :
    Confined s.heap s'.heap d d ∧ ∀ i ∉ d.sources, s'.sources i = s.sources i := by
  simp only [remove, Option.bind_eq_bind, Option.bind_eq_some] at e
  obtain ⟨a, ha, ⟨b, h₁⟩, e₁, e₂⟩ := e
  have hl := Heap.remove_local hh (hd.current.valid a (List.mem_of_mem_head? ha)) e₁
  split at e₂
  · simp only [Option.bind_eq_bind, Option.bind_eq_some, Option.pure_def, Option.some.injEq] at e₂
    obtain ⟨j, hj, rfl⟩ := e₂
    exact ⟨.ofAtom (List.mem_of_mem_head? ha) hl.frame, fun i hi =>
      makeDirty_sources fun e => hi (e ▸ List.mem_of_mem_head? hj)⟩
  · simp only [Option.pure_def, Option.some.injEq] at e₂
    subst e₂
    exact ⟨.ofAtom (List.mem_of_mem_head? ha) hl.frame, fun _ _ => rfl⟩

theorem removeAt_confined {index : Int} {s s' : Store} (hh : s.heap.Closed) (hd : d.OK s.heap)
    (e : removeAt index d s = some (d', s')) :
    Confined s.heap s'.heap d d' ∧ ∀ i ∉ d.sources, s'.sources i = s.sources i := by
  simp only [removeAt, Option.bind_eq_bind, Option.bind_eq_some] at e
  obtain ⟨d₁, e₁, a, ha, ⟨b, h₁⟩, e₂, e₃⟩ := e
  have hl := Heap.removeAt_local hh ((popElement_ok hd e₁).current.valid a (List.mem_of_mem_head? ha)) e₂
  have c : Confined s.heap h₁ d d₁ :=
    (Confined.stay fun _ => points_popElement e₁).trans (.ofAtom (List.mem_of_mem_head? ha) hl.frame)
  have hs : d₁.sources = d.sources := ConfigPrivate.popElement_sources e₁
  split at e₃
  · simp only [Option.bind_eq_bind, Option.bind_eq_some, Option.pure_def, Option.some.injEq,
      Prod.mk.injEq] at e₃
    obtain ⟨j, hj, rfl, rfl⟩ := e₃
    exact ⟨c, fun i hi => makeDirty_sources fun e => hi (hs ▸ e ▸ List.mem_of_mem_head? hj)⟩
  · simp only [Option.pure_def, Option.some.injEq, Prod.mk.injEq] at e₃
    obtain ⟨rfl, rfl⟩ := e₃
    exact ⟨c, fun _ _ => rfl⟩

theorem beginArray_confined {name : String} {n : Nat} (hd : d.OK h) (hh : h.Closed)
    (e : beginArray name d h = some (n, d', h')) : Confined h h' d d' := by
  simp only [beginArray, Option.bind_eq_bind, Option.bind_eq_some, Option.guard_eq_some,
    Option.pure_def, Option.some.injEq, Prod.mk.injEq] at e
  obtain ⟨-, -, ⟨l₁, h₁⟩, e₁, ⟨l₂, h₂⟩, e₂, m, -, -, rfl, rfl⟩ := e
  have s₁ := childNames_step hd.current hh e₁
  exact .push (s₁.trans (ConfigLevel.map_step (convertCallback_ok .list) s₁.ok s₁.closed e₂)) rfl

theorem endArray_confined (e : endArray d = some d') : Confined h h d d' := by
  simp only [endArray, Option.bind_eq_bind, Option.bind_eq_some, Option.guard_eq_some] at e
  obtain ⟨-, -, d₁, e₁, -, -, e₂⟩ := e
  exact .stay fun _ hp => points_popElement e₁ (points_pop e₂ hp)

theorem setArrayIndex_confined {index : Int} (hd : d.OK h) (hh : h.Closed)
    (e : setArrayIndex index d h = some (d', h')) : Confined h h' d d' := by
  simp only [setArrayIndex, Option.bind_eq_bind, Option.bind_eq_some, Option.guard_eq_some,
    Option.pure_def, Option.some.injEq, Prod.mk.injEq] at e
  obtain ⟨d₁, e₁, a, -, -, -, ⟨l₁, h₁⟩, e₂, ⟨l₂, h₂⟩, e₃, rfl, rfl⟩ := e
  have s₁ := ConfigLevel.map_step (childAtCallback_ok index) (popElement_ok hd e₁).current hh e₂
  exact (Confined.stay fun _ => points_popElement e₁).trans
    (.push (s₁.trans (ConfigLevel.map_step (convertCallback_ok .map) s₁.ok s₁.closed e₃)) rfl)

theorem group_confined {name : String} {self : Nat} {p : ConfigPrivate} (hd : d.OK h)
    (hh : h.Closed) (e : group name self d h = some (p, d', h')) :
    Confined h h' d d' ∧ ∀ u, p.Points u → d.Points u := by
  simp only [group, Option.bind_eq_bind, Option.bind_eq_some, Option.guard_eq_some,
    Option.pure_def, Option.some.injEq, Prod.mk.injEq] at e
  obtain ⟨-, -, ⟨d₁, h₁⟩, e₁, d₂, e₂, rfl, rfl, rfl⟩ := e
  have c := beginGroup_confined hd hh e₁
  exact ⟨c.trans (.stay fun _ => points_pop e₂), fun u hp => c.points u (points_clone _ hp)⟩

theorem arrayElement_confined {index : Int} {self : Nat} {p : ConfigPrivate} (hd : d.OK h)
    (hh : h.Closed) (e : arrayElement index self d h = some (p, h')) : Confined h h' d p :=
  (Confined.stay fun _ => points_clone _).trans (setArrayIndex_confined (clone_ok hd _) hh e)

end Cursor

-- ============================================= actions through a cursor

/-- The cursor an action goes through, if any. -/
def Action.cursor : Action → Option Nat
  | .beginGroup c _ | .endGroup c | .value c _ _ _ | .setValue c _ _ _ | .remove c _
  | .removeAt c _ | .beginArray c _ | .endArray c | .setArrayIndex c _ | .group c _
  | .arrayElement c _ | .sync c | .destroy c => some c
  | .construct .. | .fromTree _ | .dispatch | .drain | .expire _ => none

namespace World

variable {w : World} {c c' : Nat} {d p : ConfigPrivate}

theorem config_setConfig_ne (hne : c' ≠ c) (d : ConfigPrivate) :
    (w.setConfig c d).config c' = w.config c' := by
  simp [config, setConfig, List.getElem?_set, Ne.symm hne]

theorem config_addConfig_of (e : w.config c' = some d) (p : ConfigPrivate) :
    (w.addConfig p).config c' = some d := by
  have hc : c' < w.configs.length := by
    by_contra hlt
    simp [config, List.getElem?_eq_none (not_lt.1 hlt)] at e
  simpa [config, addConfig, List.getElem?_append_left hc] using e

theorem config_release_ne (hne : c' ≠ c) : (w.release c).config c' = w.config c' := by
  simp [config, release, List.getElem?_set, Ne.symm hne]

end World

theorem ConfigPrivate.sync_spec (d : ConfigPrivate) (s : Store) :
    (∀ i ∉ d.sources, (d.sync s).1.sources i = s.sources i) ∧ ∀ j ∈ (d.sync s).2, j ∈ d.sources := by
  unfold ConfigPrivate.sync
  split
  · exact ⟨fun _ _ => rfl, fun _ h => absurd h (Option.not_mem_none _)⟩
  · next j hj =>
      have hm : j ∈ d.sources := List.mem_of_mem_head? hj
      dsimp only
      split
      · refine ⟨fun i hi => ?_, fun k hk => (Option.mem_some_iff.1 hk) ▸ hm⟩
        simp [Store.setSource, show i ≠ j from fun e => hi (e ▸ hm)]
      · exact ⟨fun _ _ => rfl, fun _ h => absurd h (Option.not_mem_none _)⟩

theorem ConfigPrivate.sync_fileName (d : ConfigPrivate) (s : Store) (i : Nat) :
    ((d.sync s).1.sources i).fileName = (s.sources i).fileName := by
  unfold ConfigPrivate.sync
  split
  · rfl
  · next j _ =>
      dsimp only
      split
      · by_cases h : i = j <;> simp [Store.setSource, h]
      · rfl

section Through

variable {env : Env} {cs : CryptoService} {w w₁ w' : World} {c : Nat} {d d' p : ConfigPrivate}

/-- What an action through cursor `c`, at `d`, does to the world: every
cursor is one that was there, or one over `d`'s Sources pointing where
`d` did; the other cursors stay; only the regions `d` points into and
the records of `d`'s Sources change, and no Source's file name; a new
event is for one of `d`'s Sources; the cache and the dead stay. -/
structure Through (c : Nat) (d : ConfigPrivate) (w w' : World) : Prop where
  configs : ∀ c' d', w'.config c' = some d' → (c' ≠ c ∧ w.config c' = some d') ∨
    (d'.sources = d.sources ∧ ∀ u, d'.Points u → d.Points u)
  others : ∀ c' d', c' ≠ c → w.config c' = some d' → w'.config c' = some d'
  frame : ∀ u, ¬d.Points u → w'.store.heap.trees u = w.store.heap.trees u
  nsources : w'.store.nsources = w.store.nsources
  data : ∀ i, (w'.store.sources i).data = (w.store.sources i).data
  records : ∀ i ∉ d.sources, w'.store.sources i = w.store.sources i
  names : ∀ i, (w'.store.sources i).fileName = (w.store.sources i).fileName
  events : w.events ⊆ w'.events ∧ ∀ i ∈ w'.events, i ∈ w.events ∨ i ∈ d.sources
  cache : w'.cache = w.cache
  freed : w'.freed = w.freed

namespace Through

/-- The cursor at `c` itself, where nothing else changes. -/
theorem self (hd : w.config c = some d) {c' : Nat} {d' : ConfigPrivate}
    (e : w.config c' = some d') : (c' ≠ c ∧ w.config c' = some d') ∨
      (d'.sources = d.sources ∧ ∀ u, d'.Points u → d.Points u) := by
  by_cases hc : c' = c
  · subst hc
    rw [hd] at e
    cases e
    exact .inr ⟨rfl, fun _ => id⟩
  · exact .inl ⟨hc, e⟩

/-- A store step through the cursor that leaves the cursor where it is. -/
theorem store {s : Store} (hd : w.config c = some d) (hc : Confined w.store.heap s.heap d d)
    (hds : w.store.DirtiesOnly s) (hrec : ∀ i ∉ d.sources, s.sources i = w.store.sources i) :
    Through c d w { w with store := s } :=
  ⟨fun _ _ e => self hd e, fun _ _ _ => id, hc.frame, hds.1,
    fun i => by rcases hds.2 i with h | h <;> rw [h], hrec, hds.fileName,
    ⟨List.Subset.refl _, fun _ h => .inl h⟩, rfl, rfl⟩

/-- A cursor operation: cursor `c` moves to `d'`, and the store to `s'`. -/
theorem cursor {s : Store} (hd : w.config c = some d) (hc : Confined w.store.heap s.heap d d')
    (hs : d'.sources = d.sources) (hds : w.store.DirtiesOnly s)
    (hrec : ∀ i ∉ d.sources, s.sources i = w.store.sources i) :
    Through c d w { w.setConfig c d' with store := s } := by
  refine ⟨fun c' d'' e => ?_, fun c' d'' hne e => ?_, hc.frame, hds.1,
    fun i => by rcases hds.2 i with h | h <;> rw [h], hrec, hds.fileName,
    ⟨List.Subset.refl _, fun _ h => .inl h⟩, rfl, rfl⟩
  · rcases World.config_setConfig e with ⟨-, rfl⟩ | e
    · exact .inr ⟨hs, hc.points⟩
    · exact self hd e
  · exact (World.config_setConfig_ne hne d').trans e

/-- A derived cursor joins, over `d`'s Sources and pointing where `d` did. -/
theorem addConfig (t : Through c d w w₁) (hs : p.sources = d.sources)
    (hp : ∀ u, p.Points u → d.Points u) : Through c d w (w₁.addConfig p) := by
  refine ⟨fun c' d'' e => ?_, fun c' d'' hne e => World.config_addConfig_of (t.others c' d'' hne e) p,
    t.frame, t.nsources, t.data, t.records, t.names, t.events, t.cache, t.freed⟩
  rcases World.config_addConfig e with ⟨-, rfl⟩ | e
  · exact .inr ⟨hs, hp⟩
  · exact t.configs c' d'' e

/-- The handle is released. -/
theorem release (t : Through c d w w₁) : Through c d w (w₁.release c) := by
  refine ⟨fun c' d'' e => ?_, fun c' d'' hne e => ?_, t.frame, t.nsources, t.data, t.records,
    t.names, t.events, t.cache, t.freed⟩
  · exact t.configs c' d'' (World.config_release e)
  · rw [World.config_release_ne hne]; exact t.others c' d'' hne e

theorem refl (hd : w.config c = some d) : Through c d w w :=
  ⟨fun _ _ e => self hd e, fun _ _ _ => id, fun _ _ => rfl, rfl, fun _ => rfl, fun _ _ => rfl,
    fun _ => rfl, ⟨List.Subset.refl _, fun _ h => .inl h⟩, rfl, rfl⟩

/-- `ConfigPrivate::sync` posts the cursor's first Source. -/
theorem syncConfig (hd : w.config c = some d) : Through c d w (w.syncConfig d) := by
  have k := keeps_syncConfig w d
  obtain ⟨hrec, hev⟩ := ConfigPrivate.sync_spec d w.store
  refine ⟨fun _ _ e => self hd (by rwa [config_of_configs k.configs] at e), fun _ _ _ e => by
    rwa [config_of_configs k.configs], fun _ _ => by rw [k.heap], k.nsources, k.data, hrec,
    d.sync_fileName w.store, ⟨List.subset_append_left _ _, fun i hi => ?_⟩, k.cache, rfl⟩
  rcases List.mem_append.1 hi with hi | hi
  · exact .inl hi
  · exact .inr (hev i (Option.mem_toList.1 hi))

/-- `~ConfigPrivate`. -/
theorem destruct (hd : w.config c = some d) : Through c d w (w.destruct d) := by
  unfold World.destruct
  split
  · exact syncConfig hd
  · exact refl hd

end Through

/-- An action through cursor `c`. -/
theorem perform_through (hw : HeapInv w) {a : Action} (ha : a.cursor = some c)
    (hd : w.config c = some d) (e : perform env cs w a = some w') : Through c d w w' := by
  have hok := hw.configs c d hd
  have hh := hw.closed
  cases a <;> simp only [Action.cursor, Option.some.injEq, reduceCtorEq] at ha <;> subst ha <;>
    simp only [QutimConfig.perform, World.destroy, hd, Option.bind_eq_bind, Option.some_bind,
      Option.bind_eq_some, Option.pure_def, Option.some.injEq] at e
  case beginGroup name =>
    obtain ⟨r, hr, rfl⟩ := e
    exact .cursor hd (beginGroup_confined hok hh hr) (beginGroup_sources hr) (.withHeap _ _)
      fun _ _ => rfl
  case endGroup =>
    obtain ⟨d', hd', rfl⟩ := e
    exact .cursor (s := w.store) hd (.stay fun _ => points_pop hd')
      (ConfigPrivate.pop_sources hd') (.refl _) fun _ _ => rfl
  case value key dflt flags =>
    obtain ⟨r, hr, rfl⟩ := e
    exact .cursor hd (value_confined hok hh hr) (value_sources hr) (.withHeap _ _) fun _ _ => rfl
  case setValue key v flags =>
    obtain ⟨r, hr, rfl⟩ := e
    obtain ⟨hc, hrec⟩ := setValue_confined hok hh hr
    exact .cursor hd hc (setValue_sources hr) (setValue_ok hok hh hr).2 hrec
  case remove name =>
    obtain ⟨s, hs, rfl⟩ := e
    obtain ⟨hc, hrec⟩ := remove_confined hh hok hs
    exact .store hd hc (remove_ok hh hok hs).2.2 hrec
  case removeAt index =>
    obtain ⟨r, hr, rfl⟩ := e
    obtain ⟨hc, hrec⟩ := removeAt_confined hh hok hr
    exact .cursor hd hc (removeAt_sources hr) (removeAt_ok hh hok hr).2 hrec
  case beginArray name =>
    obtain ⟨r, hr, rfl⟩ := e
    exact .cursor hd (beginArray_confined hok hh hr) (beginArray_sources hr) (.withHeap _ _)
      fun _ _ => rfl
  case endArray =>
    obtain ⟨d', hd', rfl⟩ := e
    exact .cursor (s := w.store) hd (endArray_confined hd') (endArray_sources hd') (.refl _)
      fun _ _ => rfl
  case setArrayIndex index =>
    obtain ⟨r, hr, rfl⟩ := e
    exact .cursor hd (setArrayIndex_confined hok hh hr) (setArrayIndex_sources hr)
      (.withHeap _ _) fun _ _ => rfl
  case group name =>
    obtain ⟨r, hr, rfl⟩ := e
    obtain ⟨hc, hp⟩ := group_confined hok hh hr
    exact (Through.cursor (s := w.store.withHeap r.2.2) hd hc (group_sources hr).2 (.withHeap _ _)
      fun _ _ => rfl).addConfig
      (group_sources hr).1 hp
  case arrayElement index =>
    obtain ⟨r, hr, rfl⟩ := e
    have hc := arrayElement_confined hok hh hr
    exact (Through.store (s := w.store.withHeap r.2) hd ⟨fun _ => id, hc.frame⟩ (.withHeap _ _)
      fun _ _ => rfl).addConfig
      (arrayElement_sources hr) hc.points
  case sync =>
    subst e
    exact .syncConfig hd
  case destroy =>
    obtain ⟨-, -, rfl⟩ := e
    exact (Through.destruct hd).release

end Through

-- =================================================== opening Sources

section Open

variable {env : Env} {w w₁ w₂ : World}

/-- What opening Sources adds: Sources past the old count, rooted in
regions past the old heap, and cache entries for them. -/
structure Fresh (w w' : World) : Prop where
  count : w.store.heap.count ≤ w'.store.heap.count
  roots : ∀ i, w.store.nsources ≤ i → i < w'.store.nsources →
    w.store.heap.count ≤ (w'.store.sources i).data.tree
  cache : ∀ e ∈ w'.cache, e ∈ w.cache ∨ w.store.nsources ≤ e.2

theorem Fresh.of_store {w' : World} (hs : w'.store = w.store) (hc : w'.cache = w.cache) :
    Fresh w w' :=
  ⟨hs ▸ le_rfl, fun _ h₁ h₂ => absurd (hs ▸ h₂) (not_lt.2 h₁), fun _ he => .inl (hc ▸ he)⟩

theorem Fresh.refl (w : World) : Fresh w w := .of_store rfl rfl

theorem Fresh.trans {r r' : Option Nat} (f₁ : Fresh w w₁) (o₁ : Opened w r w₁)
    (f₂ : Fresh w₁ w₂) (o₂ : Opened w₁ r' w₂) : Fresh w w₂ := by
  refine ⟨f₁.count.trans f₂.count, fun i h₁ h₂ => ?_, fun e he => ?_⟩
  · by_cases hi : i < w₁.store.nsources
    · rcases o₂.records i with h | ⟨h, -⟩
      · rw [h]; exact f₁.roots i h₁ hi
      · exact absurd hi (not_lt.2 h)
    · exact f₁.count.trans (f₂.roots i (not_lt.1 hi) h₂)
  · rcases f₂.cache e he with h | h
    · exact f₁.cache e h
    · exact .inr (o₁.mono.trans h)

theorem probe_mem {k : String} {i : Nat} (e : probe env w k = some i) : (k, i) ∈ w.cache := by
  unfold probe at e
  split at e
  · next j hj => split_ifs at e; cases e; exact QMap.mem_of_lookup hj
  · cases e

/-- `open` once the file is chosen: nothing, the stale entry, or a new
Source in a fresh region. -/
theorem openFile_fresh {fileName info : String} {sys create : Bool} {bk : Backend}
    {stale r : Option Nat} {w' : World} (hw : HeapInv w)
    (e : openFile env fileName info sys create bk stale w = (r, w')) :
    Fresh w w' ∧ ∀ i ∈ r, i ∈ stale ∨ w.store.nsources ≤ i := by
  unfold openFile at e
  by_cases h₁ : (!w.fs.exists_ env info && !create) = true
  · rw [if_pos h₁] at e; cases e; exact ⟨.refl w, fun i hi => .inl hi⟩
  rw [if_neg h₁] at e
  by_cases h₂ : (!w.fs.dirs (env.absolutePath info) && !create) = true
  · rw [if_pos h₂] at e; cases e; exact ⟨.refl w, fun i hi => .inl hi⟩
  rw [if_neg h₂] at e
  dsimp only at e
  generalize (if w.fs.dirs (env.absolutePath info) = true then w.fs else _) = fs at e
  split at e
  · cases e
    exact ⟨.of_store rfl rfl, fun _ h => absurd h (Option.not_mem_none _)⟩
  · next root hr =>
      simp only [Prod.mk.injEq] at e
      obtain ⟨rfl, rfl⟩ := e
      obtain ⟨-, hg, ht, -⟩ := loadRoot_ok hw.closed hr
      refine ⟨⟨hg.count, fun i h₁ h₂ => ?_, fun e he => ?_⟩, fun i hi => .inr ?_⟩
      · have hi : i = w.store.nsources := by simp only [World.addSource] at h₂; omega
        subst hi
        simp [World.addSource, ht]
      · simp only [World.addSource] at he
        rcases QMap.mem_insert he with rfl | he
        · exact .inr le_rfl
        · exact .inl he
      · cases hi; exact le_rfl

/-- `ConfigSource::open`: what it answers was cached, or is new. -/
theorem openSource_fresh {path : String} {sys create : Bool} {bk : Option Backend}
    (hw : HeapInv w) :
    Fresh w (openSource env path sys create bk w).2 ∧
      ∀ i ∈ (openSource env path sys create bk w).1,
        (∃ k, (k, i) ∈ w.cache) ∨ w.store.nsources ≤ i := by
  have hst : ∀ k i, i ∈ w.cached k → ∃ k, (k, i) ∈ w.cache := fun k _ h => ⟨k, QMap.mem_of_lookup h⟩
  unfold openSource
  dsimp only
  repeat' split
  all_goals first
    | exact ⟨.refl w, fun _ h => absurd h (Option.not_mem_none _)⟩
    | exact ⟨.refl w, fun _ h => by cases h; exact .inl ⟨_, probe_mem ‹probe env w _ = some _›⟩⟩
    | exact (openFile_fresh hw rfl).imp id fun h i hi => (h i hi).imp_left (hst _ i)

/-- The opening loops of `ConfigPrivate(paths, ...)`. -/
theorem openAll_fresh (bk : Option Backend) :
    ∀ (ps : List (Bool × String)) {srcs : List Nat} {w : World}, HeapInv w →
      (∀ i ∈ srcs, i < w.store.nsources) → srcs.Nodup →
      Fresh w (openAll env bk ps srcs w).2 ∧ ∀ i ∈ (openAll env bk ps srcs w).1,
        i ∈ srcs ∨ (∃ k, (k, i) ∈ w.cache) ∨ w.store.nsources ≤ i
  | [], _, w, _, _, _ => ⟨.refl w, fun _ hi => .inl hi⟩
  | (sys, path) :: rest, srcs, w, hw, hs, hn => by
      have o : Opened w (openSource env path sys srcs.isEmpty bk w).1
        (openSource env path sys srcs.isEmpty bk w).2 := openSource_inv hw
      have f : Fresh w (openSource env path sys srcs.isEmpty bk w).2 ∧
          ∀ i ∈ (openSource env path sys srcs.isEmpty bk w).1,
            (∃ k, (k, i) ∈ w.cache) ∨ w.store.nsources ≤ i := openSource_fresh hw
      have hs' : ∀ i ∈ srcs, i < (openSource env path sys srcs.isEmpty bk w).2.store.nsources :=
        fun i hi => lt_of_lt_of_le (hs i hi) o.mono
      have lift : ∀ i, (∃ k, (k, i) ∈ (openSource env path sys srcs.isEmpty bk w).2.cache) ∨
          (openSource env path sys srcs.isEmpty bk w).2.store.nsources ≤ i →
          (∃ k, (k, i) ∈ w.cache) ∨ w.store.nsources ≤ i := fun i h => by
        rcases h with ⟨k, hk⟩ | h
        · exact (f.1.cache _ hk).imp (fun h => ⟨k, h⟩) id
        · exact .inr (o.mono.trans h)
      simp only [openAll]
      split
      · next i hi =>
        split
        · obtain ⟨f', h'⟩ := openAll_fresh bk rest o.inv hs' hn
          exact ⟨f.1.trans o f' (openAll_inv bk rest o.inv hs' hn).1,
            fun j hj => (h' j hj).imp_right (lift j)⟩
        · next hany =>
          have hnew : i ∉ srcs := fun hm => hany (List.any_eq_true.2 ⟨i, hm, beq_self_eq_true _⟩)
          have hs'' : ∀ j ∈ srcs ++ [i], j < (openSource env path sys srcs.isEmpty bk w).2.store.nsources := by
            simpa [or_imp, forall_and] using ⟨hs', o.lt i (hi ▸ rfl)⟩
          have hn' : (srcs ++ [i]).Nodup :=
            List.nodup_append.2 ⟨hn, List.nodup_singleton i, by simpa using hnew⟩
          obtain ⟨f', h'⟩ := openAll_fresh bk rest o.inv hs'' hn'
          refine ⟨f.1.trans o f' (openAll_inv bk rest o.inv hs'' hn').1, fun j hj => ?_⟩
          rcases h' j hj with h | h
          · rcases List.mem_append.1 h with h | h
            · exact .inl h
            · rw [List.mem_singleton.1 h]; exact .inr (f.2 i (hi ▸ rfl))
          · exact .inr (lift j h)
      · obtain ⟨f', h'⟩ := openAll_fresh bk rest o.inv hs' hn
        exact ⟨f.1.trans o f' (openAll_inv bk rest o.inv hs' hn).1,
          fun j hj => (h' j hj).imp_right (lift j)⟩

/-- The fallback loop builds each tree in a region past the heap. -/
theorem addFallbacks_fresh : ∀ (vs : List Variant) {atoms : List Ptr} {h : Heap},
    ∀ a ∈ (addFallbacks vs atoms h).1, a ∈ atoms ∨ h.count ≤ a.tree
  | [], _, _, _, ha => .inl ha
  | v :: vs, atoms, h, a, ha => by
      simp only [addFallbacks, newTree_snd] at ha
      split at ha
      · exact (addFallbacks_fresh vs a ha).imp id fun h' => by simp at h'; omega
      · rcases addFallbacks_fresh vs a ha with h' | h'
        · rcases List.mem_append.1 h' with h' | h'
          · exact .inl h'
          · exact .inr (by rw [List.mem_singleton.1 h']; simp)
        · exact .inr (by simp at h'; omega)

end Open

-- ========================================================= ownership

/-- Every region a live cursor points into is the region of one of its
own Sources, or of no Source. -/
def Owned (w : World) : Prop :=
  ∀ c d, w.config c = some d → ∀ u, d.Points u →
    ∀ i < w.store.nsources, (w.store.sources i).data.tree = u → i ∈ d.sources

theorem ConfigPrivate.OK.points_lt {h : Heap} {d : ConfigPrivate} (hd : d.OK h) {u : Nat}
    (hp : d.Points u) : u < h.count := by
  obtain ⟨l, hl, a, ha, rfl⟩ := hp
  exact ((hd l hl).valid a ha).1

section Owned

variable {env : Env} {cs : CryptoService} {w w' : World} {c : Nat} {d : ConfigPrivate}

/-- A step that keeps the cursors and the Sources' roots. -/
theorem Owned.of_frame (ho : Owned w) (hc : w'.configs = w.configs)
    (hn : w'.store.nsources = w.store.nsources)
    (hdata : ∀ i, (w'.store.sources i).data = (w.store.sources i).data) : Owned w' := by
  intro c d hd u hp i hi hu
  rw [config_of_configs hc] at hd
  rw [hdata] at hu
  exact ho c d hd u hp i (hn ▸ hi) hu

theorem Owned.of_keeps (ho : Owned w) (k : Keeps w w') : Owned w' :=
  ho.of_frame k.configs k.nsources k.data

theorem Owned.through (ho : Owned w) (hd : w.config c = some d) (t : Through c d w w') :
    Owned w' := by
  intro c' d' hd' u hp i hi hu
  rw [t.nsources] at hi
  rw [t.data] at hu
  rcases t.configs c' d' hd' with ⟨-, e⟩ | ⟨hs, hpp⟩
  · exact ho c' d' e u hp i hi hu
  · exact hs ▸ ho c d hd u (hpp u hp) i hi hu

/-- A cursor over Sources opened after `w`, pointing at their roots and
at regions past the heap they were opened into, joins. -/
theorem Owned.addOpened (hw : HeapInv w) (ho : Owned w) {w₁ : World} (o : Opened w none w₁)
    (f : Fresh w w₁) {srcs : List Nat} (hlt : ∀ i ∈ srcs, i < w₁.store.nsources)
    {atoms : List Ptr} {h : Heap}
    (hat : ∀ a ∈ atoms, a ∈ srcs.map (fun i => (w₁.store.sources i).data) ∨
      w₁.store.heap.count ≤ a.tree) :
    Owned ((w₁.setHeap h).addConfig ⟨⟨atoms, false⟩, [], srcs, none⟩) := by
  intro c d hd u hp i hi hu
  change i < w₁.store.nsources at hi
  change (w₁.store.sources i).data.tree = u at hu
  rcases World.config_addConfig hd with ⟨-, rfl⟩ | hd
  · obtain ⟨l, hl, a, ha, rfl⟩ := hp
    simp only [List.mem_singleton] at hl
    subst hl
    rcases hat a ha with ha | ha
    · obtain ⟨j, hj, rfl⟩ := List.mem_map.1 ha
      rwa [o.inv.distinct i hi j (hlt j hj) hu]
    · exact absurd (o.inv.sources i hi).1 (by omega)
  · change w₁.config c = some d at hd
    rw [config_of_configs o.configs] at hd
    have hlt' := (hw.configs c d hd).points_lt hp
    by_cases hiw : i < w.store.nsources
    · rcases o.records i with h | ⟨h, -⟩
      · exact ho c d hd u hp i hiw (by rwa [← h])
      · omega
    · have := f.roots i (not_lt.1 hiw) hi
      omega

/-- `ConfigPrivate(paths, fallbacks, backend)`. -/
theorem Owned.construct (hw : HeapInv w) (ho : Owned w) (paths : List String)
    (fallbacks : List Variant) (bk : Option Backend) :
    Owned ((construct env paths fallbacks bk w).2.addConfig (construct env paths fallbacks bk w).1) := by
  obtain ⟨o, hlt, -⟩ := @openAll_inv env bk
    ((paths.map fun p => (false, p)) ++ (paths.map fun p => (true, p))) [] w hw (by simp)
    List.nodup_nil
  obtain ⟨f, -⟩ := @openAll_fresh env bk
    ((paths.map fun p => (false, p)) ++ (paths.map fun p => (true, p))) [] w hw (by simp)
    List.nodup_nil
  exact ho.addOpened hw o f hlt (addFallbacks_fresh fallbacks)

/-- `Config(QVariantMap)`: the new cursor points into a fresh region. -/
theorem Owned.constructFromTree (hw : HeapInv w) (ho : Owned w) (v : Variant) :
    Owned ((constructFromTree v w).2.addConfig (constructFromTree v w).1) :=
  ho.addOpened hw (.none hw) (.refl w) (fun _ h => absurd h (List.not_mem_nil _)) fun a ha => by
    rw [List.mem_singleton.1 ha]
    exact .inr (by simp)

/-- A cursor action that succeeds found its cursor. -/
theorem perform_config {a : Action} (ha : a.cursor = some c) (e : perform env cs w a = some w') :
    ∃ d, w.config c = some d := by
  cases hc : w.config c with
  | some d => exact ⟨d, rfl⟩
  | none =>
    cases a <;> simp only [Action.cursor, Option.some.injEq, reduceCtorEq] at ha <;> subst ha <;>
      simp [QutimConfig.perform, World.destroy, hc] at e

/-- An action through no cursor: a construction, the delivery of the
first posted event, the drain, or an expiry. -/
theorem perform_cursor_none {a : Action} (ha : a.cursor = none) (e : perform env cs w a = some w') :
    (∃ paths fallbacks bk, w' = (construct env paths fallbacks bk w).2.addConfig
      (construct env paths fallbacks bk w).1) ∨
    (∃ v, w' = (constructFromTree v w).2.addConfig (constructFromTree v w).1) ∨
    (∃ i rest, w.events = i :: rest ∧ w' = deliver env { w with events := rest } i) ∨
    w' = { deliverAll env w.events { w with events := [] } with drained := true } ∨
    ∃ key, w' = w.expire key := by
  cases a <;> simp only [Action.cursor, reduceCtorEq] at ha <;>
    simp only [QutimConfig.perform, Option.some.injEq] at e
  case construct paths fallbacks bk => exact .inl ⟨paths, fallbacks, bk, e.symm⟩
  case fromTree v =>
    split at e <;> simp only [Option.some.injEq, reduceCtorEq] at e
    all_goals exact .inr (.inl ⟨_, e.symm⟩)
  case dispatch =>
    simp only [World.dispatch] at e
    split_ifs at e
    split at e
    · cases e
    · next i rest he => exact .inr (.inr (.inl ⟨i, rest, he, (Option.some.inj e).symm⟩))
  case drain =>
    simp only [World.drain] at e
    split_ifs at e
    exact .inr (.inr (.inr (.inl (Option.some.inj e).symm)))
  case expire key =>
    split_ifs at e
    exact .inr (.inr (.inr (.inr ⟨key, (Option.some.inj e).symm⟩)))

theorem deliverAll_freed : ∀ (es : List Nat) (w : World), (deliverAll env es w).freed = w.freed
  | [], _ => rfl
  | i :: es, w => deliverAll_freed es (deliver env w i)

/-- Every action keeps the ownership of regions. -/
theorem Owned.perform (hw : HeapInv w) (ho : Owned w) {a : Action}
    (e : perform env cs w a = some w') : Owned w' := by
  cases ha : a.cursor with
  | some c =>
    obtain ⟨d, hd⟩ := perform_config ha e
    exact ho.through hd (perform_through hw ha hd e)
  | none =>
    rcases perform_cursor_none ha e with ⟨paths, fallbacks, bk, rfl⟩ | ⟨v, rfl⟩ | ⟨i, rest, -, rfl⟩ |
      rfl | ⟨key, rfl⟩
    · exact ho.construct hw paths fallbacks bk
    · exact ho.constructFromTree hw v
    · exact ho.of_keeps ((Keeps.of_store rfl rfl rfl : Keeps w { w with events := rest }).trans
        (keeps_deliver _ i))
    · have k := (Keeps.of_store rfl rfl rfl : Keeps w { w with events := [] }).trans
        (@keeps_deliverAll env w.events _)
      exact ho.of_frame k.configs k.nsources k.data
    · exact ho.of_frame rfl rfl fun _ => rfl

end Owned

-- ========================================================= lifetimes

/-- Every Source a cursor, a posted event or the cache holds exists and
is alive; every dead Source existed, and none died twice. -/
structure Lifetimes (w : World) : Prop where
  held : ∀ i, w.holds i = true → i < w.store.nsources ∧ i ∉ w.freed
  freed : ∀ i ∈ w.freed, i < w.store.nsources
  once : w.freed.Nodup

section Lifetimes

variable {env : Env} {cs : CryptoService} {w w₁ w' : World} {c i : Nat} {d : ConfigPrivate}

theorem World.holds_iff : w.holds i = true ↔
    ((∃ c d, w.config c = some d ∧ i ∈ d.sources) ∨ i ∈ w.events) ∨ ∃ k, (k, i) ∈ w.cache := by
  rw [holds_eq, Bool.or_eq_true, pinned_iff, List.any_eq_true]
  exact or_congr Iff.rfl ⟨fun ⟨⟨k, j⟩, hm, hj⟩ => ⟨k, (beq_iff_eq.1 hj) ▸ hm⟩,
    fun ⟨k, hk⟩ => ⟨(k, i), hk, beq_self_eq_true i⟩⟩

/-- A step whose cursors, events and cache entries were there before. -/
theorem holds_of_sub (h : w'.holds i = true) (hc : w'.configs = w.configs)
    (he : ∀ j ∈ w'.events, j ∈ w.events) (hk : ∀ e ∈ w'.cache, e ∈ w.cache) :
    w.holds i = true := by
  rw [holds_iff] at h ⊢
  simp only [config_of_configs hc] at h
  exact h.imp (Or.imp_right (he i)) fun ⟨k, hm⟩ => ⟨k, hk _ hm⟩

/-- A step that adds only Sources past the old count and kills none. -/
theorem Lifetimes.of_new (hl : Lifetimes w) (hn : w.store.nsources ≤ w'.store.nsources)
    (hf : w'.freed = w.freed)
    (hh : ∀ i, w'.holds i = true → w.holds i = true ∨ w.store.nsources ≤ i ∧ i < w'.store.nsources) :
    Lifetimes w' := by
  refine ⟨fun i hi => ?_, fun i hi => lt_of_lt_of_le (hl.freed i (hf ▸ hi)) hn, hf ▸ hl.once⟩
  rw [hf]
  rcases hh i hi with h | ⟨h₁, h₂⟩
  · exact (hl.held i h).imp (fun h => lt_of_lt_of_le h hn) id
  · exact ⟨h₂, fun hm => absurd (hl.freed i hm) (not_lt.2 h₁)⟩

theorem Through.holds (hd : w.config c = some d) (t : Through c d w w') (h : w'.holds i = true) :
    w.holds i = true := by
  rw [holds_iff] at h ⊢
  rcases h with (⟨c', d', e, hi⟩ | hi) | ⟨k, hk⟩
  · rcases t.configs c' d' e with ⟨-, e⟩ | ⟨hs, -⟩
    · exact .inl (.inl ⟨c', d', e, hi⟩)
    · exact .inl (.inl ⟨c, d, hd, hs ▸ hi⟩)
  · rcases t.events.2 i hi with hi | hi
    · exact .inl (.inr hi)
    · exact .inl (.inl ⟨c, d, hd, hi⟩)
  · exact .inr ⟨k, t.cache ▸ hk⟩

/-- A Source the action's cursor does not hold keeps a holder. -/
theorem Through.holds_of (hd : w.config c = some d) (t : Through c d w w') (hi : i ∉ d.sources)
    (h : w.holds i = true) : w'.holds i = true := by
  rw [holds_iff] at h ⊢
  rcases h with (⟨c', d', e, hm⟩ | hm) | ⟨k, hk⟩
  · have hne : c' ≠ c := by
      rintro rfl
      rw [hd] at e
      cases e
      exact hi hm
    exact .inl (.inl ⟨c', d', t.others c' d' hne e, hm⟩)
  · exact .inl (.inr (t.events.1 hm))
  · exact .inr ⟨k, t.cache.symm ▸ hk⟩

/-- A cursor over Sources opened after `w`, or found in its cache,
joins. -/
theorem Lifetimes.addOpened (hl : Lifetimes w) (o : Opened w none w₁) (f : Fresh w w₁)
    {srcs : List Nat} (hlt : ∀ i ∈ srcs, i < w₁.store.nsources)
    (hsrc : ∀ i ∈ srcs, i ∈ ([] : List Nat) ∨ (∃ k, (k, i) ∈ w.cache) ∨ w.store.nsources ≤ i)
    {atoms : List Ptr} {h : Heap} :
    Lifetimes ((w₁.setHeap h).addConfig ⟨⟨atoms, false⟩, [], srcs, none⟩) := by
  refine hl.of_new o.mono o.freed fun i hi => ?_
  rw [holds_iff] at hi
  rcases hi with (⟨c, d, e, hm⟩ | hm) | ⟨k, hk⟩
  · rcases World.config_addConfig e with ⟨-, rfl⟩ | e
    · rcases hsrc i hm with h | h | h
      · exact absurd h (List.not_mem_nil _)
      · exact .inl (holds_iff.2 (.inr h))
      · exact .inr ⟨h, hlt i hm⟩
    · change w₁.config c = some d at e
      rw [config_of_configs o.configs] at e
      exact .inl (holds_iff.2 (.inl (.inl ⟨c, d, e, hm⟩)))
  · exact .inl (holds_iff.2 (.inl (.inr (o.events ▸ hm))))
  · rcases f.cache _ hk with h | h
    · exact .inl (holds_iff.2 (.inr ⟨k, h⟩))
    · exact .inr ⟨h, o.inv.cache _ hk⟩

/-- Every action keeps the lifetimes. -/
theorem Lifetimes.perform (hw : HeapInv w) (hl : Lifetimes w) {a : Action}
    (e : perform env cs w a = some w') : Lifetimes w' := by
  cases ha : a.cursor with
  | some c =>
    obtain ⟨d, hd⟩ := perform_config ha e
    have t := perform_through hw ha hd e
    exact hl.of_new t.nsources.ge t.freed fun i h => .inl (t.holds hd h)
  | none =>
    rcases perform_cursor_none ha e with ⟨paths, fallbacks, bk, rfl⟩ | ⟨v, rfl⟩ | ⟨i, rest, he, rfl⟩ |
      rfl | ⟨key, rfl⟩
    · obtain ⟨o, hlt, -⟩ := @openAll_inv env bk
        ((paths.map fun p => (false, p)) ++ (paths.map fun p => (true, p))) [] w hw (by simp)
        List.nodup_nil
      obtain ⟨f, hsrc⟩ := @openAll_fresh env bk
        ((paths.map fun p => (false, p)) ++ (paths.map fun p => (true, p))) [] w hw (by simp)
        List.nodup_nil
      exact hl.addOpened o f hlt hsrc
    · exact hl.addOpened (.none hw) (.refl w) (fun _ h => absurd h (List.not_mem_nil _))
        fun _ h => absurd h (List.not_mem_nil _)
    · have k := (Keeps.of_store rfl rfl rfl : Keeps w { w with events := rest }).trans
        (@keeps_deliver env _ i)
      exact hl.of_new k.nsources.ge rfl fun j h => .inl (holds_of_sub h k.configs
        (fun j hj => by rw [he]; exact List.mem_cons_of_mem i hj) fun _ h => k.cache ▸ h)
    · have k := (Keeps.of_store rfl rfl rfl : Keeps w { w with events := [] }).trans
        (@keeps_deliverAll env w.events _)
      have hev := (@deliverAll_keeps env w.events { w with events := [] }).1
      exact hl.of_new k.nsources.ge (deliverAll_freed _ _) fun j h => .inl (holds_of_sub h k.configs
        (fun j hj => by simp [hev] at hj) fun _ h => k.cache ▸ h)
    · exact hl.of_new le_rfl rfl fun j h => .inl (holds_of_sub h rfl (fun _ => id)
        fun _ h => QMap.mem_erase h)

theorem Lifetimes.collectOne (hl : Lifetimes w) (hi : i < w.store.nsources) :
    Lifetimes (w.collectOne env i) := by
  rcases collectOne_cases w i with ⟨hf, hh, he⟩ | ⟨-, he⟩ <;> rw [he]
  · have c := @collects_destroySource env w i
    refine ⟨fun j hj => ?_, fun j hj => ?_, ?_⟩
    · rw [c.holds] at hj
      have hne : j ≠ i := by rintro rfl; rw [hh] at hj; cases hj
      obtain ⟨h₁, h₂⟩ := hl.held j hj
      rw [destroySource_freed]
      exact ⟨c.nsources ▸ h₁, by simp [h₂, hne]⟩
    · rw [destroySource_freed] at hj
      rcases List.mem_append.1 hj with hj | hj
      · exact c.nsources ▸ hl.freed j hj
      · rw [List.mem_singleton.1 hj]; exact c.nsources ▸ hi
    · rw [destroySource_freed]
      exact List.nodup_append.2 ⟨hl.once, List.nodup_singleton _, by simpa using hf⟩
  · exact hl

theorem Lifetimes.fold : ∀ (is : List Nat) {w : World}, Lifetimes w →
    (∀ i ∈ is, i < w.store.nsources) → Lifetimes (is.foldl (World.collectOne env) w)
  | [], _, hl, _ => hl
  | i :: is, w, hl, hi => Lifetimes.fold is (hl.collectOne (hi i (.head _))) fun j hj =>
      (collects_collectOne w i).nsources ▸ hi j (.tail _ hj)

theorem Lifetimes.collect (hl : Lifetimes w) : Lifetimes (w.collect env) :=
  hl.fold _ fun _ hi => List.mem_range.1 hi

/-- The destructors leave the record of a Source that was dead or held. -/
theorem fold_sources_of_kept : ∀ (is : List Nat) (w : World), (i ∈ w.freed ∨ w.holds i = true) →
    (is.foldl (collectOne env) w).store.sources i = w.store.sources i
  | [], _, _ => rfl
  | j :: is, w, hk => by
    have c := @collects_collectOne env w j
    rw [List.foldl_cons,
      fold_sources_of_kept is _ (hk.imp (fun h => c.freed h) fun h => (c.holds i).trans h)]
    rcases collectOne_cases w j with ⟨hf, hh, he⟩ | ⟨-, he⟩
    · rw [he]
      refine destroySource_sources w fun e => ?_
      subst e
      rcases hk with h | h
      · exact hf h
      · rw [hh] at h; cases h
    · rw [he]

end Lifetimes

-- ====================================================== over runs

section Runs

variable {env : Env} {cs : CryptoService} {w w' : World} {c : Nat} {d : ConfigPrivate}

theorem Reachable.owned (hr : Reachable env cs w) : Owned w := by
  induction hr with
  | init fs => intro c d e; simp [World.config, World.init] at e
  | step a hr e ih =>
    simp only [QutimConfig.step, Option.map_eq_some'] at e
    obtain ⟨w₁, e, rfl⟩ := e
    exact (ih.perform hr.heapInv e).of_keeps (keeps_collect w₁)

theorem Reachable.lifetimes (hr : Reachable env cs w) : Lifetimes w := by
  induction hr with
  | init fs =>
    exact ⟨fun i h => by simp [World.holds, World.init] at h, fun i h => by simp [World.init] at h,
      List.nodup_nil⟩
  | step a hr e ih =>
    simp only [QutimConfig.step, Option.map_eq_some'] at e
    obtain ⟨w₁, e, rfl⟩ := e
    exact (ih.perform hr.heapInv e).collect

/-- In every reachable world, an action through `Config` handle `c`
changes neither the record nor the saved tree of a Source its cursor
does not hold: the Sources of other files, and those only other cursors
hold, are as they were, whatever the action does to its own. -/
theorem cursor_isolated (hr : Reachable env cs w) (hd : w.config c = some d) {a : Action}
    (ha : a.cursor = some c) (e : step env cs w a = some w') {i : Nat}
    (hi : i < w.store.nsources) (hni : i ∉ d.sources) :
    w'.store.sources i = w.store.sources i ∧ w'.sourceTree i = w.sourceTree i := by
  simp only [QutimConfig.step, Option.map_eq_some'] at e
  obtain ⟨w₁, e, rfl⟩ := e
  have t := perform_through hr.heapInv ha hd e
  have hkept : i ∈ w₁.freed ∨ w₁.holds i = true := by
    rw [t.freed]
    exact (hr.collected i hi).imp id (t.holds_of hd hni)
  have hrec : (w₁.collect env).store.sources i = w.store.sources i :=
    (fold_sources_of_kept _ w₁ hkept).trans (t.records i hni)
  refine ⟨hrec, ?_⟩
  rw [World.sourceTree, World.sourceTree, (keeps_collect w₁).heap, hrec]
  exact Heap.materialize_congr (t.frame _ fun hp => hni (hr.owned c d hd _ hp i hi rfl))

/-- Two writable files. -/
def twoFiles : FileSystem :=
  .ofList [("home/a.json", ⟨.map [], 0, true⟩),
    ("home/b.json", ⟨.map [("k", .scalar (.int 1))], 0, true⟩)]

/-- A read through a `Config` over `a` (which inserts `k` into its own
Source) leaves the Source of the `Config` over `b` alone. -/
theorem cursor_isolated_read :
    ∃ w w' d, run Env.sample ⟨id, id⟩ (World.init twoFiles)
        [.construct ["a"] [] none, .construct ["b"] [] none] = some w ∧ w.config 0 = some d ∧
      step Env.sample ⟨id, id⟩ w (.value 0 "k" .invalid ⟨false⟩) = some w' ∧
      w'.store.sources 1 = w.store.sources 1 ∧ w'.sourceTree 1 = w.sourceTree 1 :=
  ⟨_, _, _, rfl, rfl, rfl, cursor_isolated (c := 0) (a := .value 0 "k" .invalid ⟨false⟩) (Reachable.run (.init twoFiles)
    (rfl : run Env.sample ⟨id, id⟩ (World.init twoFiles)
      [.construct ["a"] [] none, .construct ["b"] [] none] = _)) rfl rfl rfl (by decide)
    (by decide)⟩

end Runs

end QutimConfig
