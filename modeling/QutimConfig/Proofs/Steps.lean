/-
What one step of the process can do (config.cpp:393-438, 542-569,
741-1086), said once, so that every invariant over runs is a short case
analysis over `perform_cases`.

# Calm steps

Every public `Config` operation on a live cursor, and the constructors
from a tree, are calm (`Calm`): they leave the queue, the saves, the
drain flag, the cache, the files and the dead alone, change the
Sources' records only by setting dirty bits, and give a cursor only
Sources an old cursor held. Every other action is a construction, a
sync or destruction, a delivery, the drain or a cache expiry.

# Destructors

`collect` changes nothing a holder sees (`Collects`); it saves only
Sources that were alive, held by nothing and dirty (`collect_saves`),
and afterwards every Source is dead or held (`collected_collect`).
-/
import QutimConfig.Proofs.Effects

namespace QutimConfig

open World

variable {env : Env} {cs : CryptoService} {w w' : World}

-- ============================================= cursors keep Sources

section Sources

variable {d d' p : ConfigPrivate} {h h' : Heap}

/-- `beginGroup` keeps the cursor's Sources. -/
theorem beginGroup_sources {name : String} (e : beginGroup name d h = some (d', h')) :
    d'.sources = d.sources := by
  simp only [beginGroup, Option.bind_eq_bind, Option.bind_eq_some, Option.guard_eq_some,
    Option.pure_def, Option.some.injEq, Prod.mk.injEq] at e
  obtain ⟨-, -, -, -, _, -, _, -, rfl, -⟩ := e
  rfl

/-- Entering a key's group part keeps the cursor's Sources. -/
theorem enterKey_sources {key : String} (e : enterKey key d h = some (d', h')) :
    d'.sources = d.sources := by
  unfold enterKey at e
  split_ifs at e
  · cases e; rfl
  · exact beginGroup_sources e

/-- Leaving a key's group part keeps the cursor's Sources. -/
theorem leaveKey_sources {key : String} (e : leaveKey key d = some d') : d'.sources = d.sources := by
  unfold leaveKey at e
  split_ifs at e
  · cases e; rfl
  · exact ConfigPrivate.pop_sources e

/-- `value` keeps the cursor's Sources. -/
theorem value_sources {key : String} {dflt r : Variant} {flags : ValueFlags}
    (e : value cs key dflt flags d h = some (r, d', h')) : d'.sources = d.sources := by
  unfold value at e
  split at e
  · simp only [Option.some.injEq, Prod.mk.injEq] at e
    obtain ⟨-, rfl, -⟩ := e
    rfl
  · simp only [Option.bind_eq_bind, Option.bind_eq_some, Option.pure_def, Option.some.injEq,
      Prod.mk.injEq] at e
    obtain ⟨_, e₁, _, -, _, e₃, -, rfl, -⟩ := e
    exact (leaveKey_sources e₃).trans (enterKey_sources e₁)

/-- `setValue` keeps the cursor's Sources. -/
theorem setValue_sources {key : String} {v : Variant} {flags : ValueFlags} {s s' : Store}
    (e : setValue cs key v flags d s = some (d', s')) : d'.sources = d.sources := by
  unfold setValue at e
  split at e
  · simp only [Option.some.injEq, Prod.mk.injEq] at e
    obtain ⟨rfl, -⟩ := e
    rfl
  · simp only [Option.bind_eq_bind, Option.bind_eq_some, Option.guard_eq_some, Option.pure_def,
      Option.some.injEq, Prod.mk.injEq] at e
    obtain ⟨_, e₁, -, -, -, -, -, -, _, e₄, rfl, -⟩ := e
    exact (leaveKey_sources e₄).trans (enterKey_sources e₁)

/-- `remove(int)` keeps the cursor's Sources. -/
theorem removeAt_sources {index : Int} {s s' : Store} (e : removeAt index d s = some (d', s')) :
    d'.sources = d.sources := by
  simp only [removeAt, Option.bind_eq_bind, Option.bind_eq_some] at e
  obtain ⟨d₁, e₁, _, -, _, -, e₂⟩ := e
  split at e₂ <;> simp only [Option.bind_eq_some, Option.pure_def, Option.some.injEq,
    Prod.mk.injEq] at e₂
  · obtain ⟨-, -, rfl, -⟩ := e₂
    exact ConfigPrivate.popElement_sources e₁
  · obtain ⟨rfl, -⟩ := e₂
    exact ConfigPrivate.popElement_sources e₁

/-- `beginArray` keeps the cursor's Sources. -/
theorem beginArray_sources {name : String} {n : Nat} (e : beginArray name d h = some (n, d', h')) :
    d'.sources = d.sources := by
  simp only [beginArray, Option.bind_eq_bind, Option.bind_eq_some, Option.guard_eq_some,
    Option.pure_def, Option.some.injEq, Prod.mk.injEq] at e
  obtain ⟨-, -, _, -, _, -, _, -, -, rfl, -⟩ := e
  rfl

/-- `endArray` keeps the cursor's Sources. -/
theorem endArray_sources (e : endArray d = some d') : d'.sources = d.sources := by
  simp only [endArray, Option.bind_eq_bind, Option.bind_eq_some, Option.guard_eq_some] at e
  obtain ⟨-, -, d₁, e₁, -, -, e₂⟩ := e
  exact (ConfigPrivate.pop_sources e₂).trans (ConfigPrivate.popElement_sources e₁)

/-- `setArrayIndex` keeps the cursor's Sources. -/
theorem setArrayIndex_sources {index : Int} (e : setArrayIndex index d h = some (d', h')) :
    d'.sources = d.sources := by
  simp only [setArrayIndex, Option.bind_eq_bind, Option.bind_eq_some, Option.guard_eq_some,
    Option.pure_def, Option.some.injEq, Prod.mk.injEq] at e
  obtain ⟨d₁, e₁, _, -, _, -, _, -, _, -, hd, -⟩ := e
  rw [← hd, ConfigPrivate.push_sources]
  exact ConfigPrivate.popElement_sources e₁

/-- Both cursors `group` leaves hold the Sources of the old one. -/
theorem group_sources {name : String} {self : Nat} (e : group name self d h = some (p, d', h')) :
    p.sources = d.sources ∧ d'.sources = d.sources := by
  simp only [group, Option.bind_eq_bind, Option.bind_eq_some, Option.guard_eq_some,
    Option.pure_def, Option.some.injEq, Prod.mk.injEq] at e
  obtain ⟨-, -, ⟨d₁, h₁⟩, e₁, d₂, e₂, rfl, rfl, -⟩ := e
  have h₁ : d₁.sources = d.sources := beginGroup_sources e₁
  exact ⟨h₁, (ConfigPrivate.pop_sources e₂).trans h₁⟩

/-- The cursor `arrayElement` gives holds the Sources of the old one. -/
theorem arrayElement_sources {index : Int} {self : Nat} (e : arrayElement index self d h = some (p, h')) :
    p.sources = d.sources :=
  setArrayIndex_sources (d := { d.clone with memoryGuard := some self }) e

end Sources

-- ====================================================== calm steps

section Calm

variable {w₁ w₂ : World} {c : Nat} {d d' p : ConfigPrivate}

/-- Setting dirty bits leaves the event-loop flags alone. -/
theorem Store.DirtiesOnly.isAtLoop {s s' : Store} (hs : s.DirtiesOnly s') (i : Nat) :
    (s'.sources i).isAtLoop = (s.sources i).isAtLoop := by
  rcases hs.2 i with h | h <;> rw [h]

/-- Setting dirty bits twice only sets dirty bits. -/
theorem Store.DirtiesOnly.trans {s s' s'' : Store} (h₁ : s.DirtiesOnly s') (h₂ : s'.DirtiesOnly s'') :
    s.DirtiesOnly s'' := by
  refine ⟨h₂.1.trans h₁.1, fun i => ?_⟩
  rcases h₂.2 i with h | h <;> rw [h] <;> rcases h₁.2 i with h' | h' <;> rw [h'] <;>
    first | exact .inl rfl | exact .inr rfl

/-- Equal cursor tables look a cursor up alike. -/
theorem config_of_configs (h : w'.configs = w.configs) (c : Nat) : w'.config c = w.config c := by
  simp only [World.config, h]

/-- A step that touches only the heap, dirty bits and the cursors, and
gives a cursor only Sources an old cursor held. -/
structure Calm (w w' : World) : Prop where
  events : w'.events = w.events
  saves : w'.saves = w.saves
  drained : w'.drained = w.drained
  cache : w'.cache = w.cache
  fs : w'.fs = w.fs
  freed : w'.freed = w.freed
  store : w.store.DirtiesOnly w'.store
  cursors : ∀ c d, w'.config c = some d → ∀ i ∈ d.sources,
    ∃ c₀ d₀, w.config c₀ = some d₀ ∧ i ∈ d₀.sources

/-- Setting dirty bits in the store is calm. -/
theorem Calm.of_store {s : Store} (hs : w.store.DirtiesOnly s) : Calm w { w with store := s } :=
  ⟨rfl, rfl, rfl, rfl, rfl, rfl, hs, fun c d e _ hi => ⟨c, d, e, hi⟩⟩

/-- Replacing the heap is calm. -/
theorem Calm.setHeap (w : World) (h : Heap) : Calm w (w.setHeap h) :=
  .of_store (Store.DirtiesOnly.withHeap _ _)

/-- Replacing a cursor by one over the same Sources is calm. -/
theorem Calm.setConfig (hd : w.config c = some d) (hs : d'.sources = d.sources) :
    Calm w (w.setConfig c d') := by
  refine ⟨rfl, rfl, rfl, rfl, rfl, rfl, Store.DirtiesOnly.refl _, fun j e he i hi => ?_⟩
  rcases config_setConfig he with ⟨-, rfl⟩ | he
  · exact ⟨c, d, hd, hs ▸ hi⟩
  · exact ⟨j, e, he, hi⟩

/-- Two calm steps one after the other are calm. -/
theorem Calm.trans (l₁ : Calm w w₁) (l₂ : Calm w₁ w₂) : Calm w w₂ := by
  refine ⟨l₂.events.trans l₁.events, l₂.saves.trans l₁.saves, l₂.drained.trans l₁.drained,
    l₂.cache.trans l₁.cache, l₂.fs.trans l₁.fs, l₂.freed.trans l₁.freed, l₁.store.trans l₂.store,
    fun c d e i hi => ?_⟩
  obtain ⟨c₁, d₁, e₁, h₁⟩ := l₂.cursors c d e i hi
  exact l₁.cursors c₁ d₁ e₁ i h₁

/-- A new cursor over Sources an old cursor held. -/
theorem Calm.addConfig (l : Calm w w₁)
    (hp : ∀ i ∈ p.sources, ∃ c₀ d₀, w.config c₀ = some d₀ ∧ i ∈ d₀.sources) :
    Calm w (w₁.addConfig p) := by
  refine ⟨l.events, l.saves, l.drained, l.cache, l.fs, l.freed, l.store, fun j e he i hi => ?_⟩
  rcases config_addConfig he with ⟨-, rfl⟩ | he
  · exact hp i hi
  · exact l.cursors j e he i hi

end Calm

-- ============================================== what a step can do

/-- Every action is calm, a construction, a sync or a destruction, the
delivery of the first posted event, the drain, or an expiry. -/
theorem perform_cases (hw : HeapInv w) {a : Action} (e : perform env cs w a = some w') :
    Calm w w' ∨
    (∃ paths fallbacks bk, w' = (construct env paths fallbacks bk w).2.addConfig
      (construct env paths fallbacks bk w).1) ∨
    (∃ c d, w.config c = some d ∧ (w' = w.syncConfig d ∨ w' = (w.destruct d).release c)) ∨
    (w.drained = false ∧ ∃ i rest, w.events = i :: rest ∧
      w' = deliver env { w with events := rest } i) ∨
    (w.drained = false ∧ w' = { deliverAll env w.events { w with events := [] } with drained := true }) ∨
    (∃ key, a = .expire key ∧ (w.cached key).isSome ∧ w' = w.expire key) := by
  have cfg := hw.configs
  cases a <;> simp only [QutimConfig.perform, World.destroy, Option.bind_eq_bind, Option.bind_eq_some,
    Option.pure_def, Option.some.injEq] at e
  case construct paths fallbacks bk =>
    exact .inr (.inl ⟨paths, fallbacks, bk, e.symm⟩)
  case fromTree v =>
    split at e <;> simp only [Option.some.injEq, reduceCtorEq] at e <;> subst e <;>
      exact .inl ((Calm.setHeap _ _).addConfig fun i hi => absurd hi (List.not_mem_nil i))
  case beginGroup c name =>
    obtain ⟨d, hd, r, hr, rfl⟩ := e
    exact .inl ((Calm.setConfig hd (beginGroup_sources hr)).trans (.setHeap _ _))
  case endGroup c =>
    obtain ⟨d, hd, d', hd', rfl⟩ := e
    exact .inl (Calm.setConfig hd (ConfigPrivate.pop_sources hd'))
  case value c key dflt flags =>
    obtain ⟨d, hd, r, hr, rfl⟩ := e
    exact .inl ((Calm.setConfig hd (value_sources hr)).trans (.setHeap _ _))
  case setValue c key v flags =>
    obtain ⟨d, hd, r, hr, rfl⟩ := e
    exact .inl ((Calm.setConfig hd (setValue_sources hr)).trans
      (.of_store (setValue_ok (cfg c d hd) hw.closed hr).2))
  case remove c name =>
    obtain ⟨d, hd, s, hs, rfl⟩ := e
    exact .inl (.of_store (remove_ok hw.closed (cfg c d hd) hs).2.2)
  case removeAt c index =>
    obtain ⟨d, hd, r, hr, rfl⟩ := e
    exact .inl ((Calm.setConfig hd (removeAt_sources hr)).trans
      (.of_store (removeAt_ok hw.closed (cfg c d hd) hr).2))
  case beginArray c name =>
    obtain ⟨d, hd, r, hr, rfl⟩ := e
    exact .inl ((Calm.setConfig hd (beginArray_sources hr)).trans (.setHeap _ _))
  case endArray c =>
    obtain ⟨d, hd, d', hd', rfl⟩ := e
    exact .inl (Calm.setConfig hd (endArray_sources hd'))
  case setArrayIndex c index =>
    obtain ⟨d, hd, r, hr, rfl⟩ := e
    exact .inl ((Calm.setConfig hd (setArrayIndex_sources hr)).trans (.setHeap _ _))
  case group c name =>
    obtain ⟨d, hd, r, hr, rfl⟩ := e
    obtain ⟨hp, hs⟩ := group_sources hr
    exact .inl (((Calm.setConfig hd hs).trans (.setHeap _ _)).addConfig fun i hi =>
      ⟨c, d, hd, hp ▸ hi⟩)
  case arrayElement c index =>
    obtain ⟨d, hd, r, hr, rfl⟩ := e
    exact .inl ((Calm.setHeap _ _).addConfig fun i hi => ⟨c, d, hd, arrayElement_sources hr ▸ hi⟩)
  case sync c =>
    obtain ⟨d, hd, rfl⟩ := e
    exact .inr (.inr (.inl ⟨c, d, hd, .inl rfl⟩))
  case destroy c =>
    obtain ⟨d, hd, -, -, rfl⟩ := e
    exact .inr (.inr (.inl ⟨c, d, hd, .inr rfl⟩))
  case dispatch =>
    simp only [World.dispatch] at e
    split_ifs at e with hd
    split at e
    · cases e
    · next i rest he =>
      cases e
      exact .inr (.inr (.inr (.inl ⟨by simpa using hd, i, rest, he, rfl⟩)))
  case drain =>
    simp only [World.drain] at e
    split_ifs at e with hd
    cases e
    exact .inr (.inr (.inr (.inr (.inl ⟨by simpa using hd, rfl⟩))))
  case expire key =>
    split_ifs at e with hk
    cases e
    exact .inr (.inr (.inr (.inr (.inr ⟨key, rfl, hk, rfl⟩))))

/-- A Source with a pending save is held. -/
theorem holds_of_mem_events {i : Nat} (h : i ∈ w.events) : w.holds i = true := by
  simp [World.holds, h]

-- ===================================================== Source saves

@[simp] theorem syncSource_isAtLoop (w : World) (i j : Nat) :
    ((w.syncSource env i).store.sources j).isAtLoop = (w.store.sources j).isAtLoop := by
  by_cases h : j = i <;> simp [World.syncSource, Store.setSource, h]

@[simp] theorem syncSource_events (w : World) (i : Nat) : (w.syncSource env i).events = w.events :=
  rfl

@[simp] theorem syncSource_saves (w : World) (i : Nat) :
    (w.syncSource env i).saves = w.saves ++ [(i, w.sourceTree i)] := rfl

-- ============================================ Sources that die

section Collect

variable {i j : Nat} {w₁ : World}

/-- What a Source's death keeps: everything but its record, the file
system, the saves and the list of the dead, which only grows. -/
structure Collects (w w' : World) : Prop where
  configs : w'.configs = w.configs
  events : w'.events = w.events
  cache : w'.cache = w.cache
  drained : w'.drained = w.drained
  nsources : w'.store.nsources = w.store.nsources
  atLoop : ∀ j, (w'.store.sources j).isAtLoop = (w.store.sources j).isAtLoop
  freed : w.freed ⊆ w'.freed

/-- Letting nothing go keeps everything a holder sees. -/
theorem Collects.refl (w : World) : Collects w w :=
  ⟨rfl, rfl, rfl, rfl, rfl, fun _ => rfl, List.Subset.refl _⟩

/-- Two rounds of destruction keep what one does. -/
theorem Collects.trans (c₁ : Collects w w₁) (c₂ : Collects w₁ w') : Collects w w' :=
  ⟨c₂.configs.trans c₁.configs, c₂.events.trans c₁.events, c₂.cache.trans c₁.cache,
    c₂.drained.trans c₁.drained, c₂.nsources.trans c₁.nsources,
    fun j => (c₂.atLoop j).trans (c₁.atLoop j), c₁.freed.trans c₂.freed⟩

/-- Destruction does not change which Sources are held. -/
theorem Collects.holds (c : Collects w w') (i : Nat) : w'.holds i = w.holds i := by
  simp only [World.holds, c.configs, c.events, c.cache]

/-- Destroying one Source keeps everything a holder sees. -/
theorem collects_destroySource (w : World) (i : Nat) : Collects w (w.destroySource env i) := by
  unfold World.destroySource
  split
  · exact ⟨rfl, rfl, rfl, rfl, rfl, fun j => syncSource_isAtLoop w i j,
      List.subset_append_left _ _⟩
  · exact ⟨rfl, rfl, rfl, rfl, rfl, fun _ => rfl, List.subset_append_left _ _⟩

/-- A Source's destructor saves its tree if, and only if, it is dirty. -/
theorem destroySource_saves (w : World) (i : Nat) :
    (w.destroySource env i).saves =
      w.saves ++ if (w.store.sources i).dirty then [(i, w.sourceTree i)] else [] := by
  unfold World.destroySource
  split <;> simp_all

/-- A Source's destructor leaves the other Sources' records alone. -/
theorem destroySource_sources (w : World) (h : j ≠ i) :
    (w.destroySource env i).store.sources j = w.store.sources j := by
  unfold World.destroySource
  split <;> simp [World.syncSource, Store.setSource, h]

@[simp] theorem destroySource_freed (w : World) (i : Nat) :
    (w.destroySource env i).freed = w.freed ++ [i] := by
  unfold World.destroySource
  split <;> rfl

/-- A Source's turn destroys it if it is alive and held by nothing, and otherwise does nothing. -/
theorem collectOne_cases (w : World) (i : Nat) :
    (i ∉ w.freed ∧ w.holds i = false ∧ w.collectOne env i = w.destroySource env i) ∨
      ((i ∈ w.freed ∨ w.holds i = true) ∧ w.collectOne env i = w) := by
  unfold World.collectOne
  by_cases hf : i ∈ w.freed <;> cases hh : w.holds i <;> simp [hf, hh]

/-- A Source's turn keeps everything a holder sees. -/
theorem collects_collectOne (w : World) (i : Nat) : Collects w (w.collectOne env i) := by
  rcases collectOne_cases w i with ⟨-, -, he⟩ | ⟨-, he⟩ <;> rw [he]
  · exact collects_destroySource w i
  · exact .refl w

/-- After its turn, a Source is dead or held. -/
theorem collectOne_done (w : World) (i : Nat) :
    i ∈ (w.collectOne env i).freed ∨ (w.collectOne env i).holds i = true := by
  rcases collectOne_cases w i with ⟨-, -, he⟩ | ⟨h, he⟩ <;> rw [he]
  · simp
  · exact h

/-- A run of turns keeps everything a holder sees. -/
theorem collects_fold : ∀ (is : List Nat) (w : World), Collects w (is.foldl (collectOne env) w)
  | [], w => .refl w
  | i :: is, w => (collects_collectOne w i).trans (collects_fold is _)

/-- `collect` keeps everything a holder sees. -/
theorem collects_collect (w : World) : Collects w (w.collect env) := collects_fold _ w

/-- The saves made while Sources die: each one of a Source that was
alive, held by nothing, and dirty. -/
theorem fold_saves : ∀ (is : List Nat) (w : World), ∃ L,
    (is.foldl (collectOne env) w).saves = w.saves ++ L ∧
      ∀ p ∈ L, p.1 ∈ is ∧ p.1 ∉ w.freed ∧ w.holds p.1 = false ∧ (w.store.sources p.1).dirty = true
  | [], w => ⟨[], by simp⟩
  | i :: is, w => by
    obtain ⟨L, hL, hp⟩ := fold_saves is (w.collectOne env i)
    rw [List.foldl_cons, hL]
    rcases @collectOne_cases env w i with ⟨hf, hh, he⟩ | ⟨-, he⟩ <;> rw [he] at hp ⊢
    · have c : Collects w (w.destroySource env i) := collects_destroySource w i
      refine ⟨_, by rw [destroySource_saves, List.append_assoc], fun p hm => ?_⟩
      rcases List.mem_append.1 hm with hm | hm
      · split_ifs at hm with hd
        · obtain rfl := List.mem_singleton.1 hm
          exact ⟨List.mem_cons_self _ _, hf, hh, hd⟩
        · exact absurd hm (List.not_mem_nil _)
      · obtain ⟨h₁, h₂, h₃, h₄⟩ := hp p hm
        have hne : p.1 ≠ i := fun h => h₂ (by simp [h])
        rw [destroySource_sources w hne] at h₄
        exact ⟨List.mem_cons_of_mem i h₁, fun h => h₂ (c.freed h), c.holds p.1 ▸ h₃, h₄⟩
    · exact ⟨L, rfl, fun p hm => (hp p hm).imp (List.mem_cons_of_mem i) id⟩

/-- Each save made by `collect` is of a Source that was alive, held by nothing and dirty. -/
theorem collect_saves (w : World) : ∃ L, (w.collect env).saves = w.saves ++ L ∧
    ∀ p ∈ L, p.1 < w.store.nsources ∧ p.1 ∉ w.freed ∧ w.holds p.1 = false ∧
      (w.store.sources p.1).dirty = true :=
  (fold_saves _ w).imp fun _ h => ⟨h.1, fun p hm => (h.2 p hm).imp_left List.mem_range.1⟩

/-- After `collect`, every Source is dead or held. -/
def Collected (w : World) : Prop := ∀ i < w.store.nsources, i ∈ w.freed ∨ w.holds i = true

/-- After a run of turns, every Source that had one is dead or held. -/
theorem fold_collected : ∀ (is : List Nat) (w : World) (i : Nat), i ∈ is →
    i ∈ (is.foldl (collectOne env) w).freed ∨ (is.foldl (collectOne env) w).holds i = true
  | [], _, _, h => absurd h (List.not_mem_nil _)
  | j :: is, w, i, h => by
    rcases List.mem_cons.1 h with rfl | h
    · have c : Collects (w.collectOne env i) (is.foldl (collectOne env) (w.collectOne env i)) :=
        collects_fold is _
      exact (collectOne_done w i).imp (fun h => c.freed h) fun h => (c.holds i).trans h
    · exact fold_collected is _ i h

/-- After `collect`, every Source is dead or held. -/
theorem collected_collect (w : World) : Collected (w.collect env) := fun i hi =>
  fold_collected _ w i (List.mem_range.2 ((collects_collect w).nsources ▸ hi))

end Collect

end QutimConfig
