/-
The save machinery (config.cpp:364-391, 523-576, 741-758).
`ConfigPrivate::sync` posts one `PostConfigSaveEvent` for the first
Source when it is dirty and not already at the loop, clearing `dirty`
and setting `isAtLoop`; `PostConfigSaver::event` saves the Source and
clears `isAtLoop`; `cleanup`, the post routine, delivers what is
pending; a Source that dies dirty saves in its destructor.

`SaverInv` ties the `isAtLoop` bits to the queue: a Source's bit is set
exactly while an event for it is pending, so no Source has two, and a
delivered event saves its Source once (`saver_pending`).

The drain (`PostConfigSaver::cleanup`) delivers the pending events in
the order they were posted, each saving its Source with the tree it has
then (`drain_saves`). `ConfigPrivate::sync` leaves its first Source
queued when it was dirty or queued already (`syncConfig_queued`), so a
write synced before the drain is saved at the drain, with the tree as it
stands (`synced_write_saved_by_drain`).

After the drain nothing delivers a pending event, and the event holds
its Source, so a Source whose event is posted after the drain is never
saved again (`pending_never_saved`). `ConfigPrivate::sync` cleared its
dirty bit when it posted, so its destructor, whenever the process lets
go of the event, would not save it either: a write synced after the
drain is lost (`write_lost_after_drain`).
-/
import QutimConfig.Proofs.Steps

namespace QutimConfig

open World

variable {env : Env} {cs : CryptoService} {w w' : World}

-- =================================================== record updates

section Records

variable {i j : Nat}

theorem deliver_isAtLoop (w : World) (i j : Nat) :
    ((w.deliver env i).store.sources j).isAtLoop =
      if j = i then false else (w.store.sources j).isAtLoop := by
  by_cases h : j = i
  · subst h; simp [World.deliver, Store.setSource]
  · simp [World.deliver, Store.setSource, h]

@[simp] theorem deliver_events (w : World) (i : Nat) : (w.deliver env i).events = w.events := rfl

theorem deliverAll_isAtLoop : ∀ (es : List Nat) (w : World) (j : Nat),
    ((deliverAll env es w).store.sources j).isAtLoop =
      if j ∈ es then false else (w.store.sources j).isAtLoop
  | [], w, j => by simp [deliverAll]
  | i :: es, w, j => by
      rw [deliverAll, deliverAll_isAtLoop es, deliver_isAtLoop]
      by_cases h : j = i <;> by_cases h' : j ∈ es <;> simp [h, h']

theorem deliverAll_keeps : ∀ (es : List Nat) (w : World),
    (deliverAll env es w).events = w.events ∧ (deliverAll env es w).configs = w.configs ∧
      (deliverAll env es w).store.nsources = w.store.nsources
  | [], w => ⟨rfl, rfl, rfl⟩
  | i :: es, w => by
      obtain ⟨h₁, h₂, h₃⟩ := deliverAll_keeps es (w.deliver env i)
      exact ⟨h₁, h₂, h₃⟩

end Records

-- ==================================================== local steps

section Local

variable {w₁ w₂ : World} {p : ConfigPrivate}

/-- What a step that neither syncs nor delivers does to the saver's
state: the queue, the saves and the drain flag stay; Sources may be
added, with clear bits; a Source a cursor holds exists or was a
cursor's before. -/
structure Local (w w' : World) : Prop where
  events : w'.events = w.events
  saves : w'.saves = w.saves
  drained : w'.drained = w.drained
  mono : w.store.nsources ≤ w'.store.nsources
  atLoop : ∀ i, (w'.store.sources i).isAtLoop = (w.store.sources i).isAtLoop ∨
    w.store.nsources ≤ i ∧ (w'.store.sources i).isAtLoop = false
  cursors : ∀ c d, w'.config c = some d → ∀ i ∈ d.sources,
    i < w'.store.nsources ∨ ∃ c₀ d₀, w.config c₀ = some d₀ ∧ i ∈ d₀.sources

theorem Local.of_calm (l : Calm w w') : Local w w' :=
  ⟨l.events, l.saves, l.drained, l.store.1.ge, fun i => .inl (l.store.isAtLoop i),
    fun c d e i hi => .inr (l.cursors c d e i hi)⟩

theorem Local.trans (l₁ : Local w w₁) (l₂ : Local w₁ w₂) : Local w w₂ := by
  refine ⟨l₂.events.trans l₁.events, l₂.saves.trans l₁.saves, l₂.drained.trans l₁.drained,
    l₁.mono.trans l₂.mono, fun i => ?_, fun c d e i hi => ?_⟩
  · rcases l₂.atLoop i with h₂ | ⟨hn, hb⟩
    · rcases l₁.atLoop i with h₁ | ⟨hn, hb⟩
      · exact .inl (h₂.trans h₁)
      · exact .inr ⟨hn, h₂ ▸ hb⟩
    · exact .inr ⟨l₁.mono.trans hn, hb⟩
  · rcases l₂.cursors c d e i hi with h | ⟨c₁, d₁, e₁, h₁⟩
    · exact .inl h
    · exact (l₁.cursors c₁ d₁ e₁ i h₁).imp_left fun h => lt_of_lt_of_le h l₂.mono

/-- A new cursor whose Sources exist or are a cursor's. -/
theorem Local.addConfig (l : Local w w₁)
    (hp : ∀ i ∈ p.sources, i < w₁.store.nsources ∨ ∃ c₀ d₀, w.config c₀ = some d₀ ∧ i ∈ d₀.sources) :
    Local w (w₁.addConfig p) := by
  refine ⟨l.events, l.saves, l.drained, l.mono, l.atLoop, fun j e he i hi => ?_⟩
  rcases config_addConfig he with ⟨-, rfl⟩ | he
  · exact hp i hi
  · exact l.cursors j e he i hi

theorem Local.of_opened {r : Option Nat} (o : Opened w r w') : Local w w' :=
  ⟨o.events, o.saves, o.drained, o.mono, fun i => (o.records i).imp (congrArg _) id,
    fun c d e _ hi => .inr ⟨c, d, (config_of_configs o.configs c) ▸ e, hi⟩⟩

/-- `ConfigPrivate(paths, fallbacks, backend)` opens Sources with clear
bits and holds only Sources that exist. -/
theorem Local.construct (hw : HeapInv w) (paths : List String) (fallbacks : List Variant)
    (bk : Option Backend) :
    Local w ((construct env paths fallbacks bk w).2.addConfig (construct env paths fallbacks bk w).1) := by
  obtain ⟨o, hlt, -⟩ := @openAll_inv env bk
    ((paths.map fun p => (false, p)) ++ (paths.map fun p => (true, p))) [] w hw (by simp)
    List.nodup_nil
  exact ((Local.of_opened o).trans (.of_calm (.setHeap _ _))).addConfig fun i hi => .inl (hlt i hi)

end Local

-- ==================================================== the invariant

/-- The queue and the `isAtLoop` bits agree, and every Source a cursor
or an event names exists. -/
structure SaverInv (w : World) : Prop where
  nodup : w.events.Nodup
  atLoop : ∀ i, (w.store.sources i).isAtLoop = true ↔ i ∈ w.events
  events : ∀ i ∈ w.events, i < w.store.nsources
  cursors : ∀ c d, w.config c = some d → ∀ i ∈ d.sources, i < w.store.nsources

theorem SaverInv.of_local (hw : SaverInv w) (l : Local w w') : SaverInv w' := by
  refine ⟨l.events ▸ hw.nodup, fun i => ?_, fun i hi => ?_, fun c d e i hi => ?_⟩
  · rw [l.events]
    rcases l.atLoop i with h | ⟨hn, hb⟩
    · rw [h]; exact hw.atLoop i
    · simp only [hb, Bool.false_eq_true, false_iff]
      exact fun hm => absurd (hw.events i hm) (not_lt.2 hn)
  · exact lt_of_lt_of_le (hw.events i (l.events ▸ hi)) l.mono
  · rcases l.cursors c d e i hi with h | ⟨c₀, d₀, e₀, h₀⟩
    · exact h
    · exact lt_of_lt_of_le (hw.cursors c₀ d₀ e₀ i h₀) l.mono

/-- A step that keeps the queue, the bits, the number of Sources and
the cursors. -/
theorem SaverInv.of_same (hw : SaverInv w) (hn : w'.store.nsources = w.store.nsources)
    (he : w'.events = w.events)
    (ha : ∀ i, (w'.store.sources i).isAtLoop = (w.store.sources i).isAtLoop)
    (hc : ∀ c d, w'.config c = some d → w.config c = some d) : SaverInv w' :=
  ⟨he ▸ hw.nodup, fun i => by rw [ha, he]; exact hw.atLoop i,
    fun i hi => hn ▸ hw.events i (he ▸ hi), fun c d e i hi => hn ▸ hw.cursors c d (hc c d e) i hi⟩

/-- `ConfigPrivate::sync`: the post happens only when the bit is clear,
so no second event is queued, and the bit is set with it. -/
theorem SaverInv.syncConfig (hw : SaverInv w) {c : Nat} {d : ConfigPrivate}
    (hd : w.config c = some d) : SaverInv (w.syncConfig d) := by
  unfold World.syncConfig ConfigPrivate.sync
  split
  · exact hw.of_same rfl (by simp) (fun _ => rfl) fun _ _ => id
  · next i hi =>
    dsimp only
    split
    · next hb =>
      have hnot : i ∉ w.events := fun hm => by
        simp only [Bool.and_eq_true, Bool.not_eq_true'] at hb
        simp [(hw.atLoop i).2 hm] at hb
      refine ⟨by simpa using hw.nodup.append (List.nodup_singleton i) (by simpa using hnot),
        fun j => ?_, fun j hj => ?_, fun c' d' e j' hj' => hw.cursors c' d' e j' hj'⟩
      · by_cases hj : j = i
        · subst hj; simp [Store.setSource]
        · simpa [Store.setSource, hj] using hw.atLoop j
      · simp only [Option.toList_some, List.mem_append, List.mem_singleton] at hj
        rcases hj with hj | hj
        · exact hw.events j hj
        · exact hj ▸ hw.cursors c d hd i (List.mem_of_mem_head? hi)
    · exact hw.of_same rfl (by simp) (fun _ => rfl) fun _ _ => id

theorem SaverInv.destroy (hw : SaverInv w) {c : Nat} {d : ConfigPrivate}
    (hd : w.config c = some d) : SaverInv ((w.destruct d).release c) := by
  have hw' : SaverInv (w.destruct d) := by
    unfold World.destruct
    split
    · exact hw.syncConfig hd
    · exact hw
  exact hw'.of_same rfl rfl (fun _ => rfl) fun _ _ => config_release

/-- `PostConfigSaver::event` clears the bit of the event it takes off
the queue, and only that one. -/
theorem SaverInv.dispatch (hw : SaverInv w) {i : Nat} {rest : List Nat} (he : w.events = i :: rest) :
    SaverInv (deliver env { w with events := rest } i) := by
  obtain ⟨hn, hr⟩ := List.nodup_cons.1 (he ▸ hw.nodup)
  refine ⟨hr, fun j => ?_, fun j hj => hw.events j (he ▸ List.mem_cons_of_mem i hj),
    hw.cursors⟩
  rw [deliver_isAtLoop, deliver_events]
  by_cases hj : j = i
  · subst hj; simp [hn]
  · simpa [he, hj] using hw.atLoop j

/-- The drain empties the queue and clears every bit. -/
theorem SaverInv.drain (hw : SaverInv w) :
    SaverInv { deliverAll env w.events { w with events := [] } with drained := true } := by
  obtain ⟨he, hc, hn⟩ := @deliverAll_keeps env w.events { w with events := [] }
  refine ⟨by simp [he], fun j => ?_, fun j hj => by simp [he] at hj, fun c d e i hi => ?_⟩
  · simp only [deliverAll_isAtLoop, he, List.not_mem_nil, iff_false]
    split_ifs with hj
    · simp
    · exact fun h => hj ((hw.atLoop j).1 h)
  · exact hn ▸ hw.cursors c d ((config_of_configs hc c).symm.trans e) i hi

theorem SaverInv.perform (hw : SaverInv w) (hh : HeapInv w) {a : Action}
    (e : perform env cs w a = some w') : SaverInv w' := by
  rcases perform_cases hh e with l | ⟨paths, fb, bk, rfl⟩ | ⟨c, d, hd, rfl | rfl⟩ |
    ⟨-, i, rest, he, rfl⟩ | ⟨-, rfl⟩ | ⟨key, -, -, rfl⟩
  · exact hw.of_local (.of_calm l)
  · exact hw.of_local (.construct hh paths fb bk)
  · exact hw.syncConfig hd
  · exact hw.destroy hd
  · exact hw.dispatch he
  · exact hw.drain
  · exact hw.of_same rfl rfl (fun _ => rfl) fun _ _ => id

theorem SaverInv.collect (hw : SaverInv w) : SaverInv (w.collect env) :=
  have c : Collects w (w.collect env) := collects_collect w
  hw.of_same c.nsources c.events c.atLoop fun k _ e => (config_of_configs c.configs k) ▸ e

-- ======================================================== over runs

theorem Reachable.saverInv (hr : Reachable env cs w) : SaverInv w := by
  induction hr with
  | init fs =>
    exact ⟨List.nodup_nil, fun i => by simp [World.init], fun i hi => absurd hi (List.not_mem_nil i),
      fun c d e => by simp [World.config, World.init] at e⟩
  | step a hr e ih =>
    simp only [QutimConfig.step, Option.map_eq_some'] at e
    obtain ⟨w₁, e, rfl⟩ := e
    exact (ih.perform hr.heapInv e).collect

theorem Reachable.collected (hr : Reachable env cs w) : Collected w := by
  cases hr with
  | init fs => exact fun i hi => absurd hi (Nat.not_lt_zero i)
  | step a _ e =>
    simp only [QutimConfig.step, Option.map_eq_some'] at e
    obtain ⟨w₁, -, rfl⟩ := e
    exact collected_collect w₁

-- ========================================================= delivery

/-- A dispatch step saves the Source of the first pending event, once,
and no other: the event's save clears its dirty bit, and every other
Source the step's destructors could reach was dead or held before. -/
theorem step_dispatch (hr : Reachable env cs w) (e : step env cs w .dispatch = some w') :
    ∃ i rest, w.events = i :: rest ∧ w'.events = rest ∧
      w'.saves = w.saves ++ [(i, w.sourceTree i)] := by
  simp only [QutimConfig.step, Option.map_eq_some', QutimConfig.perform, World.dispatch] at e
  obtain ⟨w₁, e, rfl⟩ := e
  split_ifs at e
  split at e
  · cases e
  · next i rest he =>
    cases e
    obtain ⟨L, hL, hp⟩ := @collect_saves env (deliver env { w with events := rest } i)
    have hL₀ : L = [] := List.eq_nil_iff_forall_not_mem.2 fun p hm => by
      obtain ⟨hn, hf, hh, hd⟩ := hp p hm
      by_cases hi : p.1 = i
      · simp [World.deliver, World.syncSource, Store.setSource, hi] at hd
      · have hh' : w.holds p.1 = false := by
          simpa [World.holds, World.deliver, World.syncSource, he, hi] using hh
        rcases hr.collected p.1 hn with h | h
        · exact hf h
        · exact absurd h (by simp [hh'])
    exact ⟨i, rest, he, (collects_collect _).events, by rw [hL, hL₀, List.append_nil]; rfl⟩

/-- Every reachable world has at most one pending save event per
Source, a Source's `isAtLoop` bit is set exactly while its event is
pending, and dispatching an event makes one save: of that Source, with
its tree as it is then. -/
theorem saver_pending (hr : Reachable env cs w) :
    w.events.Nodup ∧ (∀ i, (w.store.sources i).isAtLoop = true ↔ i ∈ w.events) ∧
      ∀ w', step env cs w .dispatch = some w' →
        ∃ i rest, w.events = i :: rest ∧ w'.events = rest ∧
          w'.saves = w.saves ++ [(i, w.sourceTree i)] :=
  ⟨hr.saverInv.nodup, hr.saverInv.atLoop, fun _ e => step_dispatch hr e⟩

/-- One writable file, empty. -/
def oneFile : FileSystem := .ofList [("home/a.json", ⟨.map [], 0, true⟩)]

/-- Two writes through one cursor, then `sync`: one event is pending. -/
def twoWritesSynced : List Action :=
  [.construct ["a"] [] none, .setValue 0 "k" (.scalar (.int 1)) ⟨false⟩,
    .setValue 0 "m" (.scalar (.int 2)) ⟨false⟩, .sync 0]

theorem saver_pending_two_writes :
    ∃ w, run Env.sample ⟨id, id⟩ (World.init oneFile) twoWritesSynced = some w ∧ w.events = [0] ∧
      (w.events.Nodup ∧ (∀ i, (w.store.sources i).isAtLoop = true ↔ i ∈ w.events) ∧
        ∀ w', step Env.sample ⟨id, id⟩ w .dispatch = some w' →
          ∃ i rest, w.events = i :: rest ∧ w'.events = rest ∧
            w'.saves = w.saves ++ [(i, w.sourceTree i)]) :=
  ⟨_, rfl, rfl, saver_pending (Reachable.run (.init oneFile)
    (rfl : run Env.sample ⟨id, id⟩ (World.init oneFile) twoWritesSynced = some _))⟩

/-- The writes a dispatch saves are not those made before it: over
`readOnlyOverWritable`, `setValue("a/k", 1)` lands in the lower Source's
tree and marks the upper one dirty, so `sync` queues the upper Source and
the one save is of its tree, unchanged. The lower Source holds the
write, neither dirty nor queued. -/
theorem dispatch_saves_other_source :
    ∃ w, run Env.sample ⟨id, id⟩ (World.init readOnlyOverWritable)
        [.construct ["a", "b"] [] none, .setValue 0 "a/k" (.scalar (.int 1)) ⟨false⟩, .sync 0,
          .dispatch] = some w ∧
      w.saves = [(0, .map [])] ∧ w.sourceTree 1 = .map [("a", .map [("k", .scalar (.int 1))])] ∧
      (w.store.sources 1).dirty = false ∧ w.events = [] :=
  ⟨_, rfl, rfl, rfl, rfl, rfl⟩

-- ========================================================= the drain

/-- A step that keeps the heap and every Source's node keeps every
Source's tree. -/
theorem Keeps.sourceTree {w w' : World} (k : Keeps w w') : w'.sourceTree = w.sourceTree :=
  funext fun i => by rw [World.sourceTree, World.sourceTree, k.heap, k.data]

section Drain

variable {c i : Nat} {d : ConfigPrivate}

theorem deliver_saves (w : World) (i : Nat) :
    (w.deliver env i).saves = w.saves ++ [(i, w.sourceTree i)] := rfl

/-- Delivering events saves their Sources in order, each with its tree
as it stands: a delivery does not touch the heap. -/
theorem deliverAll_saves : ∀ (es : List Nat) (w : World),
    (deliverAll env es w).saves = w.saves ++ es.map fun i => (i, w.sourceTree i)
  | [], w => by simp [deliverAll]
  | i :: es, w => by
      rw [deliverAll, deliverAll_saves es, (keeps_deliver w i).sourceTree, deliver_saves]
      simp

/-- The drain, from a world before it, saves every pending Source in the
order the events were posted, with its tree as it stands; the Sources
that then die dirty are saved after. -/
theorem drain_saves (hnd : w.drained = false) :
    ∃ w', step env cs w .drain = some w' ∧
      ∃ L, w'.saves = w.saves ++ w.events.map (fun i => (i, w.sourceTree i)) ++ L := by
  obtain ⟨L, hL, -⟩ :=
    @collect_saves env { deliverAll env w.events { w with events := [] } with drained := true }
  refine ⟨_, ?_, L, by rw [hL, deliverAll_saves]; rfl⟩
  simp only [step, perform, World.drain, hnd, Bool.false_eq_true, if_false, Option.map_some']

/-- `ConfigPrivate::sync()` leaves its first Source queued when it was
dirty or queued already. -/
theorem syncConfig_queued (hi : d.sources.head? = some i)
    (hp : ((w.store.sources i).dirty || (w.store.sources i).isAtLoop) = true) :
    ((w.syncConfig d).store.sources i).isAtLoop = true := by
  unfold World.syncConfig ConfigPrivate.sync
  rw [hi]
  dsimp only
  split
  · simp [Store.setSource]
  · cases ha : (w.store.sources i).isAtLoop <;> cases hb : (w.store.sources i).dirty <;> simp_all

/-- In every reachable world before the drain, `Config::sync()` on a
cursor whose first Source is dirty, or already queued, and then the
drain (`PostConfigSaver::cleanup`) save that Source: among the saves the
two steps add is one of it with its tree as it stands now. -/
theorem synced_write_saved_by_drain (hr : Reachable env cs w) (hnd : w.drained = false)
    (hd : w.config c = some d) (hi : d.sources.head? = some i)
    (hp : ((w.store.sources i).dirty || (w.store.sources i).isAtLoop) = true) :
    ∃ w₁ w₂, step env cs w (.sync c) = some w₁ ∧ step env cs w₁ .drain = some w₂ ∧
      ∃ L, w₂.saves = w.saves ++ L ∧ (i, w.sourceTree i) ∈ L := by
  have hstep : step env cs w (.sync c) = some ((w.syncConfig d).collect env) := by
    simp [step, perform, hd]
  have col := @collects_collect env (w.syncConfig d)
  have k : Keeps w ((w.syncConfig d).collect env) := (keeps_syncConfig w d).trans (keeps_collect _)
  have hev : i ∈ ((w.syncConfig d).collect env).events :=
    ((hr.step _ hstep).saverInv.atLoop i).1 ((col.atLoop i).trans (syncConfig_queued hi hp))
  obtain ⟨L₀, hL₀, -⟩ := @collect_saves env (w.syncConfig d)
  obtain ⟨w₂, e₂, L₁, hL₁⟩ := @drain_saves env cs _ (col.drained.trans hnd)
  refine ⟨_, w₂, hstep, e₂, L₀ ++ ((w.syncConfig d).collect env).events.map
    (fun j => (j, ((w.syncConfig d).collect env).sourceTree j)) ++ L₁, ?_, ?_⟩
  · rw [hL₁, hL₀]
    simp only [World.syncConfig, List.append_assoc]
  · rw [k.sourceTree]
    exact List.mem_append_left _ (List.mem_append_right _ (List.mem_map_of_mem _ hev))

/-- A write through a cursor over `oneFile`, then `sync` and the drain:
the drain saves the Source. -/
theorem synced_write_saved_by_drain_oneFile :
    ∃ w d, run Env.sample ⟨id, id⟩ (World.init oneFile)
        [.construct ["a"] [] none, .setValue 0 "k" (.scalar (.int 1)) ⟨false⟩] = some w ∧
      w.drained = false ∧ w.config 0 = some d ∧ d.sources.head? = some 0 ∧
      ((w.store.sources 0).dirty || (w.store.sources 0).isAtLoop) = true ∧
      ∃ w₁ w₂, step Env.sample ⟨id, id⟩ w (.sync 0) = some w₁ ∧
        step Env.sample ⟨id, id⟩ w₁ .drain = some w₂ ∧
        ∃ L, w₂.saves = w.saves ++ L ∧ (0, w.sourceTree 0) ∈ L :=
  ⟨_, _, rfl, rfl, rfl, rfl, rfl, synced_write_saved_by_drain (Reachable.run (.init oneFile)
    (rfl : run Env.sample ⟨id, id⟩ (World.init oneFile)
      [.construct ["a"] [] none, .setValue 0 "k" (.scalar (.int 1)) ⟨false⟩] = _)) rfl rfl rfl rfl⟩

end Drain

-- ====================================================== after the drain

theorem perform_after_drain (hh : HeapInv w) (hd : w.drained = true) {a : Action}
    (e : perform env cs w a = some w') :
    w'.drained = true ∧ w.events ⊆ w'.events ∧ w'.saves = w.saves := by
  rcases perform_cases hh e with l | ⟨paths, fb, bk, rfl⟩ | ⟨c, d, -, rfl | rfl⟩ | ⟨h, -⟩ | ⟨h, -⟩ |
    ⟨key, -, -, rfl⟩
  · exact ⟨l.drained ▸ hd, l.events ▸ List.Subset.refl _, l.saves⟩
  · have l := @Local.construct env w hh paths fb bk
    exact ⟨l.drained ▸ hd, l.events ▸ List.Subset.refl _, l.saves⟩
  · exact ⟨hd, List.subset_append_left _ _, rfl⟩
  · unfold World.destruct
    split
    · exact ⟨hd, List.subset_append_left _ _, rfl⟩
    · exact ⟨hd, List.Subset.refl _, rfl⟩
  · simp [hd] at h
  · simp [hd] at h
  · exact ⟨hd, List.Subset.refl _, rfl⟩

/-- After the drain, a step keeps the flag and the queue, and its
destructors save only Sources no pending event holds. -/
theorem step_after_drain (hh : HeapInv w) (hd : w.drained = true) {a : Action}
    (e : step env cs w a = some w') :
    w'.drained = true ∧ w.events ⊆ w'.events ∧
      ∃ L, w'.saves = w.saves ++ L ∧ ∀ p ∈ L, p.1 ∉ w.events := by
  simp only [QutimConfig.step, Option.map_eq_some'] at e
  obtain ⟨w₁, e, rfl⟩ := e
  obtain ⟨hd₁, he₁, hs₁⟩ := perform_after_drain hh hd e
  have c : Collects w₁ (w₁.collect env) := collects_collect w₁
  obtain ⟨L, hL, hp⟩ := @collect_saves env w₁
  exact ⟨c.drained ▸ hd₁, c.events ▸ he₁, L, hs₁ ▸ hL, fun p hm h =>
    absurd (holds_of_mem_events (he₁ h)) (by simp [(hp p hm).2.2.1])⟩

/-- A Source whose event is pending after the drain is never saved
again, whatever the process does next. -/
theorem pending_never_saved {i : Nat} :
    ∀ {as : List Action} {w w' : World}, Reachable env cs w → w.drained = true →
      i ∈ w.events → (∀ p ∈ w.saves, p.1 ≠ i) → run env cs w as = some w' →
      ∀ p ∈ w'.saves, p.1 ≠ i
  | [], w, w', _, _, _, hs, e => by
    simp only [QutimConfig.run, Option.some.injEq] at e
    exact e ▸ hs
  | a :: as, w, w', hr, hd, hi, hs, e => by
    simp only [QutimConfig.run, Option.bind_eq_some] at e
    obtain ⟨w₁, e₁, e₂⟩ := e
    obtain ⟨hd₁, he₁, L, hL, hp⟩ := step_after_drain hr.heapInv hd e₁
    refine pending_never_saved (hr.step a e₁) hd₁ (he₁ hi) (fun p hm => ?_) e₂
    rcases List.mem_append.1 (hL ▸ hm) with hm | hm
    · exact hs p hm
    · exact fun h => hp p hm (h ▸ hi)

/-- A write, the drain, then the cursor's destruction. -/
def writeDrainDestroy : List Action :=
  [.construct ["a"] [] none, .setValue 0 "k" (.scalar (.int 1)) ⟨false⟩, .drain, .destroy 0]

/-- The write reaches the Source's tree and marks it dirty; the drain
has nothing to deliver; the destructor's `sync` posts an event, which
clears the dirty bit, and nothing delivers the event any more: no
continuation of the run ever saves the Source. -/
theorem write_lost_after_drain :
    ∃ w, run Env.sample ⟨id, id⟩ (World.init oneFile) writeDrainDestroy = some w ∧
      w.sourceTree 0 = .map [("k", .scalar (.int 1))] ∧ (w.store.sources 0).dirty = false ∧
      w.events = [0] ∧ w.saves = [] ∧
      ∀ as w', run Env.sample ⟨id, id⟩ w as = some w' → ∀ p ∈ w'.saves, p.1 ≠ 0 :=
  ⟨_, rfl, rfl, rfl, rfl, rfl, fun _ _ e =>
    pending_never_saved (Reachable.run (.init oneFile)
      (rfl : run Env.sample ⟨id, id⟩ (World.init oneFile) writeDrainDestroy = some _)) rfl
      (List.mem_singleton_self 0)
      (fun _ h => absurd h (List.not_mem_nil _)) e⟩

end QutimConfig
