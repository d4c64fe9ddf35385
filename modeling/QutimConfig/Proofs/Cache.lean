/-
The Source cache (config.cpp:379-461): `ConfigSource::open` returns the
cached Source of a file name while it is valid and opens a new one
otherwise; `ConfigSourceHash::timerEvent` drops an entry when its timer
fires, whatever else still holds the Source.

# Two Sources of one file

The cache's `QSharedPointer` is strong and its timer takes no account
of the Source's other holders: a cursor that outlives the entry keeps
its Source alive, the next `open` of the file makes a second Source,
and the two save over each other (`two_sources_one_file`).

# A weak cache

Under a weak cache, whose entry goes only once no cursor and no pending
event holds the Source (`Action.weak`), every live Source stays in the
cache under its own file name and valid (`CacheInv`), so `open` can
only return it, and no two live Sources share a file name
(`one_source_per_file`). Validity needs the saves of one file to leave
the stamps of the others alone: distinct file names must name distinct
files (`absoluteFilePath` injective).

The destructors run between the action and the next step; `PreInv` is
what holds in between: a live Source may have left the cache only if
nothing holds it, so it dies in this step.
-/
import QutimConfig.Proofs.Saver

namespace QutimConfig

open World

variable {env : Env} {cs : CryptoService} {w w' : World}

-- ========================================================== holders

/-- Is Source `i` held by a live cursor or a pending event? -/
def World.pinned (w : World) (i : Nat) : Bool :=
  w.configs.any (fun c => c.any fun d => d.sources.contains i) || w.events.contains i

theorem World.holds_eq (w : World) (i : Nat) :
    w.holds i = (w.pinned i || w.cache.any (·.2 == i)) := rfl

theorem World.pinned_iff {i : Nat} :
    w.pinned i = true ↔ (∃ c d, w.config c = some d ∧ i ∈ d.sources) ∨ i ∈ w.events := by
  simp only [World.pinned, Bool.or_eq_true, List.any_eq_true, List.elem_eq_mem, decide_eq_true_eq,
    World.config, Option.join_eq_some]
  refine or_congr ⟨fun ⟨o, ho, h⟩ => ?_, fun ⟨c, d, hc, h⟩ =>
    ⟨some d, List.mem_iff_getElem?.2 ⟨c, hc⟩, by simpa using h⟩⟩ Iff.rfl
  obtain ⟨c, hc⟩ := List.mem_iff_getElem?.1 ho
  cases o with
  | none => simp at h
  | some d => exact ⟨c, d, hc, by simpa using h⟩

/-- A holder of `w'` that was a holder of `w`. -/
theorem pinned_of {i : Nat}
    (hc : ∀ c d, w'.config c = some d → i ∈ d.sources → w.pinned i = true)
    (he : i ∈ w'.events → w.pinned i = true) (h : w'.pinned i = true) : w.pinned i = true := by
  rcases pinned_iff.1 h with ⟨c, d, e, hi⟩ | hi
  · exact hc c d e hi
  · exact he hi

theorem cache_free_of_holds {i : Nat} (h : w.holds i = false) : ∀ e ∈ w.cache, e.2 ≠ i := by
  rw [holds_eq, Bool.or_eq_false_iff, List.any_eq_false] at h
  exact fun e he hi => h.2 e he (by simp [hi])

/-- Expiry as a weak cache would do it: only of an entry whose Source no
cursor and no pending event holds. -/
def Action.weak (w : World) : Action → Bool
  | .expire key =>
      match w.cached key with
      | some i => !w.pinned i
      | none => true
  | _ => true

/-- The worlds of a process whose cache is weak. -/
inductive WeakReachable (env : Env) (cs : CryptoService) : World → Prop
  | init (fs : FileSystem) : WeakReachable env cs (World.init fs)
  | step {w w' : World} (a : Action) : WeakReachable env cs w → a.weak w = true →
      step env cs w a = some w' → WeakReachable env cs w'

theorem WeakReachable.reachable (hr : WeakReachable env cs w) : Reachable env cs w := by
  induction hr with
  | init fs => exact .init fs
  | step a _ _ e ih => exact .step a ih e

/-- Run actions in order, each one a weak step. -/
def runWeak (env : Env) (cs : CryptoService) : World → List Action → Option World
  | w, [] => some w
  | w, a :: as => if a.weak w then (step env cs w a).bind fun w => runWeak env cs w as else none

theorem WeakReachable.runWeak : ∀ {w w' : World} {as : List Action}, WeakReachable env cs w →
    runWeak env cs w as = some w' → WeakReachable env cs w'
  | w, w', [], hw, h => by simp only [QutimConfig.runWeak, Option.some.injEq] at h; exact h ▸ hw
  | w, w', a :: as, hw, h => by
      simp only [QutimConfig.runWeak] at h
      split_ifs at h with ha
      simp only [Option.bind_eq_some] at h
      obtain ⟨w₁, h₁, h₂⟩ := h
      exact WeakReachable.runWeak (hw.step a ha h₁) h₂

-- ============================================================ files

theorem lastModified_save (fs : FileSystem) {p q : String} (v : Variant)
    (h : env.absoluteFilePath q ≠ env.absoluteFilePath p) :
    (fs.save env p v).lastModified env q = fs.lastModified env q := by
  unfold FileSystem.save
  split
  · split
    · simp [FileSystem.write, FileSystem.lastModified, Function.update_noteq h]
    · rfl
  · simp [FileSystem.write, FileSystem.lastModified, Function.update_noteq h]

theorem isValid_congr {i : Nat} (hn : (w'.store.sources i).fileName = (w.store.sources i).fileName)
    (hs : (w'.store.sources i).lastModified = (w.store.sources i).lastModified)
    (hf : w'.fs.lastModified env (w.store.sources i).fileName =
      w.fs.lastModified env (w.store.sources i).fileName) :
    w'.isValid env i = w.isValid env i := by
  simp only [World.isValid, hf, hn, hs]

-- ======================================================== invariant

/-- Every live Source is the cache entry of its file name; every entry
is a live, valid Source under its own name; cursors and events hold
only live Sources; the dead are Sources that existed. -/
structure CacheInv (env : Env) (w : World) : Prop where
  cached : ∀ i < w.store.nsources, i ∉ w.freed → w.cached (w.store.sources i).fileName = some i
  entries : ∀ k i, (k, i) ∈ w.cache → i < w.store.nsources ∧ i ∉ w.freed ∧
    (w.store.sources i).fileName = k ∧ w.isValid env i = true
  pinned : ∀ i, w.pinned i = true → i < w.store.nsources ∧ i ∉ w.freed
  freed : ∀ i ∈ w.freed, i < w.store.nsources

/-- Between an action and its destructors: a live Source out of the
cache is held by nothing, and live Sources have distinct names. -/
structure PreInv (env : Env) (w : World) : Prop where
  cached : ∀ i < w.store.nsources, i ∉ w.freed →
    w.cached (w.store.sources i).fileName = some i ∨ w.holds i = false
  entries : ∀ k i, (k, i) ∈ w.cache → i < w.store.nsources ∧ i ∉ w.freed ∧
    (w.store.sources i).fileName = k ∧ w.isValid env i = true
  pinned : ∀ i, w.pinned i = true → i < w.store.nsources ∧ i ∉ w.freed
  freed : ∀ i ∈ w.freed, i < w.store.nsources
  unique : ∀ i < w.store.nsources, ∀ j < w.store.nsources, i ∉ w.freed → j ∉ w.freed →
    (w.store.sources i).fileName = (w.store.sources j).fileName → i = j

section Inv

variable {i j : Nat}

theorem CacheInv.unique (hc : CacheInv env w) (hi : i < w.store.nsources)
    (hj : j < w.store.nsources) (hfi : i ∉ w.freed) (hfj : j ∉ w.freed)
    (h : (w.store.sources i).fileName = (w.store.sources j).fileName) : i = j :=
  Option.some.inj ((hc.cached i hi hfi).symm.trans (h ▸ hc.cached j hj hfj))

theorem CacheInv.pre (hc : CacheInv env w) : PreInv env w :=
  ⟨fun i hi hf => .inl (hc.cached i hi hf), hc.entries, hc.pinned, hc.freed,
    fun _ hi _ hj hfi hfj h => hc.unique hi hj hfi hfj h⟩

/-- A Source something holds is alive. -/
theorem CacheInv.live (hc : CacheInv env w) (h : w.holds i = true) :
    i < w.store.nsources ∧ i ∉ w.freed := by
  rw [holds_eq, Bool.or_eq_true, List.any_eq_true] at h
  rcases h with h | ⟨⟨k, j⟩, he, hj⟩
  · exact hc.pinned i h
  · obtain ⟨h₁, h₂, -⟩ := hc.entries k j he
    exact (beq_iff_eq.1 hj) ▸ ⟨h₁, h₂⟩

/-- Once the destructors have run, every live Source is held, so it is
back in the cache. -/
theorem CacheInv.of_pre (hp : PreInv env w) (hcol : Collected w) : CacheInv env w := by
  refine ⟨fun i hi hf => ?_, hp.entries, hp.pinned, hp.freed⟩
  rcases hp.cached i hi hf with h | h
  · exact h
  · rcases hcol i hi with h' | h'
    · exact absurd h' hf
    · simp [h] at h'

/-- A step that keeps the cache, the files, the dead, the names and
stamps of the Sources, and adds no holder. -/
theorem CacheInv.of_frame (hc : CacheInv env w) (hk : w'.cache = w.cache)
    (hf : w'.fs.files = w.fs.files) (hd : w'.freed = w.freed)
    (hn : w'.store.nsources = w.store.nsources)
    (hname : ∀ i, (w'.store.sources i).fileName = (w.store.sources i).fileName)
    (hstamp : ∀ i, (w'.store.sources i).lastModified = (w.store.sources i).lastModified)
    (hpin : ∀ i, w'.pinned i = true → w.pinned i = true) : CacheInv env w' := by
  have hv : ∀ i, w'.isValid env i = w.isValid env i := fun i =>
    isValid_congr (hname i) (hstamp i) (by simp only [FileSystem.lastModified, hf])
  refine ⟨fun i hi hfr => ?_, fun k i he => ?_, fun i h => ?_, fun i h => ?_⟩
  · rw [hn] at hi; rw [hd] at hfr
    simpa only [World.cached, hk, hname] using hc.cached i hi hfr
  · obtain ⟨h₁, h₂, h₃, h₄⟩ := hc.entries k i (hk ▸ he)
    exact ⟨hn ▸ h₁, hd ▸ h₂, (hname i).trans h₃, (hv i).trans h₄⟩
  · exact hn ▸ hd ▸ hc.pinned i (hpin i h)
  · exact hn ▸ hc.freed i (hd ▸ h)

theorem Store.DirtiesOnly.fileName {s s' : Store} (hs : s.DirtiesOnly s') (i : Nat) :
    (s'.sources i).fileName = (s.sources i).fileName := by
  rcases hs.2 i with h | h <;> rw [h]

theorem Store.DirtiesOnly.lastModified {s s' : Store} (hs : s.DirtiesOnly s') (i : Nat) :
    (s'.sources i).lastModified = (s.sources i).lastModified := by
  rcases hs.2 i with h | h <;> rw [h]

theorem CacheInv.of_calm (hc : CacheInv env w) (l : Calm w w') : CacheInv env w' :=
  hc.of_frame l.cache (by rw [l.fs]) l.freed l.store.1 l.store.fileName l.store.lastModified
    fun _ => pinned_of (fun c d e hi => by
      obtain ⟨c₀, d₀, e₀, h₀⟩ := l.cursors c d e _ hi
      exact pinned_iff.2 (.inl ⟨c₀, d₀, e₀, h₀⟩)) fun hi => pinned_iff.2 (.inr (l.events ▸ hi))

end Inv

-- ================================================ syncs and releases

section Sync

variable {c i : Nat} {d : ConfigPrivate}

/-- `ConfigPrivate::sync` posts the event of a Source its cursor holds. -/
theorem CacheInv.syncConfig (hc : CacheInv env w) (hd : w.config c = some d) :
    CacheInv env (w.syncConfig d) := by
  unfold World.syncConfig ConfigPrivate.sync
  split
  · exact hc.of_frame rfl rfl rfl rfl (fun _ => rfl) (fun _ => rfl) fun _ => by simp [pinned]
  · next i hi =>
    dsimp only
    split
    · refine hc.of_frame rfl rfl rfl rfl (fun j => ?_) (fun j => ?_) fun j => pinned_of
        (fun c' d' e hj => pinned_iff.2 (.inl ⟨c', d', e, hj⟩)) fun hj => ?_
      · by_cases h : j = i <;> simp [Store.setSource, h]
      · by_cases h : j = i <;> simp [Store.setSource, h]
      · simp only [Option.toList_some, List.mem_append, List.mem_singleton] at hj
        rcases hj with hj | rfl
        · exact pinned_iff.2 (.inr hj)
        · exact pinned_iff.2 (.inl ⟨c, d, hd, List.mem_of_mem_head? hi⟩)
    · exact hc.of_frame rfl rfl rfl rfl (fun _ => rfl) (fun _ => rfl) fun _ => by simp [pinned]

theorem CacheInv.destroy (hc : CacheInv env w) (hd : w.config c = some d) :
    CacheInv env ((w.destruct d).release c) := by
  have hc' : CacheInv env (w.destruct d) := by
    unfold World.destruct
    split
    · exact hc.syncConfig hd
    · exact hc
  exact hc'.of_frame rfl rfl rfl rfl (fun _ => rfl) (fun _ => rfl) fun _ => pinned_of
    (fun c' d' e hj => pinned_iff.2 (.inl ⟨c', d', config_release e, hj⟩))
    fun hj => pinned_iff.2 (.inr hj)

end Sync

-- ============================================================ saves

section Saves

variable {i : Nat}

/-- Saving a live Source stamps it anew and leaves every other live
Source's file, and so its validity, alone. -/
theorem CacheInv.syncSource (hinj : Function.Injective env.absoluteFilePath)
    (hc : CacheInv env w) (hi : i < w.store.nsources) (hf : i ∉ w.freed) :
    CacheInv env (w.syncSource env i) := by
  have hname : ∀ j, ((w.syncSource env i).store.sources j).fileName = (w.store.sources j).fileName :=
    fun j => by by_cases h : j = i <;> simp [World.syncSource, Store.setSource, h]
  refine ⟨fun j hj hfj => ?_, fun k j he => ?_, hc.pinned, hc.freed⟩
  · simpa only [World.cached, hname] using hc.cached j hj hfj
  · obtain ⟨h₁, h₂, h₃, h₄⟩ := hc.entries k j he
    refine ⟨h₁, h₂, (hname j).trans h₃, ?_⟩
    by_cases h : j = i
    · subst h; simp [World.isValid, World.syncSource, Store.setSource]
    · have hne : env.absoluteFilePath (w.store.sources j).fileName ≠
          env.absoluteFilePath (w.store.sources i).fileName :=
        fun e => h (hc.unique h₁ hi h₂ hf (hinj e))
      rw [isValid_congr (hname j) (by simp [World.syncSource, Store.setSource, h])
        (lastModified_save _ _ hne)]
      exact h₄

theorem CacheInv.deliver (hinj : Function.Injective env.absoluteFilePath)
    (hc : CacheInv env w) (hi : i < w.store.nsources) (hf : i ∉ w.freed) :
    CacheInv env (w.deliver env i) :=
  (hc.syncSource hinj hi hf).of_frame rfl rfl rfl rfl
    (fun j => by by_cases h : j = i <;> simp [World.deliver, Store.setSource, h])
    (fun j => by by_cases h : j = i <;> simp [World.deliver, Store.setSource, h]) fun _ => id

theorem CacheInv.deliverAll (hinj : Function.Injective env.absoluteFilePath) :
    ∀ (es : List Nat) (w : World), CacheInv env w →
      (∀ i ∈ es, i < w.store.nsources ∧ i ∉ w.freed) → CacheInv env (World.deliverAll env es w)
  | [], _, hc, _ => hc
  | i :: es, _, hc, hes =>
    have hi := hes i (List.mem_cons_self i es)
    CacheInv.deliverAll hinj es _ (hc.deliver hinj hi.1 hi.2) fun j hj =>
      hes j (List.mem_cons_of_mem i hj)

/-- The loop delivers the first event, of a Source the event held. -/
theorem CacheInv.dispatch (hinj : Function.Injective env.absoluteFilePath) (hc : CacheInv env w)
    {rest : List Nat} (he : w.events = i :: rest) :
    CacheInv env (World.deliver env { w with events := rest } i) := by
  have h₀ : CacheInv env { w with events := rest } :=
    hc.of_frame rfl rfl rfl rfl (fun _ => rfl) (fun _ => rfl) fun _ => pinned_of
      (fun c d e hj => pinned_iff.2 (.inl ⟨c, d, e, hj⟩))
      fun hj => pinned_iff.2 (.inr (he ▸ List.mem_cons_of_mem i hj))
  have hl := hc.pinned i (pinned_iff.2 (.inr (he ▸ List.mem_cons_self i rest)))
  exact h₀.deliver hinj hl.1 hl.2

theorem CacheInv.drain (hinj : Function.Injective env.absoluteFilePath) (hc : CacheInv env w) :
    CacheInv env { World.deliverAll env w.events { w with events := [] } with drained := true } := by
  have h₀ : CacheInv env { w with events := [] } :=
    hc.of_frame rfl rfl rfl rfl (fun _ => rfl) (fun _ => rfl) fun _ => pinned_of
      (fun c d e hj => pinned_iff.2 (.inl ⟨c, d, e, hj⟩)) fun hj => absurd hj (List.not_mem_nil _)
  exact (CacheInv.deliverAll hinj w.events _ h₀ fun i hi => hc.pinned i (pinned_iff.2 (.inr hi))).of_frame
    rfl rfl rfl rfl (fun _ => rfl) (fun _ => rfl) fun _ => id

end Saves

-- ====================================================== opening

section Open

variable {i : Nat} {k : String}

theorem CacheInv.probe_live (hc : CacheInv env w) (h : probe env w k = some i) :
    i < w.store.nsources ∧ i ∉ w.freed := by
  unfold probe at h
  split at h
  · next j hj =>
    split_ifs at h
    cases h
    obtain ⟨h₁, h₂, -⟩ := hc.entries k _ (QMap.mem_of_lookup hj)
    exact ⟨h₁, h₂⟩
  · cases h

/-- The cache gives only valid Sources, so a probe that fails found no
entry. -/
theorem CacheInv.cached_of_probe (hc : CacheInv env w) (h : probe env w k = none) :
    w.cached k = none := by
  unfold probe at h
  split at h
  · next j hj =>
    rw [if_pos (hc.entries k j (QMap.mem_of_lookup hj)).2.2.2] at h
    cases h
  · assumption

theorem CacheInv.setHeap (hc : CacheInv env w) (h : Heap) : CacheInv env (w.setHeap h) :=
  hc.of_frame rfl rfl rfl rfl (fun _ => rfl) (fun _ => rfl) fun _ => id

theorem CacheInv.addConfig (hc : CacheInv env w) {p : ConfigPrivate}
    (hp : ∀ i ∈ p.sources, i < w.store.nsources ∧ i ∉ w.freed) : CacheInv env (w.addConfig p) := by
  refine ⟨hc.cached, hc.entries, fun i h => ?_, hc.freed⟩
  rcases pinned_iff.1 h with ⟨c, d, e, hi⟩ | hi
  · rcases config_addConfig e with ⟨-, rfl⟩ | e
    · exact hp i hi
    · exact hc.pinned i (pinned_iff.2 (.inl ⟨c, d, e, hi⟩))
  · exact hc.pinned i (pinned_iff.2 (.inr hi))

/-- A Source opened for a name with no entry: the next index, cached
under its name, stamped as its file is. -/
theorem CacheInv.addSource (hc : CacheInv env w) {src : ConfigSource} {h : Heap}
    (hn : w.cached src.fileName = none) (hv : w.fs.lastModified env src.fileName = src.lastModified) :
    CacheInv env (w.addSource src h).2 ∧ ∀ i ∈ some (w.addSource src h).1,
      i < (w.addSource src h).2.store.nsources ∧ i ∉ (w.addSource src h).2.freed := by
  have hfn : w.store.nsources ∉ w.freed := fun hm => lt_irrefl _ (hc.freed _ hm)
  refine ⟨⟨fun i hi hf => ?_, fun k i he => ?_, fun i h => ?_, fun i h => ?_⟩, fun i hi => ?_⟩
  · simp only [World.addSource] at hi hf ⊢
    by_cases h : i = w.store.nsources
    · subst h; simp [World.cached]
    · have hi' : i < w.store.nsources := by omega
      have hne : (w.store.sources i).fileName ≠ src.fileName := fun e =>
        by simp [← e, hc.cached i hi' hf] at hn
      simp only [World.cached, Function.update_noteq h, QMap.lookup_insert_ne _ _ hne]
      exact hc.cached i hi' hf
  · simp only [World.addSource] at he ⊢
    rcases QMap.mem_insert he with he | he
    · obtain ⟨rfl, rfl⟩ := Prod.mk.inj he
      simp [World.isValid, hv, hfn]
    · obtain ⟨h₁, h₂, h₃, h₄⟩ := hc.entries k i he
      have hne : i ≠ w.store.nsources := Nat.ne_of_lt h₁
      exact ⟨Nat.lt_succ_of_lt h₁, h₂, by simpa [Function.update_noteq hne] using h₃,
        by simpa [World.isValid, Function.update_noteq hne] using h₄⟩
  · exact (hc.pinned i h).imp Nat.lt_succ_of_lt id
  · exact Nat.lt_succ_of_lt (hc.freed i h)
  · obtain rfl := Option.mem_some_iff.1 hi
    exact ⟨Nat.lt_succ_self _, hfn⟩

theorem openFile_cache (hc : CacheInv env w) {fileName info : String} {sys create : Bool}
    {bk : Backend} {r : Option Nat} (hn : w.cached fileName = none)
    (e : openFile env fileName info sys create bk (w.cached fileName) w = (r, w')) :
    CacheInv env w' ∧ ∀ i ∈ r, i < w'.store.nsources ∧ i ∉ w'.freed := by
  rw [hn] at e
  unfold openFile at e
  by_cases h₁ : (!w.fs.exists_ env info && !create) = true
  · rw [if_pos h₁] at e; cases e; exact ⟨hc, by simp⟩
  rw [if_neg h₁] at e
  by_cases h₂ : (!w.fs.dirs (env.absolutePath info) && !create) = true
  · rw [if_pos h₂] at e; cases e; exact ⟨hc, by simp⟩
  rw [if_neg h₂] at e
  dsimp only at e
  generalize hg : (if w.fs.dirs (env.absolutePath info) = true then w.fs else _) = fs at e
  have hf : fs.files = w.fs.files := by rw [← hg]; split <;> rfl
  have h₀ : CacheInv env { w with fs := fs } :=
    hc.of_frame rfl hf rfl rfl (fun _ => rfl) (fun _ => rfl) fun _ => id
  split at e
  · cases e; exact ⟨h₀, by simp⟩
  · simp only [Prod.mk.injEq] at e
    obtain ⟨rfl, rfl⟩ := e
    exact h₀.addSource hn rfl

/-- `ConfigSource::open` returns a live Source or none. -/
theorem openSource_cache (hc : CacheInv env w) {path : String} {sys create : Bool}
    {bk : Option Backend} :
    CacheInv env (openSource env path sys create bk w).2 ∧
      ∀ i ∈ (openSource env path sys create bk w).1,
        i < (openSource env path sys create bk w).2.store.nsources ∧
          i ∉ (openSource env path sys create bk w).2.freed := by
  unfold openSource
  dsimp only
  repeat' split
  all_goals first
    | exact ⟨hc, fun _ h => absurd h (Option.not_mem_none _)⟩
    | exact ⟨hc, fun i hi => Option.mem_some_iff.1 hi ▸ hc.probe_live ‹probe env w _ = some _›⟩
    | exact openFile_cache hc (hc.cached_of_probe (by assumption)) rfl

theorem openAll_cache (bk : Option Backend) :
    ∀ (ps : List (Bool × String)) {srcs : List Nat} {w : World}, HeapInv w → CacheInv env w →
      (∀ i ∈ srcs, i < w.store.nsources ∧ i ∉ w.freed) →
      CacheInv env (openAll env bk ps srcs w).2 ∧ ∀ i ∈ (openAll env bk ps srcs w).1,
        i < (openAll env bk ps srcs w).2.store.nsources ∧ i ∉ (openAll env bk ps srcs w).2.freed
  | [], _, _, _, hc, hs => ⟨hc, hs⟩
  | (sys, path) :: rest, srcs, w, hh, hc, hs => by
      have o : Opened w (openSource env path sys srcs.isEmpty bk w).1
        (openSource env path sys srcs.isEmpty bk w).2 := openSource_inv hh
      have hoc : CacheInv env (openSource env path sys srcs.isEmpty bk w).2 ∧
          ∀ i ∈ (openSource env path sys srcs.isEmpty bk w).1,
            i < (openSource env path sys srcs.isEmpty bk w).2.store.nsources ∧
              i ∉ (openSource env path sys srcs.isEmpty bk w).2.freed := openSource_cache hc
      have hs' : ∀ i ∈ srcs, i < (openSource env path sys srcs.isEmpty bk w).2.store.nsources ∧
          i ∉ (openSource env path sys srcs.isEmpty bk w).2.freed :=
        fun i hi => ⟨lt_of_lt_of_le (hs i hi).1 o.mono, o.freed ▸ (hs i hi).2⟩
      simp only [openAll]
      split
      · next i hi =>
        split
        · exact openAll_cache bk rest o.inv hoc.1 hs'
        · exact openAll_cache bk rest o.inv hoc.1 fun j hj =>
            (List.mem_append.1 hj).elim (hs' j) fun hj =>
              (List.mem_singleton.1 hj) ▸ hoc.2 i (hi ▸ rfl)
      · exact openAll_cache bk rest o.inv hoc.1 hs'

/-- `ConfigPrivate(paths, fallbacks, backend)` holds live Sources only. -/
theorem CacheInv.construct (hc : CacheInv env w) (hh : HeapInv w) (paths : List String)
    (fallbacks : List Variant) (bk : Option Backend) :
    CacheInv env ((construct env paths fallbacks bk w).2.addConfig
      (construct env paths fallbacks bk w).1) := by
  obtain ⟨hc', hs⟩ := @openAll_cache env bk
    ((paths.map fun p => (false, p)) ++ (paths.map fun p => (true, p))) [] w hh hc
    fun _ h => absurd h (List.not_mem_nil _)
  exact (hc'.setHeap _).addConfig hs

end Open

-- ============================================== expiry and death

section Death

variable {i : Nat}

theorem QMap.key_ne_of_mem_erase {α : Type} {k : String} {m : List (String × α)} {p : String × α}
    (h : p ∈ QMap.erase k m) : p.1 ≠ k := by
  simpa [QMap.erase] using (List.mem_filter.1 h).2

/-- A weak expiry takes the entry of a Source nothing else holds: the
Source is held by nothing at all now. -/
theorem PreInv.expire (hc : CacheInv env w) {key : String}
    (hweak : ∀ i, w.cached key = some i → w.pinned i = false) : PreInv env (w.expire key) := by
  refine ⟨fun j hj hf => ?_, fun k j he => hc.entries k j (QMap.mem_erase he), hc.pinned, hc.freed,
    fun _ hi _ hj hfi hfj h => hc.unique hi hj hfi hfj h⟩
  by_cases hk : (w.store.sources j).fileName = key
  · refine .inr ?_
    rw [holds_eq, Bool.or_eq_false_iff, List.any_eq_false]
    refine ⟨hweak j (hk ▸ hc.cached j hj hf), fun e he hej => QMap.key_ne_of_mem_erase he ?_⟩
    obtain ⟨-, -, h₃, -⟩ := hc.entries e.1 e.2 (QMap.mem_erase he)
    rw [← h₃, beq_iff_eq.1 hej, hk]
  · exact .inl ((QMap.lookup_erase_ne _ hk).trans (hc.cached j hj hf))

theorem destroySource_lastModified {q : String}
    (h : env.absoluteFilePath q ≠ env.absoluteFilePath (w.store.sources i).fileName) :
    (w.destroySource env i).fs.lastModified env q = w.fs.lastModified env q := by
  unfold World.destroySource
  split
  · exact lastModified_save _ _ h
  · rfl

theorem Collects.pinned (c : Collects w w') (i : Nat) : w'.pinned i = w.pinned i := by
  simp only [World.pinned, c.configs, c.events]

/-- A Source that nothing holds dies; its save, if any, is of its own
file, which no other live Source names. -/
theorem PreInv.destroySource (hinj : Function.Injective env.absoluteFilePath) (hp : PreInv env w)
    (hi : i < w.store.nsources) (hf : i ∉ w.freed) (hh : w.holds i = false) :
    PreInv env (w.destroySource env i) := by
  have c : Collects w (w.destroySource env i) := collects_destroySource w i
  have hpi : w.pinned i = false := by
    rw [holds_eq, Bool.or_eq_false_iff] at hh
    exact hh.1
  have hcache := cache_free_of_holds hh
  have hlive : ∀ j, j ∉ (w.destroySource env i).freed → j ∉ w.freed ∧ j ≠ i := by
    simp
  have hsrc : ∀ j, j ≠ i → (w.destroySource env i).store.sources j = w.store.sources j :=
    fun j => destroySource_sources w
  refine ⟨fun j hj hfj => ?_, fun k j he => ?_, fun j h => ?_, fun j h => ?_,
    fun j hj j' hj' hfj hfj' h => ?_⟩
  · obtain ⟨hfj, hne⟩ := hlive j hfj
    simpa only [World.cached, c.cache, hsrc j hne, c.holds] using hp.cached j (c.nsources ▸ hj) hfj
  · rw [c.cache] at he
    obtain ⟨h₁, h₂, h₃, h₄⟩ := hp.entries k j he
    have hne : j ≠ i := hcache (k, j) he
    have hq : env.absoluteFilePath (w.store.sources j).fileName ≠
        env.absoluteFilePath (w.store.sources i).fileName :=
      fun e => hne (hp.unique j h₁ i hi h₂ hf (hinj e))
    refine ⟨c.nsources ▸ h₁, by simp [h₂, hne], by rw [hsrc j hne, h₃], ?_⟩
    rw [isValid_congr (by rw [hsrc j hne]) (by rw [hsrc j hne]) (destroySource_lastModified hq)]
    exact h₄
  · rw [c.pinned] at h
    have hne : j ≠ i := fun e => by simp [e, hpi] at h
    obtain ⟨h₁, h₂⟩ := hp.pinned j h
    exact ⟨c.nsources ▸ h₁, by simp [h₂, hne]⟩
  · simp only [destroySource_freed, List.mem_append, List.mem_singleton] at h
    rcases h with h | rfl
    · exact c.nsources ▸ hp.freed j h
    · exact c.nsources ▸ hi
  · obtain ⟨hfj, hne⟩ := hlive j hfj
    obtain ⟨hfj', hne'⟩ := hlive j' hfj'
    rw [hsrc j hne, hsrc j' hne'] at h
    exact hp.unique j (c.nsources ▸ hj) j' (c.nsources ▸ hj') hfj hfj' h

theorem PreInv.collectOne (hinj : Function.Injective env.absoluteFilePath) (hp : PreInv env w)
    (hi : i < w.store.nsources) : PreInv env (w.collectOne env i) := by
  rcases @collectOne_cases env w i with ⟨hf, hh, he⟩ | ⟨-, he⟩ <;> rw [he]
  · exact hp.destroySource hinj hi hf hh
  · exact hp

theorem PreInv.fold (hinj : Function.Injective env.absoluteFilePath) :
    ∀ (is : List Nat) (w : World), PreInv env w → (∀ i ∈ is, i < w.store.nsources) →
      PreInv env (is.foldl (World.collectOne env) w)
  | [], _, hp, _ => hp
  | i :: is, w, hp, h =>
    PreInv.fold hinj is _ (hp.collectOne hinj (h i (List.mem_cons_self i is))) fun j hj =>
      (collects_collectOne w i).nsources ▸ h j (List.mem_cons_of_mem i hj)

/-- After the destructors, the cache invariant is back. -/
theorem PreInv.collect (hinj : Function.Injective env.absoluteFilePath) (hp : PreInv env w) :
    CacheInv env (w.collect env) :=
  .of_pre (hp.fold hinj _ w fun _ h => List.mem_range.1 h) (collected_collect w)

end Death

-- ======================================================== over runs

theorem CacheInv.perform (hinj : Function.Injective env.absoluteFilePath) (hc : CacheInv env w)
    (hh : HeapInv w) {a : Action} (hweak : a.weak w = true) (e : perform env cs w a = some w') :
    PreInv env w' := by
  rcases perform_cases hh e with l | ⟨paths, fb, bk, rfl⟩ | ⟨c, d, hd, rfl | rfl⟩ |
    ⟨-, i, rest, he, rfl⟩ | ⟨-, rfl⟩ | ⟨key, rfl, -, rfl⟩
  · exact (hc.of_calm l).pre
  · exact (hc.construct hh paths fb bk).pre
  · exact (hc.syncConfig hd).pre
  · exact (hc.destroy hd).pre
  · exact (hc.dispatch hinj he).pre
  · exact (hc.drain hinj).pre
  · refine PreInv.expire hc fun i hi => ?_
    simpa [Action.weak, hi] using hweak

theorem CacheInv.step (hinj : Function.Injective env.absoluteFilePath) (hc : CacheInv env w)
    (hh : HeapInv w) {a : Action} (hweak : a.weak w = true) (e : step env cs w a = some w') :
    CacheInv env w' := by
  simp only [QutimConfig.step, Option.map_eq_some'] at e
  obtain ⟨w₁, e, rfl⟩ := e
  exact (hc.perform hinj hh hweak e).collect hinj

theorem WeakReachable.cacheInv (hinj : Function.Injective env.absoluteFilePath)
    (hr : WeakReachable env cs w) : CacheInv env w := by
  induction hr with
  | init fs =>
    exact ⟨fun i hi => absurd hi (Nat.not_lt_zero i), fun _ _ he => absurd he (List.not_mem_nil _),
      fun i h => by simp [World.pinned, World.init] at h, fun _ h => absurd h (List.not_mem_nil _)⟩
  | step a hr ha e ih => exact ih.step hinj hr.reachable.heapInv ha e

/-- Under a weak cache, and with distinct file names naming distinct
files, no two Sources that a cursor, a pending event or the cache holds
share a file name, and `open` of that name finds the one there is. -/
theorem one_source_per_file (hinj : Function.Injective env.absoluteFilePath)
    (hr : WeakReachable env cs w) :
    (∀ i j, w.holds i = true → w.holds j = true →
      (w.store.sources i).fileName = (w.store.sources j).fileName → i = j) ∧
    ∀ i, w.holds i = true → probe env w (w.store.sources i).fileName = some i := by
  have hc := hr.cacheInv hinj
  refine ⟨fun i j hi hj h => ?_, fun i hi => ?_⟩
  · obtain ⟨hi₁, hi₂⟩ := hc.live hi
    obtain ⟨hj₁, hj₂⟩ := hc.live hj
    exact hc.unique hi₁ hj₁ hi₂ hj₂ h
  · obtain ⟨hi₁, hi₂⟩ := hc.live hi
    have hk := hc.cached i hi₁ hi₂
    have hv := (hc.entries _ i (QMap.mem_of_lookup hk)).2.2.2
    simp [probe, hk, hv]

/-- The cursor goes and the entry expires: the Source dies, and the next
`open` of the file makes a new one. -/
def reopenAfterExpiry : List Action :=
  [.construct ["a"] [] none, .destroy 0, .expire "home/a.json", .construct ["a"] [] none]

theorem one_source_per_file_reopened :
    ∃ w, runWeak Env.sample ⟨id, id⟩ (World.init oneFile) reopenAfterExpiry = some w ∧
      w.holds 0 = false ∧ w.holds 1 = true ∧
      ((∀ i j, w.holds i = true → w.holds j = true →
        (w.store.sources i).fileName = (w.store.sources j).fileName → i = j) ∧
      ∀ i, w.holds i = true → probe Env.sample w (w.store.sources i).fileName = some i) :=
  ⟨_, rfl, rfl, rfl, one_source_per_file Function.injective_id (WeakReachable.runWeak (.init oneFile)
    (rfl : runWeak Env.sample ⟨id, id⟩ (World.init oneFile) reopenAfterExpiry = some _))⟩

/-- The entry expires while the first cursor still holds its Source. -/
def openExpireOpen : List Action :=
  [.construct ["a"] [] none, .expire "home/a.json", .construct ["a"] [] none]

/-- Each cursor writes through its own Source, both sync, both events
are delivered. -/
def writeBoth : List Action :=
  [.setValue 0 "k" (.scalar (.int 1)) ⟨false⟩, .setValue 1 "m" (.scalar (.int 2)) ⟨false⟩, .sync 0,
    .sync 1, .dispatch, .dispatch]

/-- The strong cache: two live Sources of `home/a.json`, and the second
save overwrites the first one's write. -/
theorem two_sources_one_file :
    ∃ w, run Env.sample ⟨id, id⟩ (World.init oneFile) openExpireOpen = some w ∧
      w.holds 0 = true ∧ w.holds 1 = true ∧
      (w.store.sources 0).fileName = "home/a.json" ∧ (w.store.sources 1).fileName = "home/a.json" ∧
      (run Env.sample ⟨id, id⟩ w writeBoth).map (fun w => (w.saves, w.fs.load Env.sample "home/a.json")) =
        some ([(0, .map [("k", .scalar (.int 1))]), (1, .map [("m", .scalar (.int 2))])],
          .map [("m", .scalar (.int 2))]) :=
  ⟨_, rfl, rfl, rfl, rfl, rfl, rfl⟩

-- ==================================================== what open consults

/-- One writable file `a` in the user directory, with no extension. -/
def bareFile : FileSystem := .ofList [("home/a", ⟨.map [], 0, true⟩)]

/-- A cache entry for `home/a.json` whose file is gone: the Source
recorded the stamp 5. -/
def staleEntry : World :=
  { World.init FileSystem.empty with
    store := ⟨Heap.empty, fun _ => ⟨"home/a.json", ⟨"json"⟩, false, false, ⟨0, 0⟩, some 5⟩, 1⟩
    cache := [("home/a.json", 0)] }

/-- One writable file `a.json` in the system directory. -/
def writableSystemFile : FileSystem := .ofList [("sys/a.json", ⟨.map [], 0, true⟩)]

/-- `open` on the raw path's `QFileInfo`: with an explicit backend, the
existence check reads `QFileInfo("a")`, not the resolved `home/a`, which
exists, uncached: no Source. And on a cached Source whose file is gone,
`open("a", create = false)` answers that stale Source. A writable file
opened from the system directory gets a writable root. -/
theorem open_consults_raw_path :
    (resolveName Env.sample "a" false = some "home/a" ∧
      (World.init bareFile).fs.exists_ Env.sample "home/a" = true ∧
      (World.init bareFile).cached "home/a" = none ∧
      (openSource Env.sample "a" false false (some ⟨"json"⟩) (World.init bareFile)).1 = none) ∧
    staleEntry.cached "home/a.json" = some 0 ∧ staleEntry.isValid Env.sample 0 = false ∧
      staleEntry.fs.exists_ Env.sample "home/a.json" = false ∧
      (openSource Env.sample "a" false false none staleEntry).1 = some 0 ∧
    (openSource Env.sample "a" true false none (World.init writableSystemFile)).1 = some 0 ∧
    ((openSource Env.sample "a" true false none (World.init writableSystemFile)).2.store.heap.atom
      ((openSource Env.sample "a" true false none (World.init writableSystemFile)).2.store.sources
        0).data).readOnly = false :=
  ⟨⟨rfl, rfl, rfl, rfl⟩, rfl, rfl, rfl, rfl, rfl, rfl⟩

end QutimConfig
