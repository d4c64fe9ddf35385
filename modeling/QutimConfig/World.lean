/-
The process as a state machine: every public `Config` operation on a
live cursor, cursor construction and destruction, the delivery of a
posted save event, the post routine's drain, and the expiry of a cache
entry (config.cpp:393-438, 542-569, 741-758), each followed by the
destructors of the Sources it let go. `Reachable` closes the initial
world, over any files on disk, under these steps.

# Scheduling

One event-loop thread runs everything: each action is atomic and any
order of actions is a run. `PostConfigSaver` delivers its events in the
order they were posted; the drain (`PostConfigSaver::cleanup`, run
once by the application's post routines) delivers all of them, and no
event is delivered after it.

# Lifetimes

A `ConfigPrivate` dies when its last handle drops; a cursor whose
memory guard it is keeps it alive. A Source is held through
`QSharedPointer`s by cursors, pending events and the cache, and dies
in the step that drops its last holder (`collect`). Reads that change
nothing (`arraySize`, `rootValue`, `childGroups`, ...) are not steps.
-/
import QutimConfig.Source

namespace QutimConfig

namespace World

variable (env : Env)

/-- Post the save event `ConfigPrivate::sync()` asks for, if any. -/
def syncConfig (w : World) (d : ConfigPrivate) : World :=
  let r := d.sync w.store
  { w with store := r.1, events := w.events ++ r.2.toList }

/-- `PostConfigSaver::event`: sync the Source, then clear `isAtLoop`. -/
def deliver (w : World) (i : Nat) : World :=
  let w := w.syncSource env i
  { w with store := w.store.setSource i { w.store.sources i with isAtLoop := false } }

/-- Deliver a list of events in order. -/
def deliverAll : List Nat → World → World
  | [], w => w
  | i :: rest, w => deliverAll rest (deliver env w i)

/-- The event loop delivers the first posted save event. -/
def dispatch (w : World) : Option World :=
  if w.drained then none
  else match w.events with
    | [] => none
    | i :: rest => some (deliver env { w with events := rest } i)

/-- `PostConfigSaver::cleanup`: every posted event is delivered now, and
none is delivered afterwards. -/
def drain (w : World) : Option World :=
  if w.drained then none
  else some { deliverAll env w.events { w with events := [] } with drained := true }

/-- Is cursor `i` the memory guard of a live cursor? -/
def guards (w : World) (i : Nat) : Bool :=
  w.configs.any fun c => c.any fun d => d.memoryGuard == some i

/-- The body of `~ConfigPrivate`: a cursor without a memory guard syncs. -/
def destruct (w : World) (d : ConfigPrivate) : World :=
  if d.memoryGuard.isNone then w.syncConfig d else w

/-- The handle is gone. -/
def release (w : World) (i : Nat) : World := { w with configs := w.configs.set i none }

/-- `~ConfigPrivate`, run when the last handle drops; a cursor that
guards a live one cannot die yet. -/
def destroy (w : World) (i : Nat) : Option World := do
  let d ← w.config i
  guard (!w.guards i)
  pure ((w.destruct d).release i)

/-- Is Source `i` still held by a live cursor, an event or the cache? -/
def holds (w : World) (i : Nat) : Bool :=
  w.configs.any (fun c => c.any fun d => d.sources.contains i) || w.events.contains i ||
    w.cache.any (·.2 == i)

/-- `~ConfigSource`: a dirty Source is synced as it dies. -/
def destroySource (w : World) (i : Nat) : World :=
  let w := if (w.store.sources i).dirty then w.syncSource env i else w
  { w with freed := w.freed ++ [i] }

/-- Source `i` dies if it is alive and nothing holds it any more. -/
def collectOne (w : World) (i : Nat) : World :=
  if !w.freed.contains i && !w.holds i then w.destroySource env i else w

/-- The `QSharedPointer`s let go: every Source that no cursor, pending
event or cache entry holds any more dies at once, in index order. -/
def collect (w : World) : World := (List.range w.store.nsources).foldl (collectOne env) w

/-- `ConfigSourceHash::timerEvent`: the entry of a key expires. -/
def expire (w : World) (key : String) : World := { w with cache := QMap.erase key w.cache }

/-- Add a cursor; its handle is the next index. -/
def addConfig (w : World) (d : ConfigPrivate) : World := { w with configs := w.configs ++ [some d] }

end World

/-- What the process can do next. -/
inductive Action where
  | construct (paths : List String) (fallbacks : List Variant) (backend : Option Backend)
  | fromTree (v : Variant)
  | beginGroup (c : Nat) (name : String)
  | endGroup (c : Nat)
  | value (c : Nat) (key : String) (dflt : Variant) (flags : ValueFlags)
  | setValue (c : Nat) (key : String) (v : Variant) (flags : ValueFlags)
  | remove (c : Nat) (name : String)
  | removeAt (c : Nat) (index : Int)
  | beginArray (c : Nat) (name : String)
  | endArray (c : Nat)
  | setArrayIndex (c : Nat) (index : Int)
  | group (c : Nat) (name : String)
  | arrayElement (c : Nat) (index : Int)
  | sync (c : Nat)
  | destroy (c : Nat)
  | dispatch
  | drain
  | expire (key : String)

open World in
/-- What an action does. `fromTree` is `Config(QVariantMap)` or
`Config(QVariantList)`, so its tree is a map or a list. -/
def perform (env : Env) (cs : CryptoService) (w : World) : Action → Option World
  | .construct paths fallbacks bk =>
      let r := construct env paths fallbacks bk w
      some (r.2.addConfig r.1)
  | .fromTree v =>
      match v with
      | .map _ | .list _ => let r := constructFromTree v w; some (r.2.addConfig r.1)
      | _ => none
  | .beginGroup c name => do
      let r ← beginGroup name (← w.config c) w.store.heap
      pure ((w.setConfig c r.1).setHeap r.2)
  | .endGroup c => do
      pure (w.setConfig c (← endGroup (← w.config c)))
  | .value c key dflt flags => do
      let r ← value cs key dflt flags (← w.config c) w.store.heap
      pure ((w.setConfig c r.2.1).setHeap r.2.2)
  | .setValue c key v flags => do
      let r ← setValue cs key v flags (← w.config c) w.store
      pure { w.setConfig c r.1 with store := r.2 }
  | .remove c name => do
      let s ← remove name (← w.config c) w.store
      pure { w with store := s }
  | .removeAt c index => do
      let r ← removeAt index (← w.config c) w.store
      pure { w.setConfig c r.1 with store := r.2 }
  | .beginArray c name => do
      let r ← beginArray name (← w.config c) w.store.heap
      pure ((w.setConfig c r.2.1).setHeap r.2.2)
  | .endArray c => do
      pure (w.setConfig c (← endArray (← w.config c)))
  | .setArrayIndex c index => do
      let r ← setArrayIndex index (← w.config c) w.store.heap
      pure ((w.setConfig c r.1).setHeap r.2)
  | .group c name => do
      let r ← group name c (← w.config c) w.store.heap
      pure (((w.setConfig c r.2.1).setHeap r.2.2).addConfig r.1)
  | .arrayElement c index => do
      let r ← arrayElement index c (← w.config c) w.store.heap
      pure ((w.setHeap r.2).addConfig r.1)
  | .sync c => do pure (w.syncConfig (← w.config c))
  | .destroy c => w.destroy c
  | .dispatch => w.dispatch env
  | .drain => w.drain env
  | .expire key => if (w.cached key).isSome then some (w.expire key) else none

/-- One step of the process: the action, then the destructors of the
Sources it let go. -/
def step (env : Env) (cs : CryptoService) (w : World) (a : Action) : Option World :=
  (perform env cs w a).map (World.collect env)

/-- Run actions in order. -/
def run (env : Env) (cs : CryptoService) : World → List Action → Option World
  | w, [] => some w
  | w, a :: as => (step env cs w a).bind fun w => run env cs w as

/-- The worlds a process can be in: from any files on disk, any steps. -/
inductive Reachable (env : Env) (cs : CryptoService) : World → Prop
  | init (fs : FileSystem) : Reachable env cs (World.init fs)
  | step {w w' : World} (a : Action) :
      Reachable env cs w → step env cs w a = some w' → Reachable env cs w'

/-- A run from a reachable world ends in a reachable world. -/
theorem Reachable.run {env : Env} {cs : CryptoService} :
    ∀ {w w' : World} {as : List Action}, Reachable env cs w → run env cs w as = some w' →
      Reachable env cs w'
  | w, w', [], hw, h => by simp only [QutimConfig.run, Option.some.injEq] at h; exact h ▸ hw
  | w, w', a :: as, hw, h => by
      simp only [QutimConfig.run, Option.bind_eq_some] at h
      obtain ⟨w₁, h₁, h₂⟩ := h
      exact Reachable.run (Reachable.step a hw h₁) h₂

-- ================================================== handle bookkeeping

namespace World

variable {w : World} {i j : Nat} {d d' : ConfigPrivate}

theorem config_setConfig (e : (w.setConfig i d).config j = some d') :
    (j = i ∧ d' = d) ∨ w.config j = some d' := by
  simp only [config, setConfig, List.getElem?_set] at e ⊢
  by_cases h : i = j
  · subst h
    left
    split_ifs at e <;> simp_all
  · simp only [h, if_false] at e
    exact .inr e

theorem config_addConfig (e : (w.addConfig d).config j = some d') :
    (j = w.configs.length ∧ d' = d) ∨ w.config j = some d' := by
  simp only [config, addConfig, List.getElem?_append] at e ⊢
  split_ifs at e with h₁
  · exact .inr e
  · obtain h₂ | h₂ := Nat.lt_or_ge j (w.configs.length + 1)
    · have : j = w.configs.length := by omega
      subst this; simp at e; exact .inl ⟨rfl, e.symm⟩
    · rw [List.getElem?_eq_none (by simp; omega)] at e
      cases e

theorem config_release (e : (w.release i).config j = some d') :
    w.config j = some d' := by
  simp only [config, release, List.getElem?_set] at e ⊢
  by_cases h : i = j
  · subst h; split_ifs at e <;> simp_all
  · simpa [h] using e

end World

-- ================================================ a concrete setting

/-- An environment to run the model in: relative names resolve under
`home/` (user) or `sys/` (system), there are no suffixes, and the one
backend is `json`. -/
def Env.sample : Env where
  configDir := fun systemDir => if systemDir then "sys/" else "home/"
  isAbsolute := fun _ => false
  filePath := fun dir name => dir ++ name
  cleanPath := id
  absoluteFilePath := id
  absolutePath := fun _ => ""
  suffix := fun _ => ""
  backends := [⟨"json"⟩]

/-- No files; every directory exists. -/
def FileSystem.empty : FileSystem := ⟨fun _ => none, fun _ => true, 0⟩

end QutimConfig
