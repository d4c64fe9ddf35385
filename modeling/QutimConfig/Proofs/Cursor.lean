/-
Every cursor operation keeps the heap invariant: the heap stays closed
and only grows, and every level of the cursor stays sound. Together
with `Heap.Grows` this is what the other live cursors need — their
levels stay sound without being touched.
-/
import QutimConfig.Config
import QutimConfig.Proofs.Heap

namespace QutimConfig

open Heap

variable {h h' : Heap} {d d' : ConfigPrivate}

/-- Every level of a cursor is sound. -/
def ConfigPrivate.OK (h : Heap) (d : ConfigPrivate) : Prop :=
  ∀ l ∈ d.current :: d.parents, l.OK h

/-- A sound cursor stays sound as the heap grows. -/
theorem ConfigPrivate.OK.grow (hd : d.OK h) (hg : h.Grows h') : d.OK h' :=
  fun l hl => (hd l hl).grow hg

/-- The current level of a sound cursor is sound. -/
theorem ConfigPrivate.OK.current (hd : d.OK h) : d.current.OK h := hd _ (by simp)

/-- Pushing a sound level keeps the cursor sound. -/
theorem ConfigPrivate.OK.push (hd : d.OK h) {l : ConfigLevel} (hl : l.OK h) : (d.push l).OK h := by
  intro l' hl'
  simp only [ConfigPrivate.push, List.mem_cons] at hl'
  rcases hl' with rfl | hl'
  · exact hl
  · exact hd l' (List.mem_cons.2 hl')

/-- Popping a level keeps the cursor sound. -/
theorem ConfigPrivate.OK.pop (hd : d.OK h) (e : d.pop = some d') : d'.OK h := by
  unfold ConfigPrivate.pop at e
  split at e
  · cases e
  · next l ls hp =>
      simp only [Option.some.injEq] at e
      subst e
      intro l' hl'
      exact hd l' (by simp_all)

/-- A cursor operation's guarantee on the heap and the cursor. -/
structure OpOK (h h' : Heap) (d' : ConfigPrivate) : Prop where
  closed : h'.Closed
  grows : h.Grows h'
  ok : d'.OK h'

/-- An operation that changes nothing keeps the guarantee. -/
theorem OpOK.refl (hh : h.Closed) (hd : d.OK h) : OpOK h h d := ⟨hh, Grows.refl h, hd⟩

/-- Two operations one after the other keep the guarantee. -/
theorem OpOK.trans {d'' : ConfigPrivate} {h'' : Heap} (o₁ : OpOK h h' d') (o₂ : OpOK h' h'' d'') :
    OpOK h h'' d'' :=
  ⟨o₂.closed, o₁.grows.trans o₂.grows, o₂.ok⟩

-- ======================================================== navigation

/-- Descending through child names is one `LevelStep` of the current level. -/
theorem childNames_step {l l' : ConfigLevel} {names : List String} (hl : l.OK h) (hh : h.Closed)
    (e : l.childNames names h = some (l', h')) : LevelStep h l h' l' := by
  unfold ConfigLevel.childNames at e
  split_ifs at e
  exact ConfigLevel.childPath_step names hl hh e

/-- `beginGroup` pushes one level reached by a `LevelStep` (config.cpp:905-914). -/
theorem beginGroup_ok {name : String} (hd : d.OK h) (hh : h.Closed)
    (e : beginGroup name d h = some (d', h')) :
    OpOK h h' d' ∧ ∃ l, d' = d.push l ∧ LevelStep h d.current h' l := by
  simp only [beginGroup, Option.bind_eq_bind, Option.bind_eq_some, Option.guard_eq_some,
    Option.pure_def, Option.some.injEq, Prod.mk.injEq] at e
  obtain ⟨-, -, -, -, ⟨l₁, h₁⟩, e₁, ⟨l₂, h₂⟩, e₂, rfl, rfl⟩ := e
  have s₁ := childNames_step hd.current hh e₁
  have s := s₁.trans (ConfigLevel.map_step (convertCallback_ok .map) s₁.ok s₁.closed e₂)
  exact ⟨⟨s.closed, s.grows, (hd.grow s.grows).push s.ok⟩, l₂, rfl, s⟩

/-- `endGroup` pops a level of a sound cursor (config.cpp:916-921). -/
theorem endGroup_ok (hd : d.OK h) (e : endGroup d = some d') : d'.OK h := hd.pop e

/-- Entering a key's group part keeps the guarantee. -/
theorem enterKey_ok {key : String} (hd : d.OK h) (hh : h.Closed)
    (e : enterKey key d h = some (d', h')) : OpOK h h' d' := by
  unfold enterKey at e
  split_ifs at e
  · simp only [Option.some.injEq, Prod.mk.injEq] at e
    obtain ⟨rfl, rfl⟩ := e
    exact .refl hh hd
  · exact (beginGroup_ok hd hh e).1

/-- Leaving a key's group part pops back to a sound cursor. -/
theorem leaveKey_ok {key : String} (hd : d.OK h) (e : leaveKey key d = some d') : d'.OK h := by
  unfold leaveKey at e
  split_ifs at e
  · cases e; exact hd
  · exact hd.pop e

/-- The reading loop of `value` keeps the heap closed, grows it, and
changes only the regions of the atoms it reads. -/
theorem valueLoop_ok {name : String} :
    ∀ (as : List Ptr) (var : Variant) {h h' : Heap} {r : Variant}, h.Closed →
      (∀ a ∈ as, h.Valid a) → valueLoop name as var h = some (r, h') →
      h'.Closed ∧ h.Grows h' ∧ ∀ u, u ∉ as.map Ptr.tree → h'.trees u = h.trees u
  | [], var, h, h', r, hh, _, e => by
      simp only [valueLoop, Option.some.injEq, Prod.mk.injEq] at e
      obtain ⟨-, rfl⟩ := e
      exact ⟨hh, Grows.refl h, fun _ _ => rfl⟩
  | a :: as, var, h, h', r, hh, hv, e => by
      simp only [valueLoop] at e
      split_ifs at e
      simp only [Option.bind_eq_bind, Option.bind_eq_some] at e
      obtain ⟨⟨c, h₁⟩, e₁, e₂⟩ := e
      have hl := (child_local hh (hv a (by simp)) e₁).1
      have hfr : ∀ u, u ∉ (a :: as).map Ptr.tree → h₁.trees u = h.trees u := fun u hu =>
        hl.frame u fun e => hu (by simp [e])
      split at e₂
      · obtain ⟨hc, hg, hf⟩ := valueLoop_ok as _ hl.closed
          (fun b hb => (hv b (by simp [hb])).grow hl.grows) e₂
        exact ⟨hc, hl.grows.trans hg, fun u hu =>
          (hf u fun m => hu (List.mem_cons_of_mem _ m)).trans (hfr u hu)⟩
      · simp only [Option.pure_def, Option.some.injEq, Prod.mk.injEq] at e₂
        obtain ⟨-, rfl⟩ := e₂
        exact ⟨hl.closed, hl.grows, hfr⟩

/-- `value` keeps the guarantee (config.cpp:1023-1060). -/
theorem value_ok {cs : CryptoService} {key : String} {dflt : Variant} {flags : ValueFlags}
    {r : Variant} (hd : d.OK h) (hh : h.Closed)
    (e : value cs key dflt flags d h = some (r, d', h')) : OpOK h h' d' := by
  unfold value at e
  split at e
  · simp only [Option.some.injEq, Prod.mk.injEq] at e
    obtain ⟨-, rfl, rfl⟩ := e
    exact .refl hh hd
  · simp only [Option.bind_eq_bind, Option.bind_eq_some, Option.pure_def, Option.some.injEq,
      Prod.mk.injEq] at e
    obtain ⟨⟨d₁, h₁⟩, e₁, ⟨r₂, h₂⟩, e₂, d₃, e₃, -, rfl, rfl⟩ := e
    have o₁ := enterKey_ok hd hh e₁
    obtain ⟨hc, hg, -⟩ := valueLoop_ok _ _ o₁.closed o₁.ok.current.valid e₂
    exact ⟨hc, o₁.grows.trans hg, (leaveKey_ok o₁.ok e₃).grow hg⟩

-- ================================================= writes and removes

/-- The Sources' records changed at most by dirty bits being set. -/
def Store.DirtiesOnly (s s' : Store) : Prop :=
  s'.nsources = s.nsources ∧ ∀ i, s'.sources i = s.sources i ∨ s'.sources i = { s.sources i with dirty := true }

/-- Replacing the heap leaves every Source's record alone. -/
theorem Store.DirtiesOnly.withHeap (s : Store) (h : Heap) : s.DirtiesOnly (s.withHeap h) :=
  ⟨rfl, fun _ => .inl rfl⟩

/-- Marking one Source dirty only sets its dirty bit. -/
theorem Store.DirtiesOnly.makeDirty (s : Store) (h : Heap) (i : Nat) :
    s.DirtiesOnly ((s.withHeap h).makeDirty i) := by
  refine ⟨rfl, fun j => ?_⟩
  by_cases hj : j = i
  · subst hj; simp [Store.makeDirty, Store.setSource]
  · left; simp [Store.makeDirty, Store.setSource, hj]

@[simp] theorem markWritten_heap (srcs : List Nat) (b : Bool) (s : Store) :
    (markWritten srcs b s).heap = s.heap := by
  unfold markWritten; split <;> [split <;> rfl; rfl]

/-- Marking the written Sources only sets dirty bits. -/
theorem markWritten_dirtiesOnly (srcs : List Nat) (b : Bool) (s : Store) (h : Heap) :
    s.DirtiesOnly (markWritten srcs b (s.withHeap h)) := by
  unfold markWritten; split <;> [split; skip]
  · exact .makeDirty s h _
  all_goals exact .withHeap s h

/-- `setValue` keeps the guarantee and only sets dirty bits (config.cpp:1062-1085). -/
theorem setValue_ok {cs : CryptoService} {key : String} {v : Variant} {flags : ValueFlags}
    {s s' : Store} (hd : d.OK s.heap) (hh : s.heap.Closed)
    (e : setValue cs key v flags d s = some (d', s')) :
    OpOK s.heap s'.heap d' ∧ s.DirtiesOnly s' := by
  unfold setValue at e
  split at e
  · simp only [Option.some.injEq, Prod.mk.injEq] at e
    obtain ⟨rfl, rfl⟩ := e
    exact ⟨.refl hh hd, Store.DirtiesOnly.withHeap s s.heap⟩
  · simp only [Option.bind_eq_bind, Option.bind_eq_some, Option.guard_eq_some, Option.pure_def,
      Option.some.injEq, Prod.mk.injEq] at e
    obtain ⟨⟨d₁, h₁⟩, e₁, a, ha, u, hg, ⟨b, h₃⟩, e₃, d₄, e₄, rfl, rfl⟩ := e
    simp only [markWritten_heap, Store.withHeap_heap]
    dsimp only at ha hg e₃ e₄ ⊢
    have o₁ := enterKey_ok hd hh e₁
    have hva := o₁.ok.current.valid a (List.mem_of_mem_head? ha)
    obtain ⟨hl₂, hv₂⟩ := fromVariant_local o₁.closed hva.1
      (if flags.crypted then cs.crypt v else v) false
    obtain ⟨hroot, hor, hro, hframe⟩ := fromVariant_root o₁.closed a.tree
      (if flags.crypted then cs.crypt v else v) false
    have hwa : ((h₁.trees a.tree).cells a.addr).readOnly = false := by
      unfold guard at hg
      split at hg
      · next hc =>
          simp only [Bool.and_eq_true, Bool.not_eq_true'] at hc
          exact hc.2
      · cases hg
    have hl₃ := replace_local hl₂.closed (hva.grow hl₂.grows) hv₂.2 (hroot ▸ hva.2) hor
      (by rw [hro, hframe a.addr hva.2, hwa]) e₃
    exact ⟨⟨hl₃.closed, o₁.grows.trans (hl₂.grows.trans hl₃.grows),
      (leaveKey_ok o₁.ok e₄).grow (hl₂.grows.trans hl₃.grows)⟩, markWritten_dirtiesOnly _ _ _ _⟩

/-- `remove` keeps the heap closed, grows it, and only sets dirty bits (config.cpp:923-929). -/
theorem remove_ok {name : String} {s s' : Store} (hh : s.heap.Closed) (hd : d.OK s.heap)
    (e : remove name d s = some s') :
    s'.heap.Closed ∧ s.heap.Grows s'.heap ∧ s.DirtiesOnly s' := by
  simp only [remove, Option.bind_eq_bind, Option.bind_eq_some] at e
  obtain ⟨a, ha, ⟨b, h₁⟩, e₁, e₂⟩ := e
  have hl := remove_local hh (hd.current.valid a (List.mem_of_mem_head? ha)) e₁
  split at e₂
  · simp only [Option.bind_eq_bind, Option.bind_eq_some, Option.pure_def, Option.some.injEq] at e₂
    obtain ⟨i, -, rfl⟩ := e₂
    exact ⟨hl.closed, hl.grows, .makeDirty s h₁ i⟩
  · simp only [Option.pure_def, Option.some.injEq] at e₂
    subst e₂
    exact ⟨hl.closed, hl.grows, .withHeap s h₁⟩

/-- Dropping the array element level keeps the cursor sound. -/
theorem popElement_ok {d₁ : ConfigPrivate} (hd : d.OK h) (e : d.popElement = some d₁) :
    d₁.OK h := by
  unfold ConfigPrivate.popElement at e
  split at e
  · exact hd.pop e
  · cases e; exact hd

/-- `remove(int)` keeps the guarantee and only sets dirty bits (config.cpp:997-1007). -/
theorem removeAt_ok {index : Int} {s s' : Store} (hh : s.heap.Closed) (hd : d.OK s.heap)
    (e : removeAt index d s = some (d', s')) :
    OpOK s.heap s'.heap d' ∧ s.DirtiesOnly s' := by
  simp only [removeAt, Option.bind_eq_bind, Option.bind_eq_some] at e
  obtain ⟨d₁, e₁, a, ha, ⟨b, h₁⟩, e₂, e₃⟩ := e
  have hd₁ := popElement_ok hd e₁
  have hl := removeAt_local hh (hd₁.current.valid a (List.mem_of_mem_head? ha)) e₂
  split at e₃
  · simp only [Option.bind_eq_bind, Option.bind_eq_some, Option.pure_def, Option.some.injEq,
      Prod.mk.injEq] at e₃
    obtain ⟨i, -, rfl, rfl⟩ := e₃
    exact ⟨⟨hl.closed, hl.grows, hd₁.grow hl.grows⟩, .makeDirty s h₁ i⟩
  · simp only [Option.pure_def, Option.some.injEq, Prod.mk.injEq] at e₃
    obtain ⟨rfl, rfl⟩ := e₃
    exact ⟨⟨hl.closed, hl.grows, hd₁.grow hl.grows⟩, .withHeap s h₁⟩

-- ============================================================ arrays

/-- `beginArray` keeps the guarantee (config.cpp:943-952). -/
theorem beginArray_ok {name : String} {n : Nat} (hd : d.OK h) (hh : h.Closed)
    (e : beginArray name d h = some (n, d', h')) : OpOK h h' d' := by
  simp only [beginArray, Option.bind_eq_bind, Option.bind_eq_some, Option.guard_eq_some,
    Option.pure_def, Option.some.injEq, Prod.mk.injEq] at e
  obtain ⟨-, -, ⟨l₁, h₁⟩, e₁, ⟨l₂, h₂⟩, e₂, m, -, -, rfl, rfl⟩ := e
  have s₁ := childNames_step hd.current hh e₁
  have s := s₁.trans (ConfigLevel.map_step (convertCallback_ok .list) s₁.ok s₁.closed e₂)
  exact ⟨s.closed, s.grows, (hd.grow s.grows).push s.ok⟩

/-- `endArray` pops back to a sound cursor (config.cpp:954-965). -/
theorem endArray_ok (hd : d.OK h) (e : endArray d = some d') : d'.OK h := by
  simp only [endArray, Option.bind_eq_bind, Option.bind_eq_some, Option.guard_eq_some] at e
  obtain ⟨-, -, d₁, e₁, -, -, e₂⟩ := e
  exact (popElement_ok hd e₁).pop e₂

/-- `setArrayIndex` keeps the guarantee (config.cpp:982-995). -/
theorem setArrayIndex_ok {index : Int} (hd : d.OK h) (hh : h.Closed)
    (e : setArrayIndex index d h = some (d', h')) : OpOK h h' d' := by
  simp only [setArrayIndex, Option.bind_eq_bind, Option.bind_eq_some, Option.guard_eq_some,
    Option.pure_def, Option.some.injEq, Prod.mk.injEq] at e
  obtain ⟨d₁, e₁, a, -, -, -, ⟨l₁, h₁⟩, e₂, ⟨l₂, h₂⟩, e₃, rfl, rfl⟩ := e
  have hd₁ := popElement_ok hd e₁
  have s₁ := ConfigLevel.map_step (childAtCallback_ok index) hd₁.current hh e₂
  have s := s₁.trans (ConfigLevel.map_step (convertCallback_ok .map) s₁.ok s₁.closed e₃)
  exact ⟨s.closed, s.grows, (hd₁.grow s.grows).push ⟨s.ok.valid, s.ok.separate⟩⟩

-- =================================================== derived cursors

/-- A copy of the current level is a sound cursor. -/
theorem clone_ok (hd : d.OK h) (g : Option Nat) : { d.clone with memoryGuard := g }.OK h := by
  intro l hl
  simp only [ConfigPrivate.clone, List.mem_cons, List.not_mem_nil, or_false] at hl
  subst hl
  exact hd.current

/-- `group` keeps the guarantee for both cursors it leaves. -/
theorem group_ok {name : String} {self : Nat} {p : ConfigPrivate} (hd : d.OK h) (hh : h.Closed)
    (e : group name self d h = some (p, d', h')) : OpOK h h' d' ∧ p.OK h' := by
  simp only [group, Option.bind_eq_bind, Option.bind_eq_some, Option.guard_eq_some,
    Option.pure_def, Option.some.injEq, Prod.mk.injEq] at e
  obtain ⟨-, -, ⟨d₁, h₁⟩, e₁, d₂, e₂, rfl, rfl, rfl⟩ := e
  have o := (beginGroup_ok hd hh e₁).1
  exact ⟨⟨o.closed, o.grows, endGroup_ok o.ok e₂⟩, clone_ok o.ok _⟩

/-- `arrayElement` gives a sound cursor. -/
theorem arrayElement_ok {index : Int} {self : Nat} {p : ConfigPrivate} (hd : d.OK h)
    (hh : h.Closed) (e : arrayElement index self d h = some (p, h')) : OpOK h h' p :=
  setArrayIndex_ok (clone_ok hd _) hh e

end QutimConfig
