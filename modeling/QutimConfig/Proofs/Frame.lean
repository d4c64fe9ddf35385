/-
What an operation on a level leaves alone, and what it does when it is
run again: `ConfigAtom::child`, `replace` and `convert`
(config.cpp:158-266), `ConfigLevel::map` and its callers
(config.cpp:605-680), and the cursor operations built on them.

# The frame below a level

Every operation on a level acts on the level's atoms and on nodes past
them: `child(name)`, `child(index)` and `convert` rewrite the atom they
are given and allocate past the region's end, and what they answer lies
past the atom. So an operation leaves every node strictly below the
level's atoms as it was (`FixedBelow`), and the levels it reaches rise
(`Rises`): `value` and `setValue` on an element frame leave the list
frame, and every node on the way to it, as they were
(`value_fixedBelow`, `setValue_fixedBelow`).

# Replaying navigation

`beginArray` on a path it has already walked answers the same level and
changes nothing: each callback, shown again the atom it left, finds the
entry it found or created (`Replays`). A heap that kept the nodes below
the list frame, and its atoms' tags and flags, is walked the same way
(`childPath_replay`), and `beginArray` reports the list frame's size as
it is then (`beginArray_replay`).
-/
import QutimConfig.Proofs.Write
import QutimConfig.Proofs.Derived

namespace QutimConfig

-- ============================================= what an operation touches

namespace Tree

variable {T T' T'' : Tree} {a : Nat}

/-- `T'` is `T` with node `a` rewritten and nodes allocated past the
end: every other allocated node is as it was. -/
def Touches (T T' : Tree) (a : Nat) : Prop :=
  T.next ≤ T'.next ∧ ∀ y < T.next, y ≠ a → T'.cells y = T.cells y

theorem Touches.refl (T : Tree) (a : Nat) : Touches T T a := ⟨le_rfl, fun _ _ _ => rfl⟩

theorem Touches.trans (h₁ : Touches T T' a) (h₂ : Touches T' T'' a) : Touches T T'' a :=
  ⟨h₁.1.trans h₂.1, fun y hy hya => (h₂.2 y (lt_of_lt_of_le hy h₁.1) hya).trans (h₁.2 y hy hya)⟩

theorem touches_setPayload (T : Tree) (a : Nat) (p : Payload) : Touches T (T.setPayload a p) a :=
  ⟨le_rfl, fun _ _ h => setPayload_cells_ne _ _ h⟩

theorem touches_alloc (T : Tree) (x : Atom) (a : Nat) : Touches T (T.alloc x).1 a :=
  ⟨by simp, fun _ hy _ => alloc_cells_ne _ _ (Nat.ne_of_lt hy)⟩

theorem touches_ensureMap (T : Tree) (a : Nat) : Touches T (T.ensureMap a) a := by
  unfold ensureMap
  split
  · exact .refl T a
  · exact touches_setPayload T a _

theorem touches_ensureList (T : Tree) (a : Nat) : Touches T (T.ensureList a) a := by
  unfold ensureList
  split
  · exact .refl T a
  · exact touches_setPayload T a _

theorem touches_ensureValue (T : Tree) (a : Nat) : Touches T (T.ensureValue a) a := by
  unfold ensureValue
  split
  · exact .refl T a
  · exact touches_setPayload T a _

theorem touches_convert (T : Tree) (a : Nat) (type : AtomType) : Touches T (T.convert a type) a := by
  unfold convert
  split_ifs
  · exact .refl T a
  · cases type
    · exact touches_ensureList T a
    · exact touches_ensureMap T a
    · exact touches_ensureValue T a
    · exact touches_setPayload T a _

theorem touches_grow (ro : Bool) : ∀ (n : Nat) (T : Tree), Touches T (grow a ro n T) a
  | 0, T => .refl T a
  | n + 1, T => by
      simp only [grow]
      exact ((touches_alloc T _ a).trans (touches_setPayload _ a _)).trans (touches_grow ro n _)

theorem touches_child {name : String} {r : Option Nat} (h : T.child a name = some (r, T')) :
    Touches T T' a := by
  rcases child_cases h with ⟨-, -, rfl, -⟩ | ⟨-, rfl, -, -⟩ | ⟨-, -, -, rfl⟩
  · exact .refl _ a
  · exact .refl _ a
  · exact ((touches_ensureMap T a).trans (touches_alloc _ _ a)).trans (touches_setPayload _ a _)

theorem touches_childAt {index : Int} {r : Option Nat} (h : T.childAt a index = some (r, T')) :
    Touches T T' a := by
  unfold Tree.childAt at h
  dsimp only at h
  split_ifs at h
  · simp only [Option.some.injEq, Prod.mk.injEq] at h
    obtain ⟨-, rfl⟩ := h
    exact touches_ensureList T a
  · split at h
    · simp only [Option.some.injEq, Prod.mk.injEq] at h
      obtain ⟨-, rfl⟩ := h
      exact (touches_ensureList T a).trans (touches_grow _ _ _)
    · cases h

theorem touches_replace {name : String} {v : Nat} {b : Bool} (h : T.replace a name v = some (b, T')) :
    Touches T T' a := by
  rcases (replace_cases h).2 with ⟨rfl, -⟩ | ⟨rfl, -⟩
  · exact touches_setPayload _ a _
  · exact .refl _ a

theorem touches_fromVariant (hT : T.Closed) (ro : Bool) (v : Variant) (a : Nat) :
    Touches T (Tree.fromVariant ro v T).2 a :=
  ⟨(hT.fromVariant_spec ro v).2.1.le, fun y hy _ => (hT.fromVariant_spec ro v).2.2.1 y hy⟩

/-- What `child(name)` answers lies past the node. -/
theorem child_above (hT : T.Closed) (ha : a < T.next) {name : String} {r : Option Nat}
    (h : T.child a name = some (r, T')) : ∀ c ∈ r, a < c := by
  rcases child_cases h with ⟨c, rfl, -, hc⟩ | ⟨rfl, -⟩ | ⟨rfl, -⟩
  · exact fun _ h => Option.mem_some_iff.1 h ▸ hT.above a ha c (entry_child hc)
  · exact fun _ h => nomatch h
  · exact fun _ h => Option.mem_some_iff.1 h ▸ ha

/-- What `child(index)` answers lies past the node. -/
theorem childAt_above (hT : T.Closed) (ha : a < T.next) {index : Int} {r : Option Nat}
    (h : T.childAt a index = some (r, T')) : ∀ c ∈ r, a < c := by
  obtain ⟨hT', hn, -⟩ := hT.childAt ha h
  unfold Tree.childAt at h
  dsimp only at h
  split_ifs at h
  · simp only [Option.some.injEq, Prod.mk.injEq] at h
    obtain ⟨rfl, -⟩ := h
    exact fun _ h => nomatch h
  · split at h
    · next c hc =>
        simp only [Option.some.injEq, Prod.mk.injEq] at h
        obtain ⟨rfl, rfl⟩ := h
        exact fun _ h => Option.mem_some_iff.1 h ▸
          hT'.above a (lt_of_lt_of_le ha hn) c (mem_children_of_items (List.getElem?_mem hc))
    · cases h

end Tree

-- ======================================================= the frame below

/-- The atoms `ys` lie, region by region, past the atoms `xs`: every
`y` has an `x` in its region with `R x.addr y.addr`. -/
def Rises (R : Nat → Nat → Prop) (xs ys : List Ptr) : Prop :=
  ∀ y ∈ ys, ∃ x ∈ xs, x.tree = y.tree ∧ R x.addr y.addr

theorem Rises.refl (xs : List Ptr) : Rises (· ≤ ·) xs xs := fun y hy => ⟨y, hy, rfl, le_rfl⟩

theorem Rises.trans {R₁ R₂ R₃ : Nat → Nat → Prop} (hR : ∀ {a b c}, R₁ a b → R₂ b c → R₃ a c)
    {xs ys zs : List Ptr} (h₁ : Rises R₁ xs ys) (h₂ : Rises R₂ ys zs) : Rises R₃ xs zs := by
  intro z hz
  obtain ⟨y, hy, hyz, h₂⟩ := h₂ z hz
  obtain ⟨x, hx, hxy, h₁⟩ := h₁ y hy
  exact ⟨x, hx, hxy.trans hyz, hR h₁ h₂⟩

theorem Rises.mono {R R' : Nat → Nat → Prop} (hR : ∀ {a b}, R a b → R' a b) {xs ys : List Ptr}
    (h : Rises R xs ys) : Rises R' xs ys :=
  fun y hy => let ⟨x, hx, ht, hr⟩ := h y hy; ⟨x, hx, ht, hR hr⟩

theorem Rises.of_sublist {xs ys : List Ptr} (h : ys.Sublist xs) : Rises (· ≤ ·) xs ys :=
  fun y hy => ⟨y, h.subset hy, rfl, le_rfl⟩

/-- On a level with one atom per region, each atom lies strictly below
every atom of a strictly higher level in its region. -/
theorem Rises.below {xs ys : List Ptr} (h : Rises (· < ·) xs ys) (hn : (xs.map Ptr.tree).Nodup)
    {x : Ptr} (hx : x ∈ xs) : ∀ y ∈ ys, y.tree = x.tree → x.addr < y.addr := by
  intro y hy hyx
  obtain ⟨x', hx', ht, hlt⟩ := h y hy
  rwa [List.inj_on_of_nodup_map hn hx' hx (ht.trans hyx)] at hlt

namespace Heap

variable {h h' h'' : Heap}

/-- Every allocated node strictly below the atoms `xs` in its region,
and every node of a region none of them is in, is as it was. -/
def FixedBelow (h h' : Heap) (xs : List Ptr) : Prop :=
  ∀ p, h.Valid p → (∀ x ∈ xs, x.tree = p.tree → p.addr < x.addr) → h'.atom p = h.atom p

theorem FixedBelow.refl (h : Heap) (xs : List Ptr) : h.FixedBelow h xs := fun _ _ _ => rfl

theorem FixedBelow.mono {xs ys : List Ptr} (hf : h.FixedBelow h' ys) (hr : Rises (· ≤ ·) xs ys) :
    h.FixedBelow h' xs := fun p hp hb => hf p hp fun y hy hyt =>
  let ⟨x, hx, hxt, hle⟩ := hr y hy
  lt_of_lt_of_le (hb x hx (hxt.trans hyt)) hle

theorem FixedBelow.trans {xs ys : List Ptr} (h₁ : h.FixedBelow h' xs) (h₂ : h'.FixedBelow h'' ys)
    (hr : Rises (· ≤ ·) xs ys) (hg : h.Grows h') : h.FixedBelow h'' xs :=
  fun p hp hb => ((h₂.mono hr) p (hp.grow hg) hb).trans (h₁ p hp hb)

/-- Writing back region `a.tree` with the atom `a` rewritten. -/
theorem fixedBelow_update {a : Ptr} {T : Tree} (ht : (h.trees a.tree).Touches T a.addr) :
    h.FixedBelow (h.update a.tree T) [a] := by
  intro p hp hb
  by_cases hpt : p.tree = a.tree
  · have hlt := hb a (.head _) hpt.symm
    have hpn : p.addr < (h.trees a.tree).next := hpt ▸ hp.2
    simp only [Heap.atom, hpt, update_trees_self]
    exact ht.2 p.addr hpn (Nat.ne_of_lt hlt)
  · simp only [Heap.atom, update_trees_ne _ _ hpt]

/-- A heap that keeps every region but `t` and grows `t` without touching
its allocated nodes. -/
theorem fixedBelow_of_alloc {t : Nat} {T : Tree} (ht : (h.trees t).Touches T (h.trees t).next)
    (xs : List Ptr) : h.FixedBelow (h.update t T) xs := by
  intro p hp _
  by_cases hpt : p.tree = t
  · simp only [Heap.atom, hpt, update_trees_self]
    exact ht.2 p.addr (hpt ▸ hp.2) (Nat.ne_of_lt (hpt ▸ hp.2))
  · simp only [Heap.atom, update_trees_ne _ _ hpt]

/-- `ConfigAtom::child(name)` rewrites its own atom only. -/
theorem child_fixedBelow {a : Ptr} {name : String} {r : Option Ptr} (e : h.child a name = some (r, h')) :
    h.FixedBelow h' [a] := by
  simp only [Heap.child, Option.map_eq_some', Prod.mk.injEq] at e
  obtain ⟨⟨r₀, T⟩, e, -, rfl⟩ := e
  exact fixedBelow_update (Tree.touches_child e)

/-- `ConfigAtom::replace(name, value)` rewrites its own atom only. -/
theorem replace_fixedBelow {a : Ptr} {name : String} {v : Nat} {b : Bool}
    (e : h.replace a name v = some (b, h')) : h.FixedBelow h' [a] := by
  simp only [Heap.replace, Option.map_eq_some', Prod.mk.injEq] at e
  obtain ⟨⟨b₀, T⟩, e, -, rfl⟩ := e
  exact fixedBelow_update (Tree.touches_replace e)

end Heap

open Heap

-- ===================================================== callbacks, levels

/-- A callback acts at its atom and past the region's end, and answers a
node of the atom's region related to the atom by `R`. -/
def CallbackRises (cb : AtomCallback) (R : Nat → Nat → Prop) : Prop :=
  ∀ a ro h r h', h.Closed → h.Valid a → cb a ro h = some (r, h') →
    h.FixedBelow h' [a] ∧ ∀ c ∈ r, c.tree = a.tree ∧ R a.addr c.addr

theorem childCallback_rises (name : String) : CallbackRises (childCallback name) (· < ·) := by
  intro a ro h r h' hh ha e
  unfold childCallback at e
  split_ifs at e
  · simp only [Option.some.injEq, Prod.mk.injEq] at e
    obtain ⟨rfl, rfl⟩ := e
    exact ⟨FixedBelow.refl h _, fun _ h => nomatch h⟩
  · refine ⟨child_fixedBelow e, fun c hc => ?_⟩
    simp only [Heap.child, Option.map_eq_some', Prod.mk.injEq] at e
    obtain ⟨⟨r₀, T⟩, e, rfl, rfl⟩ := e
    obtain ⟨x, hx, rfl⟩ := Option.mem_map.1 hc
    exact ⟨rfl, Tree.child_above (hh _) ha.2 e x hx⟩

theorem childAtCallback_rises (index : Int) : CallbackRises (childAtCallback index) (· < ·) := by
  intro a ro h r h' hh ha e
  unfold childAtCallback at e
  split_ifs at e
  · simp only [Option.some.injEq, Prod.mk.injEq] at e
    obtain ⟨rfl, rfl⟩ := e
    exact ⟨FixedBelow.refl h _, fun _ h => nomatch h⟩
  · simp only [Heap.childAt, Option.map_eq_some', Prod.mk.injEq] at e
    obtain ⟨⟨r₀, T⟩, e, rfl, rfl⟩ := e
    refine ⟨fixedBelow_update (Tree.touches_childAt e), fun c hc => ?_⟩
    obtain ⟨x, hx, rfl⟩ := Option.mem_map.1 hc
    exact ⟨rfl, Tree.childAt_above (hh _) ha.2 e x hx⟩

theorem convertCallback_rises (type : AtomType) : CallbackRises (convertCallback type) (· = ·) := by
  intro a ro h r h' hh ha e
  unfold convertCallback at e
  split_ifs at e <;> simp only [Option.some.injEq, Prod.mk.injEq] at e <;> obtain ⟨rfl, rfl⟩ := e
  · exact ⟨FixedBelow.refl h _, fun _ h => nomatch h⟩
  · exact ⟨fixedBelow_update (Tree.touches_convert _ _ _),
      fun c hc => Option.mem_some_iff.1 hc ▸ ⟨rfl, rfl⟩⟩

theorem mapAtoms_rises {cb : AtomCallback} {R : Nat → Nat → Prop} (hok : CallbackOK cb)
    (hcb : CallbackRises cb R) :
    ∀ {xs : List Ptr} {first : Bool} {h : Heap} {ys : List Ptr} {h' : Heap}, h.Closed →
      (∀ x ∈ xs, h.Valid x) → mapAtoms cb first xs h = some (ys, h') →
      h.FixedBelow h' xs ∧ Rises R xs ys
  | [], _, h, _, _, _, _, e => by
      simp only [mapAtoms, Option.some.injEq, Prod.mk.injEq] at e
      obtain ⟨rfl, rfl⟩ := e
      exact ⟨FixedBelow.refl h _, fun _ h => absurd h (List.not_mem_nil _)⟩
  | x :: xs, first, h, ys, h', hh, hv, e => by
      simp only [mapAtoms, Option.bind_eq_bind, Option.bind_eq_some, Option.pure_def,
        Option.some.injEq] at e
      obtain ⟨⟨r, h₁⟩, e₁, ⟨ys', h₂⟩, e₂, rfl, rfl⟩ := e
      obtain ⟨hl, -⟩ := hok x _ h r h₁ hh (hv x (.head _)) e₁
      obtain ⟨hf₁, hr₁⟩ := hcb x _ h r h₁ hh (hv x (.head _)) e₁
      obtain ⟨hf₂, hr₂⟩ := mapAtoms_rises hok hcb hl.closed
        (fun y hy => (hv y (.tail _ hy)).grow hl.grows) e₂
      refine ⟨fun p hp hb => (hf₂ p (hp.grow hl.grows) fun y hy => hb y (.tail _ hy)).trans
        (hf₁ p hp fun y hy => by rw [List.mem_singleton.1 hy]; exact hb x (.head _)), fun c hc => ?_⟩
      rcases List.mem_append.1 hc with hc | hc
      · obtain ⟨ht, hR⟩ := hr₁ c (by simpa using hc)
        exact ⟨x, .head _, ht.symm, hR⟩
      · obtain ⟨y, hy, ht, hR⟩ := hr₂ c hc
        exact ⟨y, .tail _ hy, ht, hR⟩

theorem ConfigLevel.map_rises {cb : AtomCallback} {R : Nat → Nat → Prop} (hok : CallbackOK cb)
    (hcb : CallbackRises cb R) {l l' : ConfigLevel} {h h' : Heap} (hh : h.Closed) (hl : l.OK h)
    (e : l.map cb h = some (l', h')) : h.FixedBelow h' l.atoms ∧ Rises R l.atoms l'.atoms := by
  simp only [ConfigLevel.map, Option.map_eq_some', Prod.mk.injEq] at e
  obtain ⟨⟨ys, h₁⟩, e, rfl, rfl⟩ := e
  exact mapAtoms_rises hok hcb hh hl.valid e

theorem childPath_rises : ∀ (names : List String) {l l' : ConfigLevel} {h h' : Heap}, h.Closed →
    l.OK h → l.childPath names h = some (l', h') → h.FixedBelow h' l.atoms ∧ Rises (· ≤ ·) l.atoms l'.atoms
  | [], l, l', h, h', _, _, e => by
      simp only [ConfigLevel.childPath, Option.some.injEq, Prod.mk.injEq] at e
      obtain ⟨rfl, rfl⟩ := e
      exact ⟨FixedBelow.refl h _, Rises.refl _⟩
  | n :: ns, l, l', h, h', hh, hl, e => by
      simp only [ConfigLevel.childPath, Option.bind_eq_bind, Option.bind_eq_some] at e
      obtain ⟨⟨l₁, h₁⟩, e₁, e₂⟩ := e
      have s₁ := ConfigLevel.map_step (childCallback_ok n) hl hh e₁
      obtain ⟨hf₁, hr₁⟩ := ConfigLevel.map_rises (childCallback_ok n) (childCallback_rises n) hh hl e₁
      obtain ⟨hf₂, hr₂⟩ := childPath_rises ns s₁.closed s₁.ok e₂
      exact ⟨hf₁.trans hf₂ (hr₁.mono Nat.le_of_lt) s₁.grows,
        (hr₁.mono Nat.le_of_lt).trans (fun h₁ h₂ => h₁.trans h₂) hr₂⟩

/-- `ConfigLevel::child(names)` and then `convert(Map)`: the level reached
rises from the first, and nothing below the first level's atoms changes. -/
theorem walk_rises {ns : List String} {l l₁ L : ConfigLevel} {h h₁ h' : Heap} (hh : h.Closed)
    (hl : l.OK h) (e₁ : l.childPath ns h = some (l₁, h₁)) (e₂ : l₁.convert .map h₁ = some (L, h')) :
    h.FixedBelow h' l.atoms ∧ Rises (· ≤ ·) l.atoms L.atoms := by
  have s₁ := ConfigLevel.childPath_step ns hl hh e₁
  obtain ⟨f₁, r₁⟩ := childPath_rises ns hh hl e₁
  obtain ⟨f₂, r₂⟩ := ConfigLevel.map_rises (convertCallback_ok .map) (convertCallback_rises .map)
    s₁.closed s₁.ok e₂
  exact ⟨f₁.trans f₂ r₁ s₁.grows, r₁.trans (fun h₁ h₂ => h₂ ▸ h₁) r₂⟩

-- ============================================ the operations on a frame

section Operations

variable {cs : CryptoService} {key : String} {d d₁ d' : ConfigPrivate} {h h₁ h' : Heap}

/-- `enterKey`: the level entered rises from the current one, nothing
below the current atoms changes, and `leaveKey` comes back. -/
theorem enterKey_rises (hd : d.OK h) (hh : h.Closed) (e : enterKey key d h = some (d₁, h₁)) :
    h.FixedBelow h₁ d.current.atoms ∧ Rises (· ≤ ·) d.current.atoms d₁.current.atoms ∧
      leaveKey key d₁ = some d := by
  unfold enterKey at e
  split_ifs at e with hs
  · simp only [Option.some.injEq, Prod.mk.injEq] at e
    obtain ⟨rfl, rfl⟩ := e
    exact ⟨.refl h _, .refl _, by simp [leaveKey, hs]⟩
  · simp only [beginGroup, Option.bind_eq_bind, Option.bind_eq_some, Option.guard_eq_some,
      Option.pure_def, Option.some.injEq, Prod.mk.injEq] at e
    obtain ⟨-, -, -, -, ⟨l₁, h₂⟩, e₁, ⟨l₂, h₃⟩, e₂, rfl, rfl⟩ := e
    unfold ConfigLevel.childNames at e₁
    split_ifs at e₁
    obtain ⟨f, r⟩ := walk_rises hh hd.current e₁ e₂
    exact ⟨f, r, by simp [leaveKey, hs, endGroup]⟩

/-- The loop of `Config::value` rewrites only its atoms. -/
theorem valueLoop_fixedBelow {name : String} :
    ∀ (as : List Ptr) (var : Variant) {h h' : Heap} {r : Variant}, h.Closed →
      (∀ a ∈ as, h.Valid a) → valueLoop name as var h = some (r, h') → h.FixedBelow h' as
  | [], _, h, _, _, _, _, e => by
      simp only [valueLoop, Option.some.injEq, Prod.mk.injEq] at e
      exact e.2 ▸ .refl h _
  | a :: as, var, h, h', r, hh, hv, e => by
      simp only [valueLoop, Option.bind_eq_bind] at e
      split_ifs at e
      obtain ⟨⟨rc, h₂⟩, e₁, e₂⟩ := Option.bind_eq_some.1 e
      have hl := (child_local hh (hv a (.head _)) e₁).1
      have f₁ := (child_fixedBelow e₁).mono (Rises.of_sublist (List.singleton_sublist.2 (.head as)))
      dsimp only at e₂
      split_ifs at e₂
      · have f₂ := valueLoop_fixedBelow as _ hl.closed (fun x hx => (hv x (.tail _ hx)).grow hl.grows) e₂
        exact f₁.trans (f₂.mono (Rises.of_sublist (List.sublist_cons_self _ _))) (.refl _) hl.grows
      · simp only [Option.pure_def, Option.some.injEq, Prod.mk.injEq] at e₂
        exact e₂.2 ▸ f₁

/-- `Config::value` comes back to its cursor and rewrites nothing below
the current atoms. -/
theorem value_fixedBelow {dflt r : Variant} {flags : ValueFlags} (hd : d.OK h) (hh : h.Closed)
    (e : value cs key dflt flags d h = some (r, d', h')) : d' = d ∧ h.FixedBelow h' d.current.atoms := by
  unfold value at e
  split at e
  · simp only [Option.some.injEq, Prod.mk.injEq] at e
    obtain ⟨-, rfl, rfl⟩ := e
    exact ⟨rfl, .refl h _⟩
  · simp only [Option.bind_eq_bind, Option.bind_eq_some, Option.pure_def, Option.some.injEq,
      Prod.mk.injEq] at e
    obtain ⟨⟨d₁, h₁⟩, e₁, ⟨r₂, h₂⟩, e₂, d₃, e₃, -, rfl, rfl⟩ := e
    have s := enterKey_step hd hh e₁
    obtain ⟨f₁, r₁, hb⟩ := enterKey_rises hd hh e₁
    exact ⟨Option.some.inj (e₃.symm.trans hb),
      f₁.trans (valueLoop_fixedBelow _ _ s.closed s.ok.valid e₂) r₁ s.grows⟩

/-- `Config::setValue` comes back to its cursor and rewrites nothing
below the current atoms. -/
theorem setValue_fixedBelow {v : Variant} {flags : ValueFlags} {s s' : Store} (hd : d.OK s.heap)
    (hh : s.heap.Closed) (e : setValue cs key v flags d s = some (d', s')) :
    d' = d ∧ s.heap.FixedBelow s'.heap d.current.atoms := by
  unfold setValue at e
  split at e
  · simp only [Option.some.injEq, Prod.mk.injEq] at e
    obtain ⟨rfl, rfl⟩ := e
    exact ⟨rfl, .refl _ _⟩
  · simp only [Option.bind_eq_bind, Option.bind_eq_some, Option.guard_eq_some, Option.pure_def,
      Option.some.injEq, Prod.mk.injEq] at e
    obtain ⟨⟨d₁, h₁⟩, e₁, a, ha, -, -, ⟨b, h₃⟩, e₃, d₄, e₄, rfl, rfl⟩ := e
    simp only [markWritten_heap, Store.withHeap_heap]
    dsimp only at ha e₃ e₄
    have o₁ := enterKey_ok hd hh e₁
    obtain ⟨f₁, r₁, hb⟩ := enterKey_rises hd hh e₁
    have hva := o₁.ok.current.valid a (List.mem_of_mem_head? ha)
    have hg := (fromVariant_local o₁.closed hva.1 (if flags.crypted then cs.crypt v else v) false).1.grows
    have f₂ := fixedBelow_of_alloc (Tree.touches_fromVariant (o₁.closed a.tree) false
      (if flags.crypted then cs.crypt v else v) _) d₁.current.atoms
    have f₃ := (replace_fixedBelow e₃).mono
      (Rises.of_sublist (List.singleton_sublist.2 (List.mem_of_mem_head? ha)))
    exact ⟨Option.some.inj (e₄.symm.trans hb), f₁.trans (f₂.trans f₃ (.refl _) hg) r₁ o₁.grows⟩

end Operations

-- ====================================================== replaying a walk

/-- The entries of a Map atom; none for any other tag. -/
def Atom.entries (x : Atom) : List (String × Nat) :=
  match x.payload with
  | .map m => m
  | _ => []

/-- Two atoms `convert(Map)` treats alike: both Maps or neither, with the
same read-only flag. -/
def Atom.SameKind (x y : Atom) : Prop := x.isMap = y.isMap ∧ x.readOnly = y.readOnly

/-- Two atoms `child(name)` treats alike: alike for `convert(Map)`, with
the same entry under `name`. -/
def Atom.SameEntry (name : String) (x y : Atom) : Prop :=
  x.SameKind y ∧ x.entries.lookup name = y.entries.lookup name

theorem Atom.SameEntry.of_eq {name : String} {x y : Atom} (h : x = y) : x.SameEntry name y :=
  h ▸ ⟨⟨rfl, rfl⟩, rfl⟩

namespace Tree

variable {T T' T'' : Tree} {a : Nat} {name : String}

/-- `child(name)` leaves a Map. -/
theorem isMap_of_child {r : Option Nat} (e : T.child a name = some (r, T')) : (T'.cells a).isMap := by
  rcases child_cases e with ⟨c, -, rfl, hl⟩ | ⟨-, rfl, hro, -⟩ | ⟨-, -, -, rfl⟩
  · exact isMap_of_lookup hl
  · by_contra hm
    simp [Tree.child, hro, hm] at e
  · simp [Atom.isMap, Atom.type, Payload.type]

theorem entries_congr (h : T'.cells a = T.cells a) : T'.entries a = T.entries a := by
  simp only [entries, h]

/-- `child(name)` on a Map that has the entry hands it back. -/
theorem child_of_lookup {c : Nat} (hl : (T.entries a).lookup name = some c) :
    T.child a name = some (some c, T) := by
  have hm := isMap_of_lookup hl
  simp [Tree.child, hm, ensureMap_of_isMap hm, hl]

/-- `child(name)` shown again a node alike to the one it left answers as
before and changes nothing. -/
theorem child_replay {r : Option Nat} (ha : a < T.next) (e : T.child a name = some (r, T'))
    (h'' : (T''.cells a).SameEntry name (T'.cells a)) :
    T''.child a name = some (r, T'') ∧ (T'.cells a).readOnly = (T.cells a).readOnly := by
  obtain ⟨⟨hm'', hro''⟩, hl''⟩ := h''
  have hl' : (T''.entries a).lookup name = (T'.entries a).lookup name := hl''
  have hm := isMap_of_child e
  rcases child_cases e with ⟨c, rfl, rfl, hl⟩ | ⟨rfl, rfl, hro, hl⟩ | ⟨rfl, -, -, rfl⟩
  · exact ⟨child_of_lookup (hl'.trans hl), rfl⟩
  · rw [← hm''] at hm
    rw [← hro''] at hro
    refine ⟨?_, rfl⟩
    simp [Tree.child, hro, hm, ensureMap_of_isMap hm, hl'.trans hl]
  · refine ⟨child_of_lookup (by rw [hl']; simp), ?_⟩
    rw [setPayload_cells_self, alloc_cells_ne _ _ (by simp; omega)]
    exact ensureMap_readOnly

/-- `convert(type)` leaves the tag it was asked for. -/
theorem convert_type (T : Tree) (a : Nat) (type : AtomType) : ((T.convert a type).cells a).type = type := by
  unfold convert
  split_ifs with h
  · exact h
  · cases type <;> simp only [ensureMap, ensureList, ensureValue, clear] <;>
      (try split) <;> simp_all [Atom.type, Payload.type]

theorem convert_of_type {type : AtomType} (h : (T.cells a).type = type) : T.convert a type = T := by
  simp [convert, h]

theorem convert_readOnly (T : Tree) (a : Nat) (type : AtomType) :
    ((T.convert a type).cells a).readOnly = (T.cells a).readOnly := by
  unfold convert
  split_ifs
  · rfl
  · cases type <;> simp only [ensureMap, ensureList, ensureValue, clear] <;> (try split) <;> simp

end Tree

/-- Two atoms with the same tag and read-only flag. -/
def Atom.SameTag (x y : Atom) : Prop := x.type = y.type ∧ x.readOnly = y.readOnly

/-- Shown again, in any heap, an atom related by `R` to the one it left,
the callback answers as before, changes nothing, and the atom has the
flag it had before the first run. -/
def Replays (cb : AtomCallback) (R : Atom → Atom → Prop) : Prop :=
  ∀ a ro h r h' h'', h.Valid a → cb a ro h = some (r, h') → R (h''.atom a) (h'.atom a) →
    cb a ro h'' = some (r, h'') ∧ (h''.atom a).readOnly = (h.atom a).readOnly

theorem childCallback_replays (name : String) : Replays (childCallback name) (Atom.SameEntry name) := by
  intro a ro h r h' h'' ha e hx
  unfold childCallback at e ⊢
  split_ifs at e with hc
  · simp only [Option.some.injEq, Prod.mk.injEq] at e
    obtain ⟨rfl, rfl⟩ := e
    refine ⟨?_, hx.1.2⟩
    rw [if_pos (by rwa [hx.1.1])]
  · simp only [Heap.child, Option.map_eq_some', Prod.mk.injEq] at e
    obtain ⟨⟨r₀, T⟩, e, rfl, rfl⟩ := e
    have hx' : ((h''.trees a.tree).cells a.addr).SameEntry name (T.cells a.addr) := by
      simpa [Heap.atom] using hx
    obtain ⟨e'', hro⟩ := Tree.child_replay ha.2 e hx'
    have hm : (h''.atom a).isMap := by rw [Heap.atom, hx'.1.1]; exact Tree.isMap_of_child e
    refine ⟨?_, by simp only [Heap.atom, hx'.1.2, hro]⟩
    rw [if_neg (by simp [hm])]
    simp only [Heap.child, e'', Option.map_some', Heap.update_self]

theorem convertCallback_replays (type : AtomType) : Replays (convertCallback type) Atom.SameTag := by
  intro a ro h r h' h'' ha e hx
  unfold convertCallback at e ⊢
  split_ifs at e with hc <;> simp only [Option.some.injEq, Prod.mk.injEq] at e <;>
    obtain ⟨rfl, rfl⟩ := e
  · rw [if_pos (by rwa [hx.1])]
    exact ⟨rfl, hx.2⟩
  · have ht : ((h''.trees a.tree).cells a.addr).type = type :=
      hx.1.trans (by simp [Heap.atom, Heap.convert, Tree.convert_type])
    rw [if_neg (by simp [Heap.atom, ht]), Heap.convert, Tree.convert_of_type ht, Heap.update_self]
    exact ⟨rfl, hx.2.trans (by simp [Heap.atom, Heap.convert, Tree.convert_readOnly])⟩

/-- `convert(Map)` replays over an atom alike for it. -/
theorem convertCallback_map_replays : Replays (convertCallback .map) Atom.SameKind := by
  intro a ro h r h' h'' ha e hx
  have hne : ∀ x y : Atom, x.isMap = y.isMap → (x.type ≠ .map ↔ y.type ≠ .map) := fun x y hxy =>
    not_congr (by simpa [Atom.isMap] using hxy)
  unfold convertCallback at e ⊢
  split_ifs at e with hc <;> simp only [Option.some.injEq, Prod.mk.injEq] at e <;>
    obtain ⟨rfl, rfl⟩ := e
  · rw [if_pos (by simpa [hne _ _ hx.1] using hc)]
    exact ⟨rfl, hx.2⟩
  · have ht : ((h''.trees a.tree).cells a.addr).type = .map := by
      simpa [Atom.isMap, Heap.atom, Heap.convert, Tree.convert_type] using hx.1
    rw [if_neg (by simp [Heap.atom, ht]), Heap.convert, Tree.convert_of_type ht, Heap.update_self]
    exact ⟨rfl, hx.2.trans (by simp [Heap.atom, Heap.convert, Tree.convert_readOnly])⟩

/-- `ConfigLevel::map` replays when its callback does, atom by atom:
each atom's region is left alone by the callbacks after its own. -/
theorem mapAtoms_replay {cb : AtomCallback} {R : Atom → Atom → Prop} (hok : CallbackOK cb)
    (hcb : Replays cb R) :
    ∀ {xs : List Ptr} {first : Bool} {h : Heap} {ys : List Ptr} {h' : Heap}, h.Closed →
      (∀ x ∈ xs, h.Valid x) → (xs.map Ptr.tree).Nodup → mapAtoms cb first xs h = some (ys, h') →
      ∀ h'' : Heap, (∀ x ∈ xs, R (h''.atom x) (h'.atom x)) → mapAtoms cb first xs h'' = some (ys, h'')
  | [], _, _, _, _, _, _, _, e, _, _ => by
      simp only [mapAtoms, Option.some.injEq, Prod.mk.injEq, and_true] at e ⊢
      exact e.1
  | x :: xs, first, h, ys, h', hh, hv, hn, e, h'', hR => by
      simp only [mapAtoms, Option.bind_eq_bind, Option.bind_eq_some, Option.pure_def,
        Option.some.injEq] at e
      obtain ⟨⟨r, h₁⟩, e₁, ⟨ys', h₂⟩, e₂, rfl, rfl⟩ := e
      obtain ⟨hl, -⟩ := hok x _ h r h₁ hh (hv x (.head _)) e₁
      have hvs : ∀ y ∈ xs, h₁.Valid y := fun y hy => (hv y (.tail _ hy)).grow hl.grows
      have hfr := (mapAtoms_ok hok xs false hl.closed hvs e₂).2.2.1 x.tree (List.nodup_cons.1 hn).1
      obtain ⟨e₁', hro⟩ := hcb x _ h r h₁ h'' (hv x (.head _)) e₁
        (by rw [← Heap.atom_congr (q := x) hfr]; exact hR x (.head _))
      have e₂' := mapAtoms_replay hok hcb hl.closed hvs (List.nodup_cons.1 hn).2 e₂ h''
        fun y hy => hR y (.tail _ hy)
      simp only [mapAtoms, hro, e₁', e₂', Option.bind_eq_bind, Option.some_bind, Option.pure_def]

theorem ConfigLevel.map_replay {cb : AtomCallback} {R : Atom → Atom → Prop} (hok : CallbackOK cb)
    (hcb : Replays cb R) {l l' : ConfigLevel} {h h' h'' : Heap} (hh : h.Closed) (hl : l.OK h)
    (e : l.map cb h = some (l', h')) (hR : ∀ x ∈ l.atoms, R (h''.atom x) (h'.atom x)) :
    l.map cb h'' = some (l', h'') := by
  simp only [ConfigLevel.map, Option.map_eq_some', Prod.mk.injEq] at e ⊢
  obtain ⟨⟨ys, h₁⟩, e, rfl, rfl⟩ := e
  exact ⟨(ys, h''), mapAtoms_replay hok hcb hh hl.valid hl.separate e h'' hR, rfl, rfl⟩

/-- `ConfigLevel::child(names)` walked again over a heap that kept every
node below the level it reached: the same level, the heap unchanged.
Each level of the walk lies strictly below the next, so its atoms are
as the first walk left them. -/
theorem childPath_replay : ∀ (names : List String) {l l' : ConfigLevel} {h h' h'' : Heap}, h.Closed →
    l.OK h → l.childPath names h = some (l', h') → h'.FixedBelow h'' l'.atoms →
      l.childPath names h'' = some (l', h'')
  | [], l, l', h, h', h'', _, _, e, _ => by
      simp only [ConfigLevel.childPath, Option.some.injEq, Prod.mk.injEq, and_true] at e ⊢
      exact e.1
  | n :: ns, l, l', h, h', h'', hh, hl, e, hf => by
      simp only [ConfigLevel.childPath, Option.bind_eq_bind, Option.bind_eq_some] at e
      obtain ⟨⟨l₁, h₁⟩, e₁, e₂⟩ := e
      have s₁ := ConfigLevel.map_step (childCallback_ok n) hl hh e₁
      have s₂ := ConfigLevel.childPath_step ns s₁.ok s₁.closed e₂
      have r₁ := (ConfigLevel.map_rises (childCallback_ok n) (childCallback_rises n) hh hl e₁).2
      obtain ⟨f₂, r₂⟩ := childPath_rises ns s₁.closed s₁.ok e₂
      have r₁₂ : Rises (· < ·) l.atoms l'.atoms := @Rises.trans (· < ·) (· ≤ ·) (· < ·) (fun h₁ h₂ => Nat.lt_of_lt_of_le h₁ h₂) _ _ _ r₁ r₂
      have e₁' : l.child n h'' = some (l₁, h'') :=
        ConfigLevel.map_replay (childCallback_ok n) (childCallback_replays n) hh hl e₁ fun x hx =>
          have hv := (hl.valid x hx).grow s₁.grows
          .of_eq ((hf x (hv.grow s₂.grows) (r₁₂.below hl.separate hx)).trans
            (f₂ x hv (r₁.below hl.separate hx)))
      simp only [ConfigLevel.childPath, e₁', childPath_replay ns s₁.closed s₁.ok e₂ hf,
        Option.bind_eq_bind, Option.some_bind]

theorem ConfigLevel.map_arrayElement {cb : AtomCallback} {l l' : ConfigLevel} {h h' : Heap}
    (e : l.map cb h = some (l', h')) : l'.arrayElement = false := by
  simp only [ConfigLevel.map, Option.map_eq_some', Prod.mk.injEq] at e
  obtain ⟨_, -, rfl, -⟩ := e
  rfl

/-- A walk along `names` and a conversion to `type`, again over a heap
that kept every node below the level reached and its atoms' tags and
flags: the same levels, the heap unchanged. An atom the conversion
dropped has no atom of the level in its region, so it is as the walk
left it. -/
theorem childNames_convert_replay {names : List String} {type : AtomType} {l l₁ L : ConfigLevel}
    {h h₂ h₃ h'' : Heap} (hl : l.OK h) (hh : h.Closed) (e₁ : l.childNames names h = some (l₁, h₂))
    (e₂ : l₁.convert type h₂ = some (L, h₃)) (hf : h₃.FixedBelow h'' L.atoms)
    (ht : ∀ x ∈ L.atoms, Atom.SameTag (h''.atom x) (h₃.atom x)) :
    l.childNames names h'' = some (l₁, h'') ∧ l₁.convert type h'' = some (L, h'') := by
  have s₁ := childNames_step hl hh e₁
  have s₂ := ConfigLevel.map_step (convertCallback_ok type) s₁.ok s₁.closed e₂
  obtain ⟨f₂, r₂⟩ := ConfigLevel.map_rises (convertCallback_ok type) (convertCallback_rises type)
    s₁.closed s₁.ok e₂
  have hR : ∀ x ∈ l₁.atoms, Atom.SameTag (h''.atom x) (h₃.atom x) := by
    intro x hx
    by_cases hxL : x ∈ L.atoms
    · exact ht x hxL
    · rw [hf x ((s₁.ok.valid x hx).grow s₂.grows) fun y hy hyx => ?_]
      · exact ⟨rfl, rfl⟩
      · obtain ⟨x', hx', ht', ha'⟩ := r₂ y hy
        obtain rfl := List.inj_on_of_nodup_map s₁.ok.separate hx' hx (ht'.trans hyx)
        exact absurd (show y = x' by cases y; cases x'; simp_all) (fun h => hxL (h ▸ hy))
  unfold ConfigLevel.childNames at e₁ ⊢
  split_ifs at e₁ ⊢ with hnames
  exact ⟨childPath_replay _ hh hl e₁ (f₂.trans hf (r₂.mono Nat.le_of_eq) s₂.grows),
    ConfigLevel.map_replay (convertCallback_ok type) (convertCallback_replays type) s₁.closed s₁.ok e₂ hR⟩

/-- `Config::beginArray(name)` again, over a heap that kept every node
below the list frame it reached and its atoms' tags and flags: the same
list frame, the heap unchanged, and the size measured on that heap. -/
theorem beginArray_replay {name : String} {n : Nat} {d d₁ : ConfigPrivate} {h h₁ h'' : Heap}
    (hd : d.OK h) (hh : h.Closed) (e : beginArray name d h = some (n, d₁, h₁))
    (hf : h₁.FixedBelow h'' d₁.current.atoms)
    (ht : ∀ x ∈ d₁.current.atoms, Atom.SameTag (h''.atom x) (h₁.atom x)) :
    beginArray name d h'' = (arraySizeLoop h'' d₁.current.atoms).map fun m => (m, d₁, h'') := by
  simp only [beginArray, Option.bind_eq_bind, Option.bind_eq_some, Option.guard_eq_some,
    Option.pure_def, Option.some.injEq, Prod.mk.injEq] at e
  obtain ⟨u, hg, ⟨l₁, h₂⟩, e₁, ⟨L, h₃⟩, e₂, m, -, -, rfl, rfl⟩ := e
  simp only [ConfigPrivate.push_current] at hf ht ⊢
  obtain ⟨e₁', e₂'⟩ := childNames_convert_replay hd.current hh e₁ e₂ hf ht
  simp [beginArray, hg, e₁', e₂', arraySize, ConfigLevel.map_arrayElement e₂, Option.map_eq_bind]

/-- `Config::beginGroup(name)` again, over a heap that kept every node
below the level it reached and its atoms' tags and flags: the same
level, the heap unchanged. Right after `beginGroup(name)`, in
particular, it changes nothing. -/
theorem beginGroup_replay {name : String} {d d₁ : ConfigPrivate} {h h₁ h'' : Heap}
    (hd : d.OK h) (hh : h.Closed) (e : beginGroup name d h = some (d₁, h₁))
    (hf : h₁.FixedBelow h'' d₁.current.atoms)
    (ht : ∀ x ∈ d₁.current.atoms, Atom.SameTag (h''.atom x) (h₁.atom x)) :
    beginGroup name d h'' = some (d₁, h'') := by
  simp only [beginGroup, Option.bind_eq_bind, Option.bind_eq_some, Option.guard_eq_some,
    Option.pure_def, Option.some.injEq, Prod.mk.injEq] at e
  obtain ⟨u, hg, u', hn, ⟨l₁, h₂⟩, e₁, ⟨L, h₃⟩, e₂, rfl, rfl⟩ := e
  simp only [ConfigPrivate.push_current] at hf ht
  obtain ⟨e₁', e₂'⟩ := childNames_convert_replay hd.current hh e₁ e₂ hf ht
  simp [beginGroup, hg, hn, e₁', e₂']

end QutimConfig
